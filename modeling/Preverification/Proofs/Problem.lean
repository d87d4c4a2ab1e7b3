import Preverification.Proofs.Paths
import Preverification.Typing.Analysis

/-!
# The problem that a body poses

Type inference works on positions. What it looks up there is what the labels of the body say: the
operations that may come next, the handlers around an operation, and the effect of an operation.

* `AnalysisProblem.Poses`: what a problem looks up is what the labels of a body say.
* `AnalysisProblem.ofBody_ok`: the problem of a body is posed by the body.
* `AnalysisProblem.Poses.mem_successors`: the successors of an operation are the operations that may
  come next.
* `AnalysisProblem.Poses.mem_handlersAt`: the handlers around an operation are those that guard it.
-/

namespace Preverification

/-- A handler by positions stands where the labels of a handler are placed. -/
structure PlacedHandler.Places (placed : PlacedHandler) (handler : Handler) (nodes : List Node)
    (pool : Pool) : Prop where
  start : nodes[placed.start]? = some (.label handler.start)
  stop : nodes[placed.stop]? = some (.label handler.stop)
  target : ∃ place, nodes[place]? = some (.label handler.handler) ∧
    Arrives nodes place placed.target
  caught : handler.Catches pool placed.caught

/-- A handler catches values of one type. -/
theorem Handler.Catches.unique {pool : Pool} {handler : Handler} {type type' : InferredType}
    (h : handler.Catches pool type) (h' : handler.Catches pool type') : type = type' := by
  unfold Catches at h h'
  cases hc : handler.caught with
  | none =>
    rw [hc] at h h'
    exact h.trans h'.symm
  | some index =>
    rw [hc] at h h'
    rcases h with ⟨class', hclass, rfl⟩
    rcases h' with ⟨class'', hclass', rfl⟩
    rw [hclass] at hclass'
    cases hclass'
    rfl

namespace AnalysisProblem

/-- A problem is the one that a body poses. -/
structure Poses (problem : AnalysisProblem) (body : Body) (context : MethodContext) : Prop where
  flow : problem.flow.Describes body.nodes
  handlers : List.Forall₂ (fun handler (placed : PlacedHandler) =>
    placed.Places handler body.nodes context.constants) body.handlers problem.handlers
  context_eq : problem.context = context

/-- A handler is placed at the positions of its labels. -/
theorem placeHandler_ok {flow : Flow} {nodes : List Node} {pool : Pool} {handler : Handler}
    {placed : PlacedHandler} (hd : flow.Describes nodes)
    (h : placeHandler flow pool handler = .ok placed) : placed.Places handler nodes pool := by
  unfold placeHandler at h
  rcases except_bind_ok.1 h with ⟨start, hstart, h⟩
  rcases except_bind_ok.1 h with ⟨stop, hstop, h⟩
  have hrange := And.intro ((hd.position_ok _ _).1 (except_mapError_ok.1 hstart))
    ((hd.position_ok _ _).1 (except_mapError_ok.1 hstop))
  -- the code of the handler has to start somewhere
  cases hat : flow.operationAt handler.handler with
  | error error =>
    rw [hat] at h
    cases h
  | ok found =>
    rw [hat] at h
    cases found with
    | none => cases h
    | some target =>
      have htarget := hd.operationAt_ok.1 hat
      -- without a type the handler catches everything that can be thrown
      cases hc : handler.caught with
      | none =>
        rw [hc] at h
        cases h
        exact ⟨hrange.1, hrange.2, htarget, by simp [Handler.Catches, hc]⟩
      | some index =>
        rw [hc] at h
        rcases except_bind_ok.1 h with ⟨_, ⟨⟩, h⟩
        rcases except_bind_ok.1 h with ⟨class', hclass, h⟩
        cases h
        have hcatches : handler.Catches pool (.object class') := by
          unfold Handler.Catches
          rw [hc]
          exact ⟨class', except_mapError_ok.1 hclass, rfl⟩
        exact ⟨hrange.1, hrange.2, htarget, hcatches⟩

/-- The problem that is found for a body is posed by the body. -/
theorem ofBody_ok {body : Body} {context : MethodContext} {problem : AnalysisProblem}
    (h : ofBody body context = .ok problem) : problem.Poses body context := by
  unfold ofBody at h
  rcases except_bind_ok.1 h with ⟨flow, hflow, h⟩
  rcases except_bind_ok.1 h with ⟨handlers, hhandlers, h⟩
  cases h
  have hd := Body.flow_describes (except_mapError_ok.1 hflow)
  exact ⟨hd, (except_mapM_ok hhandlers).imp fun _ _ => placeHandler_ok hd, rfl⟩

/-- The labels of a body that poses a problem are placed once. -/
theorem exists_flow {body : Body} {context : MethodContext} {problem : AnalysisProblem}
    (h : ofBody body context = .ok problem) : ∃ flow, body.flow = .ok flow := by
  unfold ofBody at h
  rcases except_bind_ok.1 h with ⟨flow, hflow, _⟩
  exact ⟨flow, except_mapError_ok.1 hflow⟩

namespace Poses

variable {problem : AnalysisProblem} {body : Body} {context : MethodContext} {position : Nat}
  {operation : Operation Label}

theorem nodes_eq (hp : problem.Poses body context) (position : Nat) :
    problem.flow.nodes[position]? = body.nodes[position]? := by
  rw [hp.flow.nodes_eq, List.getElem?_toArray]

/-- An allocation is called by the label in front of it. -/
theorem allocation?_eq (hp : problem.Poses body context) (position : Nat) :
    problem.allocation? position = Body.labelBefore body.nodes position := by
  unfold allocation? Body.labelBefore
  rw [hp.nodes_eq]

/-- An operation runs in the inference when it can run on what is known. -/
theorem execute_ok (hp : problem.Poses body context)
    (ho : body.nodes[position]? = some (.operation operation)) {state after : TypeState} :
    problem.execute position operation state = .ok after ↔
      Body.typesBehind context body.nodes position state = .ok after := by
  simp only [execute, Body.typesBehind, ho, hp.context_eq, hp.allocation?_eq]
  cases Transfer.operation context (Body.labelBefore body.nodes position) operation state <;> simp

/-- A jump leads to where control arrives from the label. -/
theorem jumpTarget_ok (hp : problem.Poses body context) {label : Label} {target : Nat} :
    problem.jumpTarget position label = .ok target ↔
      ∃ place, body.nodes[place]? = some (.label label) ∧ Arrives body.nodes place target := by
  rw [← hp.flow.operationAt_ok]
  unfold jumpTarget
  cases problem.flow.operationAt label with
  | error error => simp
  | ok found => cases found <;> simp

/-- Control falls through to where it arrives from the next position. -/
theorem fallThrough_ok (hp : problem.Poses body context) {target : Nat} :
    problem.fallThrough position = .ok target ↔ Arrives body.nodes (position + 1) target := by
  rw [← hp.flow.operationFrom_eq]
  unfold fallThrough
  cases problem.flow.operationFrom (position + 1) <;> simp

/-- The targets of an operation are those at which its jumps arrive. -/
theorem mem_targets (hp : problem.Poses body context) {targets : List Nat} {labels : List Label}
    (h : labels.mapM (problem.jumpTarget position) = .ok targets) {target : Nat} :
    target ∈ targets ↔ ∃ label ∈ labels, ∃ place,
      body.nodes[place]? = some (.label label) ∧ Arrives body.nodes place target := by
  have hall := (except_mapM_ok h).imp fun label target => hp.jumpTarget_ok.1
  clear h
  induction hall with
  | nil => simp
  | @cons label found labels targets hfound _ ih =>
    rcases hfound with ⟨place, hplace, harrives⟩
    simp only [List.mem_cons, ih, exists_eq_or_imp]
    refine or_congr_left ⟨?_, ?_⟩
    · rintro rfl
      exact ⟨place, hplace, harrives⟩
    · rintro ⟨place', hplace', harrives'⟩
      -- labels are placed once, so there is one target for each
      cases hp.flow.label_unique hplace hplace'
      exact harrives'.unique harrives

/-- The successors of an operation are the operations that may come next. -/
theorem mem_successors (hp : problem.Poses body context)
    (ho : body.nodes[position]? = some (.operation operation)) {successors : List Nat}
    (h : problem.successors position operation = .ok successors) {target : Nat} :
    target ∈ successors ↔ Body.Successor body.nodes position target := by
  unfold AnalysisProblem.successors at h
  rcases except_bind_ok.1 h with ⟨targets, htargets, h⟩
  -- operations are told apart once, by where they may go
  have hsuccessor : Body.Successor body.nodes position target ↔
      target ∈ targets ∨ operation.fallsThrough ∧ Arrives body.nodes (position + 1) target := by
    rw [hp.mem_targets htargets]
    constructor
    · intro hs
      cases hs with
      | jump ho' hlabel hplace harrives =>
        cases ho.symm.trans ho'
        exact .inl ⟨_, hlabel, _, hplace, harrives⟩
      | fallThrough ho' hf harrives =>
        cases ho.symm.trans ho'
        exact .inr ⟨hf, harrives⟩
    · rintro (⟨label, hlabel, place, hplace, harrives⟩ | ⟨hf, harrives⟩)
      · exact .jump ho hlabel hplace harrives
      · exact .fallThrough ho hf harrives
  rw [hsuccessor]
  -- only what falls through goes on behind the operation
  by_cases hf : operation.fallsThrough
  · rw [if_pos hf] at h
    rcases except_bind_ok.1 h with ⟨next, hnext, h⟩
    cases h
    have harrives := hp.fallThrough_ok.1 hnext
    simp only [List.mem_append, List.mem_singleton, hf, true_and]
    refine or_congr_right ⟨?_, fun h => h.unique harrives⟩
    rintro rfl
    exact harrives
  · rw [if_neg hf] at h
    cases h
    simp [hf]

/-- All the jumps of an operation arrive somewhere, and so does control that falls through it. -/
theorem successors_arrive (hp : problem.Poses body context) {successors : List Nat}
    (h : problem.successors position operation = .ok successors) :
    (∀ label ∈ operation.targets, ∃ place target,
        body.nodes[place]? = some (.label label) ∧ Arrives body.nodes place target) ∧
      (operation.fallsThrough → ∃ target, Arrives body.nodes (position + 1) target) := by
  unfold AnalysisProblem.successors at h
  rcases except_bind_ok.1 h with ⟨targets, htargets, h⟩
  constructor
  · intro label hlabel
    rcases forall₂_exists (except_mapM_ok htargets) hlabel with ⟨target, _, htarget⟩
    rcases hp.jumpTarget_ok.1 htarget with ⟨place, hplace, harrives⟩
    exact ⟨place, target, hplace, harrives⟩
  · intro hf
    rw [if_pos hf] at h
    rcases except_bind_ok.1 h with ⟨next, hnext, _⟩
    exact ⟨next, hp.fallThrough_ok.1 hnext⟩

/-- The handlers around an operation are those that guard it. -/
theorem mem_handlersAt (hp : problem.Poses body context) {target : Nat} {type : InferredType} :
    (∃ placed ∈ problem.handlersAt position, placed.target = target ∧ placed.caught = type) ↔
      ∃ handler ∈ body.handlers, handler.Guards body.nodes position target ∧
        handler.Catches context.constants type := by
  constructor
  · rintro ⟨placed, hmem, rfl, rfl⟩
    rcases List.mem_filter.1 hmem with ⟨hmem, hrange⟩
    simp only [Bool.and_eq_true, decide_eq_true_eq] at hrange
    rcases forall₂_exists hp.handlers.flip hmem with ⟨handler, hhandler, hplaces⟩
    exact ⟨handler, hhandler,
      ⟨⟨_, _, hplaces.start, hplaces.stop, hrange⟩, hplaces.target⟩, hplaces.caught⟩
  · -- a handler is found by its labels, which are placed once
    rintro ⟨handler, hhandler, ⟨⟨start, stop, hstart, hstop, hrange⟩, place, hplace, harrives⟩,
      hcatches⟩
    rcases forall₂_exists hp.handlers hhandler with ⟨placed, hmem, hplaces⟩
    rcases hplaces.target with ⟨place', hplace', harrives'⟩
    cases hp.flow.label_unique hstart hplaces.start
    cases hp.flow.label_unique hstop hplaces.stop
    cases hp.flow.label_unique hplace hplace'
    refine ⟨placed, List.mem_filter.2 ⟨hmem, ?_⟩, harrives'.unique harrives,
      hplaces.caught.unique hcatches⟩
    simpa using hrange

end Poses

end AnalysisProblem

end Preverification

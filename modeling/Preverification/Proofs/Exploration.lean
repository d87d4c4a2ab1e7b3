import Preverification.Proofs.Inference
import Preverification.Proofs.LaterResolvers

/-!
# What type inference explores

Where control may come in a body, and that type inference comes to just these operations. Nothing is
assumed about the class hierarchy: only how far an inference gets is followed here, and not what it
finds out.

* `Body.Reached`: where control may come, by rules.
* `AnalysisProblem.visit_explores`: a visit keeps what holds all through an inference.
* `Body.analyze_explored`: type inference comes to the operations that control comes to, and to no
  others.
-/

namespace Preverification

namespace Body

/-- Control comes to an operation from where the body is entered: to operations that may come next,
and to the handlers around an operation. -/
inductive Reached (body : Body) : Nat → Prop where
  | start {target : Nat} : Arrives body.nodes 0 target → Reached body target
  | next {position target : Nat} : Reached body position →
      Successor body.nodes position target → Reached body target
  | caught {position target : Nat} {handler : Handler} : Reached body position →
      handler ∈ body.handlers → handler.Guards body.nodes position target → Reached body target

/-- Control goes on to operations only. -/
theorem Successor.arrives {nodes : List Node} {position target : Nat}
    (h : Successor nodes position target) : ∃ place, Arrives nodes place target := by
  cases h with
  | jump _ _ _ ht => exact ⟨_, ht⟩
  | fallThrough _ _ ht => exact ⟨_, ht⟩

/-- Control only ever comes to operations. -/
theorem Reached.arrives {body : Body} {target : Nat} (h : body.Reached target) :
    ∃ place, Arrives body.nodes place target := by
  cases h with
  | start ht => exact ⟨0, ht⟩
  | next _ hsucc => exact hsucc.arrives
  | caught _ _ hguards =>
    obtain ⟨place, -, ht⟩ := hguards.code
    exact ⟨place, ht⟩

/-- Control goes on from an operation to operations that can be reached. -/
structure GoesOn (body : Body) (analysis : Analysis) (position : Nat) : Prop where
  next : ∀ target, Successor body.nodes position target → analysis.isLive target
  caught : ∀ handler ∈ body.handlers, ∀ target, handler.Guards body.nodes position target →
    analysis.isLive target
  jumps : ∀ operation label, body.nodes[position]? = some (.operation operation) →
    label ∈ operation.targets → ∃ target, label.LeadsTo body.nodes target
  falls : ∀ operation, body.nodes[position]? = some (.operation operation) →
    operation.fallsThrough → ∃ target, Arrives body.nodes (position + 1) target

theorem GoesOn.mono {body : Body} {analysis analysis' : Analysis} {position : Nat}
    (h : body.GoesOn analysis position)
    (hlive : ∀ target, analysis.isLive target → analysis'.isLive target) :
    body.GoesOn analysis' position :=
  ⟨fun target ht => hlive target (h.next target ht),
    fun handler hh target ht => hlive target (h.caught handler hh target ht), h.jumps, h.falls⟩

end Body

namespace Inference

/-- Some operations are given states. Those that had none before are pending. -/
structure Spreads (targets : List Nat) (old new : Inference) : Prop where
  later : old.resolver.Later new.resolver
  size : new.analysis.states.size = old.analysis.states.size
  live : ∀ position, new.analysis.isLive position ↔
    old.analysis.isLive position ∨ position ∈ targets
  pending : ∀ position ∈ old.pending, position ∈ new.pending
  visited : ∀ position, new.analysis.isLive position → position ∉ new.pending →
    old.analysis.isLive position

namespace Spreads

variable {targets targets' : List Nat} {old middle new : Inference}

theorem nil (inference : Inference) : Spreads [] inference inference :=
  ⟨.refl _, rfl, fun _ => by simp, fun _ h => h, fun _ h _ => h⟩

/-- What spreads in two parts spreads to the targets of both. -/
theorem append (h : Spreads targets old middle) (h' : Spreads targets' middle new) :
    Spreads (targets ++ targets') old new where
  later := h.later.trans h'.later
  size := h'.size.trans h.size
  live position := by rw [h'.live, h.live, List.mem_append, or_assoc]
  pending position hp := h'.pending position (h.pending position hp)
  visited position hlive hp :=
    h.visited position (h'.visited position hlive hp) fun hmem => hp (h'.pending position hmem)

/-- What was found to be live stays so. -/
theorem isLive (h : Spreads targets old new) {position : Nat}
    (hlive : old.analysis.isLive position) : new.analysis.isLive position :=
  (h.live position).2 (.inl hlive)

end Spreads

/-- Noting a state makes its operation live, and no other one. -/
theorem isLive_note {inference : Inference} {noted : Nat}
    (h : noted < inference.analysis.states.size) (state : TypeState) (position : Nat) :
    (inference.note noted state).analysis.isLive position ↔
      inference.analysis.isLive position ∨ position = noted := by
  unfold Analysis.isLive
  rw [state?_note h]
  by_cases hp : position = noted <;> simp [hp]

/-- The operation whose state is noted is visited later. -/
theorem spreads_note {inference : Inference} {noted : Nat}
    (h : noted < inference.analysis.states.size) (state : TypeState) :
    Spreads [noted] inference (inference.note noted state) where
  later := .refl _
  size := by simp [note]
  live position := by rw [isLive_note h, List.mem_singleton]
  pending position hp := mem_insertAscending.2 (.inr hp)
  visited position hlive hp := by
    rcases (isLive_note h state position).1 hlive with hold | rfl
    · exact hold
    · exact absurd (mem_insertAscending.2 (.inl rfl)) hp

/-- A state is merged into that of its target, which is visited later if anything changes. -/
theorem mergeInto_spreads {flow : Flow} {target : Nat} {incoming : TypeState}
    {old new : Inference} (ht : target < old.analysis.states.size)
    (h : mergeInto flow target incoming old = .ok () new) : Spreads [target] old new := by
  rcases mergeInto_cases h with
    ⟨-, rfl⟩ | ⟨known, merged, resolver, hknown, hmerge, ⟨-, rfl⟩ | ⟨-, rfl⟩⟩
  · exact spreads_note ht incoming
  · -- nothing new has come in
    have hlive : old.analysis.isLive target := by
      unfold Analysis.isLive
      rw [hknown]
      rfl
    refine ⟨(Merge.advances_states known incoming).ok hmerge, rfl, fun position => ?_,
      fun _ hp => hp, fun _ hl _ => hl⟩
    rw [List.mem_singleton]
    refine ⟨.inl, ?_⟩
    rintro (hold | rfl)
    · exact hold
    · exact hlive
  · have ht' : target < ({ old with resolver } : Inference).analysis.states.size := ht
    have hspreads := spreads_note ht' merged
    exact ⟨(Merge.advances_states known incoming).ok hmerge, hspreads.size, hspreads.live,
      hspreads.pending, hspreads.visited⟩

/-- Merging states spreads to where they go. -/
theorem mergeAll_spreads {flow : Flow} {count : Nat} {merges : List (Nat × TypeState)}
    (hmerges : ∀ merge ∈ merges, merge.1 < count) {old new : Inference}
    (hold : old.analysis.states.size = count) (h : mergeAll flow merges old = .ok () new) :
    Spreads (merges.map Prod.fst) old new := by
  refine mergeAll_run (P := fun inference => inference.analysis.states.size = count)
    (R := fun merges => Spreads (merges.map Prod.fst)) .nil ?_ ?_ hold h
  · intro first second old middle new hfirst hsecond
    rw [List.map_append]
    exact hfirst.append hsecond
  · intro merge hmem old new hs hmerge
    have hspreads := mergeInto_spreads (hs ▸ hmerges merge hmem) hmerge
    exact ⟨hspreads, hspreads.size.trans hs⟩

/-- How far an inference has got: to operations that control comes to, and on from all those that
were visited. -/
structure Explores (body : Body) (resolver : Resolver) (inference : Inference) : Prop where
  later : resolver.Later inference.resolver
  size : inference.analysis.states.size = body.nodes.length
  start : ∀ target, Arrives body.nodes 0 target → inference.analysis.isLive target
  reached : ∀ position, inference.analysis.isLive position → body.Reached position
  goesOn : ∀ position, inference.analysis.isLive position → position ∉ inference.pending →
    body.GoesOn inference.analysis position

end Inference

namespace AnalysisProblem

open Inference

variable {problem : AnalysisProblem} {body : Body} {context : MethodContext} {position : Nat}
  {old new : Inference}

/-- The operations to which a visit gives states. -/
def goals (problem : AnalysisProblem) (position : Nat) (successors : List Nat) : List Nat :=
  (problem.handlersAt position).flatMap (fun handler => [handler.target] ++ [handler.target]) ++
    successors.flatMap fun successor => [successor]

/-- The states that a visit gives on are for the successors and for the handlers. -/
theorem targets_flows (problem : AnalysisProblem) (position : Nat) (successors : List Nat)
    (before after : TypeState) : (problem.flows position successors before after).map Prod.fst =
      problem.goals position successors := by
  simp [flows, goals, List.map_flatMap]

/-- A visit spreads to the successors of its operation and to the handlers around it. -/
theorem visit_spreads {operation : Operation Label}
    (hlive : old.analysis.isLive position)
    (ho : problem.flow.nodes[position]? = some (.operation operation))
    (hhandlers : ∀ handler ∈ problem.handlersAt position,
      handler.target < old.analysis.states.size)
    (hsuccessors : ∀ successors, problem.successors position operation = .ok successors →
      ∀ successor ∈ successors, successor < old.analysis.states.size)
    (h : problem.visit position old = .ok () new) :
    ∃ successors, problem.successors position operation = .ok successors ∧
      Spreads (problem.goals position successors) old new := by
  rcases visit_cases h with
    ⟨before, _, after, successors, -, ho', -, hs, hmerges⟩ | ⟨hnone, -⟩
  · cases ho.symm.trans ho'
    have hobserve : Spreads [] old
        { old with analysis := (old.analysis.observe before).observe after } :=
      ⟨.refl _, rfl, (Spreads.nil old).live, fun _ hp => hp, fun _ hl _ => hl⟩
    have hspreads :=
      mergeAll_spreads (forall_mem_flows hhandlers (hsuccessors _ hs)) hobserve.size hmerges
    rw [targets_flows] at hspreads
    exact ⟨successors, hs, hobserve.append hspreads⟩
  · obtain ⟨before, hbefore⟩ := Option.isSome_iff_exists.1 hlive
    exact absurd ho (hnone before operation hbefore)

/-- The operations to which a visit gives states are those to which control goes on. -/
theorem mem_goals (hp : problem.Poses body context) {operation : Operation Label}
    (ho : body.nodes[position]? = some (.operation operation)) {successors : List Nat}
    (hs : problem.successors position operation = .ok successors) (target : Nat) :
    target ∈ problem.goals position successors ↔
      (∃ handler ∈ body.handlers, handler.Guards body.nodes position target) ∨
        Body.Successor body.nodes position target := by
  rw [← hp.mem_successors ho hs]
  -- the handlers of the problem are the ones of the body, with their places
  have hhandlers : (∃ placed ∈ problem.handlersAt position, placed.target = target) ↔
      ∃ handler ∈ body.handlers, handler.Guards body.nodes position target := by
    constructor
    · rintro ⟨placed, hmem, htarget⟩
      obtain ⟨handler, hhandler, hguards, -⟩ := hp.mem_handlersAt.1 ⟨placed, hmem, htarget, rfl⟩
      exact ⟨handler, hhandler, hguards⟩
    · rintro ⟨handler, hhandler, hguards⟩
      obtain ⟨found, -, hplaces⟩ := forall₂_exists hp.handlers hhandler
      obtain ⟨placed, hmem, htarget, -⟩ :=
        hp.mem_handlersAt.2 ⟨handler, hhandler, hguards, hplaces.caught⟩
      exact ⟨placed, hmem, htarget⟩
  rw [← hhandlers]
  simp [goals, eq_comm]

/-- Control can go on to the operations to which a visit gave states. -/
theorem goesOn_of_spreads (hp : problem.Poses body context) {operation : Operation Label}
    (ho : body.nodes[position]? = some (.operation operation)) {successors : List Nat}
    (hs : problem.successors position operation = .ok successors)
    (hspreads : Spreads (problem.goals position successors) old new) :
    body.GoesOn new.analysis position := by
  have hgoals := mem_goals hp ho hs
  refine ⟨fun target ht => ?_, fun handler hh target ht => ?_, ?_, ?_⟩
  · exact (hspreads.live target).2 (.inr ((hgoals target).2 (.inr ht)))
  · exact (hspreads.live target).2 (.inr ((hgoals target).2 (.inl ⟨handler, hh, ht⟩)))
  · intro found label hfound hlabel
    obtain rfl := Node.operation.inj (Option.some.inj (ho.symm.trans hfound))
    rcases (hp.successors_arrive hs).1 label hlabel with ⟨place, target, harrives⟩
    exact ⟨target, place, harrives⟩
  · intro found hfound hfalls
    obtain rfl := Node.operation.inj (Option.some.inj (ho.symm.trans hfound))
    exact (hp.successors_arrive hs).2 hfalls

/-- What is pending is live. When it is visited, control can go on from there, and nothing that was
already said is lost. -/
theorem visit_explores_of_isLive (hp : problem.Poses body context) {resolver : Resolver}
    {pending : List Nat} (hpending : old.pending = position :: pending)
    (he : Explores body resolver old) (hlive : old.analysis.isLive position)
    (h : problem.visit position { old with pending } = .ok () new) :
    Explores body resolver new := by
  -- control comes to the operation that is visited, and so to all that it gives states to
  have hreached := he.reached position hlive
  obtain ⟨operation, ho⟩ := hreached.arrives.choose_spec.operation
  have hlt : ∀ target, body.Reached target → target < old.analysis.states.size := by
    intro target ht
    rw [he.size]
    exact ht.arrives.choose_spec.lt_length
  have hhandlers : ∀ handler ∈ problem.handlersAt position,
      handler.target < old.analysis.states.size := by
    intro placed hmem
    obtain ⟨handler, hhandler, hguards, -⟩ := hp.mem_handlersAt.1 ⟨placed, hmem, rfl, rfl⟩
    exact hlt _ (.caught hreached hhandler hguards)
  have hsuccessors : ∀ successors, problem.successors position operation = .ok successors →
      ∀ successor ∈ successors, successor < old.analysis.states.size :=
    fun successors hs successor hmem =>
      hlt _ (.next hreached ((hp.mem_successors ho hs).1 hmem))
  have hlive' : ({ old with pending } : Inference).analysis.isLive position := hlive
  obtain ⟨successors, hs, hspreads⟩ :=
    visit_spreads hlive' ((hp.nodes_eq position).trans ho) hhandlers hsuccessors h
  -- what was said stays, and what is new is one step further on
  refine ⟨he.later.trans hspreads.later, hspreads.size.trans he.size,
    fun target ht => hspreads.isLive (he.start target ht), fun target ht => ?_,
    fun target ht hnot => ?_⟩
  · rcases (hspreads.live target).1 ht with hold | hnew
    · exact he.reached target hold
    · rcases (mem_goals hp ho hs target).1 hnew with ⟨handler, hhandler, hguards⟩ | hsucc
      · exact .caught hreached hhandler hguards
      · exact .next hreached hsucc
  · -- an operation that is not pending was visited before, or just now
    by_cases heq : target = position
    · subst heq
      exact goesOn_of_spreads hp ho hs hspreads
    · have hold := hspreads.visited target ht hnot
      refine (he.goesOn target hold fun hmem => ?_).mono fun _ => hspreads.isLive
      rw [hpending] at hmem
      exact hnot (hspreads.pending target ((List.mem_cons.1 hmem).resolve_left heq))

/-- A visit keeps what holds all through an inference. -/
theorem visit_explores (hp : problem.Poses body context) {resolver : Resolver}
    {pending : List Nat} (hpending : old.pending = position :: pending)
    (he : Explores body resolver old)
    (h : problem.visit position { old with pending } = .ok () new) :
    Explores body resolver new := by
  by_cases hlive : old.analysis.isLive position
  · exact visit_explores_of_isLive hp hpending he hlive h
  · have hnone : ({ old with pending } : Inference).analysis.state? position = none :=
      Option.not_isSome_iff_eq_none.1 hlive
    cases visit_of_none hnone h
    refine ⟨he.later, he.size, he.start, he.reached, fun target ht hnot => ?_⟩
    refine he.goesOn target ht fun hmem => ?_
    rw [hpending] at hmem
    rcases List.mem_cons.1 hmem with rfl | hmem
    · exact hlive ht
    · exact hnot hmem

/-- Exploration is carried through all visits, and at the end nothing is pending. -/
theorem solve_explores (hp : problem.Poses body context) {resolver : Resolver} (visits : Nat)
    (he : Explores body resolver old) (h : problem.solve visits old = .ok () new) :
    Explores body resolver new ∧ new.pending = [] :=
  solve_keeps (visit_explores hp) he visits h

end AnalysisProblem

/-- An analysis has come to the operations that control comes to, and to no others. Wherever control
may go from there, there is an operation. -/
structure Analysis.Explored (analysis : Analysis) (body : Body) : Prop where
  flow : ∃ flow, body.flow = .ok flow
  handlers : ∀ handler ∈ body.handlers, ∃ start stop target : Nat,
    body.nodes[start]? = some (.label handler.start) ∧
      body.nodes[stop]? = some (.label handler.stop) ∧ handler.handler.LeadsTo body.nodes target
  isLive_iff : ∀ position, analysis.isLive position ↔ body.Reached position
  goesOn : ∀ position, analysis.isLive position → body.GoesOn analysis position

namespace Body

variable {body : Body} {entry : TypeState} {context : MethodContext} {analysis : Analysis}
  {resolver resolver' : Resolver}

/-- At first only the operation at which the body is entered has a state, and it is pending. -/
theorem explores_start {first : Nat} (harrives : Arrives body.nodes 0 first) (entry : TypeState)
    (resolver : Resolver) :
    Inference.Explores body resolver (.start body.nodes.length first entry resolver) := by
  -- only the first operation has a state
  have hlive : ∀ position,
      (Inference.start body.nodes.length first entry resolver).analysis.isLive position →
        position = first := by
    intro position hp
    obtain ⟨state, hstate⟩ := Option.isSome_iff_exists.1 hp
    exact (Inference.eq_of_state?_start harrives.lt_length hstate).1
  refine ⟨.refl _, Inference.size_start .., fun target ht => ?_, fun position hp => ?_,
    fun position hp hnot => ?_⟩
  · cases ht.unique harrives
    unfold Analysis.isLive
    rw [Inference.state?_start harrives.lt_length, if_pos rfl]
    rfl
  · cases hlive position hp
    exact .start harrives
  · cases hlive position hp
    exact absurd (Inference.mem_pending_start ..) hnot

/-- Type inference comes to the operations that control comes to. -/
theorem analyze_explored (h : body.analyze entry context resolver = .ok analysis resolver') :
    analysis.Explored body ∧ resolver.Later resolver' := by
  obtain ⟨problem, first, inference, hproblem, harrives, rfl, rfl, hsolve⟩ := analyze_solves h
  have hp := AnalysisProblem.ofBody_ok hproblem
  obtain ⟨he, hdone⟩ :=
    AnalysisProblem.solve_explores hp _ (explores_start harrives entry resolver) hsolve
  have hgoes : ∀ position, inference.analysis.isLive position →
      body.GoesOn inference.analysis position :=
    fun position hl => he.goesOn position hl (by simp [hdone])
  refine ⟨⟨AnalysisProblem.exists_flow hproblem, fun handler hhandler => ?_,
    fun position => ⟨he.reached position, fun hreached => ?_⟩, hgoes⟩, he.later⟩
  · rcases forall₂_exists hp.handlers hhandler with ⟨placed, -, hplaces⟩
    exact ⟨placed.start, placed.stop, placed.target, hplaces.start, hplaces.stop, hplaces.target⟩
  · -- where paths lead is live, and nothing else is
    induction hreached with
    | start ht => exact he.start _ ht
    | next _ hsucc ih => exact (hgoes _ ih).next _ hsucc
    | caught _ hhandler hguards ih => exact (hgoes _ ih).caught _ hhandler _ hguards

/-- Type inference looks up what handlers catch. -/
theorem analyze_catches (h : body.analyze entry context resolver = .ok analysis resolver') :
    ∀ handler ∈ body.handlers, ∃ type, handler.Catches context.constants type := by
  obtain ⟨problem, _, _, hproblem, _⟩ := analyze_solves h
  intro handler hhandler
  rcases forall₂_exists (AnalysisProblem.ofBody_ok hproblem).handlers hhandler with
    ⟨placed, _, hplaces⟩
  exact ⟨placed.caught, hplaces.caught⟩

end Body

end Preverification

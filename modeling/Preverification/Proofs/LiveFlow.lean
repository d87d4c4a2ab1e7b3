import Preverification.Proofs.ExceptionTables
import Preverification.Proofs.Exploration
import Preverification.Proofs.LiveCode

/-!
# The control flow that stays

Leaving out unreachable code does not change where control may go from the operations that stay.
They are those that type inference has come to, and control comes from them only to others of them.
The same handlers are around them, in the same order, and so are their entries in the exception
table.

* `Body.FlowsAlike`: control goes on in the same way, and the same handlers are around.
* `Analysis.Keeps.leadsAlike`: a label still leads to an operation that can be reached.
* `Body.removeUnreachable_prunes`: just the operations are kept that type inference has come to,
  with all that concerns them.
-/

namespace Preverification

/-- A label leads to the same operation among other nodes. Those come from certain positions. -/
def Label.LeadsAlike (nodes nodes' : List Node) (positions : List Nat) (label : Label) : Prop :=
  ∃ target place, positions[place]? = some target ∧ label.LeadsTo nodes target ∧
    label.LeadsTo nodes' place

/-- From an operation at a place of another body control goes on as it did from its position. -/
structure Body.FlowsAlike (body body' : Body) (positions : List Nat) (operation : Operation Label)
    (place position : Nat) : Prop where
  falls : operation.fallsThrough → ∃ target next, positions[next]? = some target ∧
    Arrives body.nodes (position + 1) target ∧ Arrives body'.nodes (place + 1) next
  jumps : ∀ label ∈ operation.targets, label.LeadsAlike body.nodes body'.nodes positions
  handlers : body'.handlers.filter (·.protects body'.nodes place) =
    body.handlers.filter (·.protects body.nodes position)
  caught : ∀ handler ∈ body.handlers.filter (·.protects body.nodes position),
    handler.handler.LeadsAlike body.nodes body'.nodes positions

/-- Another body has the operations that can be reached, with the control flow that they had. Its
nodes come from certain positions. -/
structure Analysis.Prunes (analysis : Analysis) (body body' : Body) (positions : List Nat) :
    Prop where
  nodes_eq :
    List.Forall₂ (fun position node => body.nodes[position]? = some node) positions body'.nodes
  ascending : positions.Pairwise (· < ·)
  operations : ∀ position operation, body.nodes[position]? = some (.operation operation) →
    (position ∈ positions ↔ analysis.isLive position)
  labels_eq : body'.nodes.filterMap Node.label? = body.nodes.filterMap Node.label?
  label_unique : UniqueLabels body'.nodes
  flows : ∀ place position operation, positions[place]? = some position →
    body.nodes[position]? = some (.operation operation) →
      body.FlowsAlike body' positions operation place position

/-! ### Labels -/

/-- A label leads to one operation. -/
theorem Label.LeadsTo.unique {nodes : List Node} {label : Label} {target target' : Nat}
    (h : label.LeadsTo nodes target) (hu : UniqueLabels nodes) (h' : label.LeadsTo nodes target') :
    target = target' := by
  rcases h with ⟨place, hplace, harrives⟩
  rcases h' with ⟨place', hplace', harrives'⟩
  cases hu.eq hplace hplace'
  exact harrives.unique harrives'

namespace Analysis

/-- All labels stay. -/
theorem labels_kept (analysis : Analysis) (nodes : List Node) :
    ((nodes.zip (analysis.kept nodes)).filterMap fun (node, stays) =>
      if stays then some node else none).filterMap Node.label? = nodes.filterMap Node.label? := by
  have hfirst : (nodes.zip (analysis.kept nodes)).map (·.1) = nodes :=
    List.map_fst_zip (Nat.le_of_eq (analysis.length_kept nodes).symm)
  conv_rhs => rw [← hfirst]
  rw [List.filterMap_filterMap, List.filterMap_map]
  refine List.filterMap_congr ?_
  rintro ⟨node, stays⟩ hmem
  cases stays with
  | true => rfl
  | false =>
    -- a node that goes is no label
    rcases List.mem_iff_getElem?.1 hmem with ⟨position, hposition⟩
    rcases List.getElem?_zip_eq_some.1 hposition with ⟨hnode, hgoes⟩
    cases node with
    | line _ | operation _ => rfl
    | label label =>
      have hkept := (analysis.kept_eq_true nodes position).2 (stays_of_label hnode)
      rw [hgoes] at hkept
      cases hkept

namespace Keeps

variable {analysis : Analysis} {nodes nodes' : List Node} {positions : List Nat}
  {place position : Nat}

theorem uniqueLabels (hk : analysis.Keeps nodes nodes' positions) (hu : UniqueLabels nodes) :
    UniqueLabels nodes' := by
  constructor
  intro label place place' hplace hplace'
  rcases hk.exists_position hplace with ⟨position, hposition, hnode⟩
  rcases hk.exists_position hplace' with ⟨position', hposition', hnode'⟩
  cases hu.eq hnode hnode'
  have hle := hk.le_iff hposition hposition'
  have hle' := hk.le_iff hposition' hposition
  omega

/-- A label stays, at a place whose position is where it was placed. -/
theorem exists_label (hk : analysis.Keeps nodes nodes' positions) {label : Label}
    (h : nodes[position]? = some (.label label)) :
    ∃ place : Nat, positions[place]? = some position ∧ nodes'[place]? = some (.label label) := by
  rcases hk.exists_place (stays_of_label h) with ⟨place, hplace⟩
  exact ⟨place, hplace, (hk.node hplace).trans h⟩

/-- A label still leads to an operation that can be reached. -/
theorem leadsAlike (hk : analysis.Keeps nodes nodes' positions) {label : Label} {target : Nat}
    (h : label.LeadsTo nodes target) (hlive : analysis.isLive target) :
    label.LeadsAlike nodes nodes' positions := by
  rcases h with ⟨position, hnode, harrives⟩
  rcases hk.exists_label hnode with ⟨place, hplace, hnode'⟩
  rcases hk.arrives_from hplace harrives hlive with ⟨next, hnext, harrives'⟩
  exact ⟨target, next, hnext, ⟨position, hnode, harrives⟩, place, hnode', harrives'⟩

/-- The range of a handler covers what stays of the nodes that it covered. -/
theorem protects_eq (hk : analysis.Keeps nodes nodes' positions) (hu : UniqueLabels nodes)
    {handler : Handler} {start stop : Nat} (hstart : nodes[start]? = some (.label handler.start))
    (hstop : nodes[stop]? = some (.label handler.stop))
    (hposition : positions[place]? = some position) :
    handler.protects nodes' place = handler.protects nodes position := by
  rcases hk.exists_label hstart with ⟨start', hstartPlace, hstart'⟩
  rcases hk.exists_label hstop with ⟨stop', hstopPlace, hstop'⟩
  rw [Bool.eq_iff_iff, (hk.uniqueLabels hu).protects_iff hstart' hstop',
    hu.protects_iff hstart hstop, hk.le_iff hstartPlace hposition]
  have hbefore := hk.le_iff hstopPlace hposition
  omega

end Keeps

end Analysis

/-! ### Handlers -/

namespace Body

variable {analysis : Analysis} {body body' : Body}

/-- Handlers stay whose code can be reached. -/
theorem exists_removeUnreachable {flow : Flow} (h : body.flow = .ok flow) (analysis : Analysis) :
    ∃ body', body.removeUnreachable analysis = .ok body' ∧
      body'.nodes.filterMap Node.label? = body.nodes.filterMap Node.label? ∧
      ∃ stays, body'.handlers = body.handlers.filter stays ∧ ∀ handler, stays handler = true ↔
        ∃ target, handler.handler.LeadsTo body.nodes target ∧ analysis.isLive target := by
  rcases except_bind_ok.1 h with ⟨positions, hpositions, -⟩
  have hremoved : ∃ body', body.removeUnreachable analysis = .ok body' := by
    unfold removeUnreachable
    rw [hpositions]
    exact ⟨_, rfl⟩
  rcases hremoved with ⟨body', hremoved⟩
  refine ⟨body', hremoved, ?_⟩
  unfold removeUnreachable at hremoved
  rw [hpositions] at hremoved
  cases hremoved
  refine ⟨analysis.labels_kept body.nodes, _, rfl, fun handler => ?_⟩
  -- a label that is nowhere counts as one that nothing live follows
  have hget : ∀ found : Option Bool, found.getD false = true ↔ found = some true := by
    intro found
    cases found <;> simp
  have hnext := fun position => analysis.nextIsLiveFrom_eq_true 0 body.nodes position
  simp only [Nat.zero_add] at hnext
  simp only [hget, Option.bind_eq_some_iff, labelPositions_ok hpositions, List.getElem?_toArray,
    Analysis.nextIsLive_eq, hnext]
  constructor
  · rintro ⟨position, hnode, target, harrives, hlive⟩
    exact ⟨target, ⟨position, hnode, harrives⟩, hlive⟩
  · rintro ⟨target, ⟨position, hnode, harrives⟩, hlive⟩
    exact ⟨position, hnode, target, harrives, hlive⟩

end Body

namespace Analysis.Explored

variable {analysis : Analysis} {body body' : Body} {positions : List Nat} {position : Nat}

theorem uniqueLabels (he : analysis.Explored body) : UniqueLabels body.nodes := by
  rcases he.flow with ⟨flow, hflow⟩
  exact ⟨(Body.flow_describes hflow).label_unique⟩

/-- The code of a handler around an operation that can be reached can be reached too. -/
theorem caught (he : analysis.Explored body) (hlive : analysis.isLive position) {handler : Handler}
    (hhandler : handler ∈ body.handlers) (hprotects : handler.protects body.nodes position = true) :
    ∃ target, handler.handler.LeadsTo body.nodes target ∧ analysis.isLive target := by
  rcases he.handlers handler hhandler with ⟨start, stop, target, hstart, hstop, hleads⟩
  have hrange := (he.uniqueLabels.protects_iff hstart hstop).1 hprotects
  exact ⟨target, hleads, (he.goesOn position hlive).caught handler hhandler target
    ⟨⟨start, stop, hstart, hstop, hrange⟩, hleads⟩⟩

/-- Control goes on from what stays as it did before. -/
theorem flowsAlike (he : analysis.Explored body)
    (hk : analysis.Keeps body.nodes body'.nodes positions) {stays : Handler → Bool}
    (hhandlers : body'.handlers = body.handlers.filter stays)
    (hstays : ∀ handler, stays handler = true ↔
      ∃ target, handler.handler.LeadsTo body.nodes target ∧ analysis.isLive target)
    {place : Nat} {operation : Operation Label} (hposition : positions[place]? = some position)
    (ho : body.nodes[position]? = some (.operation operation)) :
    body.FlowsAlike body' positions operation place position := by
  have hlive := hk.isLive hposition ho
  have hgoes := he.goesOn position hlive
  refine ⟨fun hfalls => ?_, fun label hlabel => ?_, ?_, fun handler hmem => ?_⟩
  · rcases hgoes.falls operation ho hfalls with ⟨target, harrives⟩
    have htarget := hgoes.next target (.fallThrough ho hfalls harrives)
    rcases hk.arrives_behind hposition harrives htarget with ⟨next, hnext, harrives'⟩
    exact ⟨target, next, hnext, harrives, harrives'⟩
  · rcases hgoes.jumps operation label ho hlabel with ⟨target, hleads⟩
    rcases hleads with ⟨labelled, hnode, harrives⟩
    have htarget := hgoes.next target (.jump ho hlabel hnode harrives)
    exact hk.leadsAlike ⟨labelled, hnode, harrives⟩ htarget
  · -- a handler that protects the operation stays
    rw [hhandlers, List.filter_filter]
    refine List.filter_congr fun handler hhandler => ?_
    rcases he.handlers handler hhandler with ⟨start, stop, _, hstart, hstop, _⟩
    rw [hk.protects_eq he.uniqueLabels hstart hstop hposition]
    cases hprotects : handler.protects body.nodes position with
    | false => rfl
    | true => exact (hstays handler).2 (he.caught hlive hhandler hprotects)
  · rcases List.mem_filter.1 hmem with ⟨hhandler, hprotects⟩
    rcases he.caught hlive hhandler hprotects with ⟨target, hleads, htarget⟩
    exact hk.leadsAlike hleads htarget

end Analysis.Explored

/-! ### The body and its exception table -/

/-- Around the operations that stay, an exception table has entries for the handlers that were
around them. They lead to the operations to which the handlers led. -/
def Layout.KeepsHandlers (layout : Layout) (body : Body) (positions : List Nat)
    (exceptions : List ExceptionEntry) : Prop :=
  ∀ (place position offset : Nat) (operation : Operation Label),
    positions[place]? = some position → body.nodes[position]? = some (.operation operation) →
      layout.offset? place = some offset →
        List.Forall₂ (fun handler entry => entry.caught = handler.caught ∧
            ∃ (target next : Nat), positions[next]? = some target ∧
              handler.handler.LeadsTo body.nodes target ∧
              layout.offset? next = some entry.handler.toNat)
          (body.handlers.filter (·.protects body.nodes position))
          (exceptions.filter (·.protects offset))

namespace Body

variable {analysis : Analysis} {body : Body}

/-- Leaving out what type inference has not come to keeps the operations that it has come to, and
all that control may do there. The exception table of the body has entries for all its handlers but
those that protect no operation. -/
theorem removeUnreachable_prunes {entry : TypeState} {context : MethodContext}
    {resolver resolver' : Resolver}
    (h : body.analyze entry context resolver = .ok analysis resolver') :
    ∃ body', body.removeUnreachable analysis = .ok body' ∧
      analysis.Prunes body body' (analysis.keptPositions body.nodes) ∧
      ∀ (final : Body) (layout : Layout) (extra : List Attribute) (code : Code)
        (pool pool' : Pool), final.nodes = body'.nodes → final.handlers = body'.handlers →
          final.layout = .ok layout → final.encode layout extra pool = .ok code pool' →
            layout.Tables final code.exceptions ∧
              layout.KeepsHandlers body (analysis.keptPositions body.nodes) code.exceptions := by
  have he := (analyze_explored h).1
  rcases he.flow with ⟨flow, hflow⟩
  rcases exists_removeUnreachable hflow analysis with
    ⟨body', hremoved, hlabels, stays, hhandlers, hstays⟩
  have hk := (removeUnreachable_ok hremoved).1
  have hflows := fun place position operation => @Analysis.Explored.flowsAlike analysis body body' _
    position he hk stays hhandlers hstays place operation
  have hoperations : ∀ position operation, body.nodes[position]? = some (.operation operation) →
      (position ∈ analysis.keptPositions body.nodes ↔ analysis.isLive position) := by
    intro position operation ho
    constructor
    · intro hmem
      rcases List.mem_iff_getElem?.1 hmem with ⟨place, hplace⟩
      exact hk.isLive hplace ho
    · exact fun hlive => (hk.mem position).2 (Analysis.stays_of_arrives ho (.self ho) hlive)
  refine ⟨body', hremoved, ⟨hk.nodes_eq, hk.ascending, hoperations, hlabels,
    hk.uniqueLabels he.uniqueLabels, hflows⟩, ?_⟩
  intro final layout extra code pool pool' hnodes hsame hlayout hencode
  have hplaces := layout_ok hlayout
  -- a handler that stays has live code, which stays too
  have hleads : ∀ handler ∈ final.handlers,
      ∃ target, handler.handler.LeadsTo final.nodes target := by
    intro handler hmem
    rw [hsame, hhandlers] at hmem
    rcases (hstays handler).1 (List.mem_filter.1 hmem).2 with ⟨target, hleads, hlive⟩
    rcases hk.leadsAlike hleads hlive with ⟨_, next, _, _, hleads'⟩
    rw [hnodes]
    exact ⟨next, hleads'⟩
  -- and so the exception table can be told from the handlers that are left
  have htables := hplaces.tables hleads hencode
  refine ⟨htables, ?_⟩
  intro place position offset operation hplace ho hoffset
  have hflow := hflows place position operation hplace ho
  have hnode : final.nodes[place]? = some (.operation operation) := by
    rw [hnodes, hk.node hplace, ho]
  have haround := htables.around place offset operation hnode hoffset
  rw [hsame, hnodes, hflow.handlers] at haround
  refine ((List.forall₂_and_left _ _).2 ⟨hflow.caught, haround⟩).imp ?_
  rintro handler found ⟨⟨target, next, hnext, hleads, hleads'⟩, henters⟩
  rcases henters.code with ⟨next', hleads'', hnextOffset⟩
  cases hleads'.unique (hk.uniqueLabels he.uniqueLabels) hleads''
  exact ⟨henters.caught, target, next, hnext, hleads, hnextOffset⟩

/-! ### Handlers around code that is jumped over -/

/-- Jumps over code that throws. One handler starts in that code, and another one is around it. A
third one is around the jump. -/
def skipsThrow : Body where
  maxStack := 1
  maxLocals := 0
  nodes :=
    [.label ⟨0⟩, .operation (.branch (.goto ⟨2⟩)), .label ⟨1⟩, .operation (.step .nullConst),
      .operation (.branch .throwException), .label ⟨2⟩, .operation (.branch .returnVoid),
      .label ⟨3⟩, .operation (.branch .throwException)]
  handlers := [⟨⟨1⟩, ⟨2⟩, ⟨1⟩, none⟩, ⟨⟨1⟩, ⟨2⟩, ⟨3⟩, none⟩, ⟨⟨0⟩, ⟨1⟩, ⟨3⟩, none⟩]
  localVariables := []
  variableTypes := []
  attributes := []
  issued := 4

/-- The method of which `skipsThrow` is the body. -/
def skipsThrowContext : MethodContext := ⟨∅, .object, none⟩

/-- The control flow of `skipsThrow`. -/
def skipsThrowFlow : Flow where
  nodes := skipsThrow.nodes.toArray
  positions :=
    ((∅ : Std.HashMap Label Nat).insert ⟨0⟩ 0).insert ⟨1⟩ 2 |>.insert ⟨2⟩ 5 |>.insert ⟨3⟩ 7
  next := #[some 1, some 1, some 3, some 3, some 4, some 6, some 6, some 8, some 8, none]
  numbers := #[0, 0, 1, 1, 2, 3, 3, 4, 4, 5]

/-- The problem that `skipsThrow` poses. -/
def skipsThrowProblem : AnalysisProblem :=
  ⟨skipsThrowFlow, [⟨2, 5, 3, .object (.object .throwable)⟩, ⟨2, 5, 8, .object (.object .throwable)⟩,
    ⟨0, 2, 8, .object (.object .throwable)⟩], skipsThrowContext⟩

/-- What type inference finds out about `skipsThrow`. -/
def skipsThrowAnalysis : Analysis where
  states :=
    #[none, some ⟨[], ∅⟩, none, none, none, none, some ⟨[], ∅⟩, none,
      some ⟨[], .ofValues [.object (.object .throwable)]⟩]
  maxStack := 1
  maxLocals := 0

/-- What stays of `skipsThrow`. -/
def skipsThrowPruned : Body :=
  { skipsThrow with
    nodes :=
      [.label ⟨0⟩, .operation (.branch (.goto ⟨2⟩)), .label ⟨1⟩, .label ⟨2⟩,
        .operation (.branch .returnVoid), .label ⟨3⟩, .operation (.branch .throwException)]
    handlers := [⟨⟨1⟩, ⟨2⟩, ⟨3⟩, none⟩, ⟨⟨0⟩, ⟨1⟩, ⟨3⟩, none⟩] }

theorem skipsThrow_positions : skipsThrow.labelPositions = .ok skipsThrowFlow.positions := by
  simp [skipsThrow, skipsThrowFlow, labelPositions, placeLabels, Node.label?]

theorem skipsThrow_flow : skipsThrow.flow = .ok skipsThrowFlow := by
  unfold flow
  rw [skipsThrow_positions]
  rfl

theorem skipsThrow_problem :
    AnalysisProblem.ofBody skipsThrow skipsThrowContext = .ok skipsThrowProblem := by
  have hposition := (flow_describes skipsThrow_flow).position_ok
  have hfirst : skipsThrowFlow.position ⟨0⟩ = .ok 0 := (hposition _ _).2 rfl
  have hskipped : skipsThrowFlow.position ⟨1⟩ = .ok 2 := (hposition _ _).2 rfl
  have hbehind : skipsThrowFlow.position ⟨2⟩ = .ok 5 := (hposition _ _).2 rfl
  have hcode : skipsThrowFlow.position ⟨3⟩ = .ok 7 := (hposition _ _).2 rfl
  unfold AnalysisProblem.ofBody
  rw [skipsThrow_flow]
  simp only [skipsThrow, Except.mapError, bind, Except.bind, AnalysisProblem.placeHandler,
    hfirst, hskipped, hbehind, hcode, List.mapM_cons, List.mapM_nil, Flow.operationAt]
  rfl

/-- The jump, its target and the code of the handler are visited. -/
theorem skipsThrow_solve (resolver : Resolver) (visits : Nat) :
    skipsThrowProblem.solve (visits + 3)
      (.start 9 1 ⟨[], ∅⟩ resolver) = .ok () ⟨skipsThrowAnalysis, [], resolver⟩ := by
  have hbehind : skipsThrowFlow.position ⟨2⟩ = .ok 5 :=
    ((flow_describes skipsThrow_flow).position_ok _ _).2 rfl
  have hsuccessors : skipsThrowProblem.successors 1 (.branch (.goto ⟨2⟩)) = .ok [6] := by
    simp only [AnalysisProblem.successors, Operation.targets, Branch.targets, List.mapM_cons,
      List.mapM_nil, AnalysisProblem.jumpTarget, skipsThrowProblem, Flow.operationAt, hbehind]
    rfl
  have hjump : skipsThrowProblem.visit 1
      ⟨⟨#[none, some ⟨[], ∅⟩, none, none, none, none, none, none, none], 0, 0⟩, [], resolver⟩ =
        .ok () ⟨{ skipsThrowAnalysis with maxStack := 0 }, [6, 8], resolver⟩ :=
    AnalysisProblem.visit_of_merges (.branch (.goto ⟨2⟩)) ⟨[], ∅⟩ ⟨[], ∅⟩ [6] rfl rfl rfl
      hsuccessors rfl
  have hreturn : skipsThrowProblem.visit 6
      ⟨{ skipsThrowAnalysis with maxStack := 0 }, [8], resolver⟩ =
        .ok () ⟨{ skipsThrowAnalysis with maxStack := 0 }, [8], resolver⟩ :=
    AnalysisProblem.visit_of_merges (.branch .returnVoid) ⟨[], ∅⟩ ⟨[], ∅⟩ [] rfl rfl rfl rfl rfl
  have hthrow : skipsThrowProblem.visit 8
      ⟨{ skipsThrowAnalysis with maxStack := 0 }, [], resolver⟩ =
        .ok () ⟨skipsThrowAnalysis, [], resolver⟩ :=
    AnalysisProblem.visit_of_merges (.branch .throwException)
      ⟨[], .ofValues [.object (.object .throwable)]⟩ ⟨[], ∅⟩ [] rfl rfl rfl rfl rfl
  exact AnalysisProblem.solve_of_visit _ rfl hjump (AnalysisProblem.solve_of_visit _ rfl hreturn
    (AnalysisProblem.solve_of_visit _ rfl hthrow (AnalysisProblem.solve_done rfl visits)))

theorem skipsThrow_analyze (resolver : Resolver) :
    skipsThrow.analyze ⟨[], ∅⟩ skipsThrowContext resolver = .ok skipsThrowAnalysis resolver := by
  refine analyze_of_solve ⟨skipsThrowAnalysis, [], resolver⟩ skipsThrow_problem rfl
    fun visits hle => ?_
  obtain ⟨more, rfl⟩ : ∃ more, visits = more + 3 :=
    Nat.exists_eq_add_of_le' (Nat.le_trans (show 3 ≤ skipsThrow.nodes.length by decide) hle)
  exact skipsThrow_solve resolver more

/-- What is jumped over is left out, with the handler whose code is there. -/
theorem skipsThrow_removeUnreachable :
    skipsThrow.removeUnreachable skipsThrowAnalysis = .ok skipsThrowPruned := by
  unfold removeUnreachable
  rw [skipsThrow_positions]
  simp [skipsThrow, skipsThrowFlow, skipsThrowAnalysis, skipsThrowPruned, bind, Except.bind, pure,
    Except.pure, Analysis.kept, Analysis.nextIsLive, Analysis.isLive, Analysis.state?,
    Node.isOperation, Node.label?, Std.HashMap.getElem?_insert]

/-- The layout of what stays of `skipsThrow`. -/
def skipsThrowLayout : Layout where
  nodes := skipsThrowPruned.nodes.zip
    [(0, false), (0, false), (3, false), (3, false), (3, false), (4, false), (4, false)]
  codeLength := 5
  labels :=
    ((∅ : Std.HashMap Label Nat).insert ⟨0⟩ 0).insert ⟨1⟩ 3 |>.insert ⟨2⟩ 3 |>.insert ⟨3⟩ 4

theorem skipsThrow_layout : skipsThrowPruned.layout = .ok skipsThrowLayout := by
  refine layout_of_short [0, 0, 3, 3, 3, 4, 4] (checkLabels_of_placed (by decide) (by decide)) rfl
    rfl rfl ?_ ?_ (by decide)
  · simp [skipsThrowPruned, skipsThrowLayout, Layout.needsLong, Layout.jumpTarget?, Layout.isShort,
      Branch.isShort, Std.HashMap.getD_insert]
  · decide

/-- The range of one of the other handlers has become empty, so there is a single entry. -/
theorem skipsThrow_encode (pool : Pool) : ∃ code,
    skipsThrowPruned.encode skipsThrowLayout [] pool = .ok code pool ∧
      code.exceptions = [⟨0, 3, 4, none⟩] := by
  have hplaces := layout_ok skipsThrow_layout
  have hexceptions : skipsThrowPruned.handlers.filterMap skipsThrowLayout.guarded? =
      [⟨0, 3, 4, none⟩] := by
    simp [skipsThrowPruned, Layout.guarded?, Layout.offsetOf, skipsThrowLayout,
      Std.HashMap.getD_insert]
  refine ⟨⟨1, 0, skipsThrowLayout.nodes.flatMap skipsThrowLayout.form, [⟨0, 3, 4, none⟩], []⟩, ?_, rfl⟩
  unfold encode
  rw [hplaces.bytecode_eq, hplaces.exceptionEntries, hexceptions]
  rfl

/-- What stays of `skipsThrow` are the jump, and the operations to which it and its handler lead.
One of the handlers around the code that was jumped over has no code any more, and the other one
protects nothing. -/
theorem skipsThrow_prunes :
    skipsThrow.removeUnreachable skipsThrowAnalysis = .ok skipsThrowPruned ∧
      skipsThrowAnalysis.Prunes skipsThrow skipsThrowPruned [0, 1, 2, 5, 6, 7, 8] ∧
      ∃ code, skipsThrowPruned.encode skipsThrowLayout [] ∅ = .ok code ∅ ∧
        code.exceptions = [⟨0, 3, 4, none⟩] ∧
        skipsThrowLayout.Tables skipsThrowPruned code.exceptions ∧
        skipsThrowLayout.KeepsHandlers skipsThrow [0, 1, 2, 5, 6, 7, 8] code.exceptions := by
  rcases removeUnreachable_prunes (skipsThrow_analyze (.ofClassPath ∅)) with
    ⟨body', hremoved, hprunes, htables⟩
  obtain rfl := Except.ok.inj (skipsThrow_removeUnreachable.symm.trans hremoved)
  rcases skipsThrow_encode ∅ with ⟨code, hencode, hexceptions⟩
  exact ⟨hremoved, hprunes, code, hencode, hexceptions,
    htables skipsThrowPruned skipsThrowLayout [] code ∅ ∅ rfl rfl skipsThrow_layout hencode⟩

end Body

end Preverification

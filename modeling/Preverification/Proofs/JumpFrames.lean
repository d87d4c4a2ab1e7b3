import Preverification.Proofs.ExactLayouts
import Preverification.Proofs.WrittenFrames

/-!
# Frames where nothing jumps

Where frames are needed is found out before unreachable code is left out, and so a branch that
cannot be reached, or a handler around code that is left out, still asks for a frame. Main
statement: which of the operations that stay have a frame, and to which of them the emitted code
jumps.

* `Emission.Run.exists_frame_iff`: there are frames for the operations to which any branch or
  handler leads.
* `Emission.Run.live_of_jumpsTo`: where the code jumps to, control jumped from an operation that can
  be reached.
* `Emission.emit_framesJumps`: the exact condition under which each frame is jumped to.
* `Emission.returnsFirst_spuriousFrame`: a frame that is there because of a jump that is left out.
-/

namespace Preverification

/-- Emitted code jumps to an offset: a branch in it has the offset as a target, or code that handles
exceptions starts there. -/
inductive Layout.JumpsTo (layout : Layout) (code : Code) (offset : Nat) : Prop where
  | branch {place start : Nat} {b : Branch Label} {long : Bool} {label : Label} :
      layout.nodes[place]? = some (.operation (.branch b), start, long) → label ∈ b.targets →
      layout.offsetOf label = offset → JumpsTo layout code offset
  | handler {entry : ExceptionEntry} : entry ∈ code.exceptions → entry.handler.toNat = offset →
      JumpsTo layout code offset

/-- Control jumps to an operation from one that can be reached: by a branch, or to the code of a
handler around it. -/
inductive Analysis.JumpsTo (analysis : Analysis) (body : Body) (target : Nat) : Prop where
  | branch {position : Nat} {operation : Operation Label} {label : Label} :
      analysis.isLive position → body.nodes[position]? = some (.operation operation) →
      label ∈ operation.targets → label.LeadsTo body.nodes target → JumpsTo analysis body target
  | handler {position : Nat} {handler : Handler} : analysis.isLive position →
      handler ∈ body.handlers → handler.Guards body.nodes position target →
      JumpsTo analysis body target

/-- Operations stand at different offsets. -/
theorem Layout.Places.place_unique {layout : Layout} {body : Body} (h : layout.Places body)
    {place place' offset : Nat} {operation operation' : Operation Label}
    (hnode : body.nodes[place]? = some (.operation operation))
    (hnode' : body.nodes[place']? = some (.operation operation'))
    (ho : layout.offset? place = some offset) (ho' : layout.offset? place' = some offset) :
    place = place' := by
  rcases Nat.lt_trichotomy place place' with hlt | heq | hlt
  · exact absurd ((h.lt_iff (Nat.le_of_lt hlt) ho ho').2 ⟨place, operation, Nat.le_refl _, hlt, hnode⟩)
      (Nat.lt_irrefl offset)
  · exact heq
  · exact absurd ((h.lt_iff (Nat.le_of_lt hlt) ho' ho).2
      ⟨place', operation', Nat.le_refl _, hlt, hnode'⟩) (Nat.lt_irrefl offset)

/-- Where frames stand in emitted code, and to which operations the code jumps. The nodes of the
layout are those that an analysis leaves of a body. -/
structure Layout.FramesJumps (layout : Layout) (code : Code) (analysis : Analysis) (body : Body)
    (frames : List FullFrame) : Prop where
  stands : ∀ frame ∈ frames, ∃ (place : Nat) (operation : Operation Label) (long : Bool),
    layout.nodes[place]? = some (.operation operation, frame.offset, long)
  -- there is a frame where a branch or a handler leads, whether control gets there or not
  framed_iff : ∀ {place position offset : Nat},
    (analysis.keptPositions body.nodes)[place]? = some position → analysis.isLive position →
      layout.offset? place = some offset →
        ((∃ frame ∈ frames, frame.offset = offset) ↔ body.IsJumpTarget position)
  -- the code jumps where one leads from an operation that can be reached
  jumpsTo_iff : ∀ {place position offset : Nat},
    (analysis.keptPositions body.nodes)[place]? = some position → analysis.isLive position →
      layout.offset? place = some offset →
        (layout.JumpsTo code offset ↔ analysis.JumpsTo body position)
  -- so the code jumps to all frames exactly if no operation is led to in vain
  all_jumpedTo_iff : (∀ frame ∈ frames, layout.JumpsTo code frame.offset) ↔
    ∀ position, analysis.isLive position → body.IsJumpTarget position →
      analysis.JumpsTo body position

/-- Each node has an entry in the layout. -/
theorem Layout.Places.exists_entry {layout : Layout} {body : Body} (h : layout.Places body)
    {place : Nat} {node : Node} (hnode : body.nodes[place]? = some node) :
    ∃ offset long, layout.nodes[place]? = some (node, offset, long) := by
  rw [← h.nodes_eq, List.getElem?_map, Option.map_eq_some_iff] at hnode
  rcases hnode with ⟨⟨_, offset, long⟩, hentry, rfl⟩
  exact ⟨offset, long, hentry⟩

namespace Emission.Run

variable {analysis : Analysis} {entry : TypeState} {format : FrameFormat}
  {draft draft' : MethodDraft} {code : Code} {place position offset : Nat}

theorem renders (run : Run analysis entry format draft draft' code) :
    run.layout.Renders code.bytecode := by
  have hrenders := run.places.renders
  rwa [← run.places.encode_bytecode run.code_ok] at hrenders

theorem tables (run : Run analysis entry format draft draft' code)
    (he : analysis.Explored draft.body) : run.layout.Tables draft'.body code.exceptions :=
  run.places.tables (run.handlers_lead he) run.code_ok

/-- An operation that can be reached has a place. -/
theorem exists_place (run : Run analysis entry format draft draft' code)
    (he : analysis.Explored draft.body) (hlive : analysis.isLive position) :
    ∃ (place : Nat) (operation : Operation Label),
      (analysis.keptPositions draft.body.nodes)[place]? = some position ∧
        draft.body.nodes[position]? = some (.operation operation) ∧
          draft'.body.nodes[place]? = some (.operation operation) := by
  rcases he.exists_operation hlive with ⟨operation, ho⟩
  rcases run.keeps.exists_place (Analysis.stays_of_arrives ho (.self ho) hlive) with ⟨place, hplace⟩
  exact ⟨place, operation, hplace, ho, (run.keeps.node hplace).trans ho⟩

/-- Control that jumps to an operation from one that can be reached goes on doing so in the code. -/
theorem jumpsTo_of_live (run : Run analysis entry format draft draft' code)
    (he : analysis.Explored draft.body) (hlive : analysis.isLive position)
    (hplace : (analysis.keptPositions draft.body.nodes)[place]? = some position)
    (hoffset : run.layout.offset? place = some offset) (h : analysis.JumpsTo draft.body position) :
    run.layout.JumpsTo code offset := by
  cases h with
  | @branch before operation label hbefore ho hlabel hleads =>
    -- the branch is kept, and its label leads to the place of the operation
    rcases run.exists_place he hbefore with ⟨start, operation, _, ho', hnode⟩
    cases ho.symm.trans ho'
    cases operation with
    | step i => cases hlabel
    | branch b =>
      rcases run.places.exists_entry hnode with ⟨_, _, hentry⟩
      have hreferenced := Body.mem_referencedLabels (List.mem_of_getElem? hnode) hlabel
      exact .branch hentry hlabel
        (run.places.offsetOf_of_leadsTo hreferenced (run.keeps.leadsTo hleads hlive hplace) hoffset)
  | @handler before handler hbefore hhandler hguards =>
    -- the handler is kept for its code, and written for the operation that it still protects
    rcases run.exists_place he hbefore with ⟨start, operation, hstart, _, hnode⟩
    have hguards' := run.keeps.guards hguards hstart hlive hplace
    rcases hguards'.range with ⟨low, high, hlow, hhigh, hrange⟩
    have hprotects : handler.protectsOperation draft'.body.nodes = true :=
      Handler.protectsOperation_iff.2 ⟨start, operation, hnode,
        (run.places.uniqueLabels.protects_iff hlow hhigh).2 hrange⟩
    have hstays := (run.mem_handlers he handler).2 ⟨hhandler, position, hguards.code, hlive⟩
    rcases forall₂_exists (run.tables he).entries (List.mem_filter.2 ⟨hstays, hprotects⟩) with
      ⟨exception, hexception, henters⟩
    rcases henters.code with ⟨target, htarget, hstarts⟩
    cases Label.LeadsTo.unique hguards'.code run.places.uniqueLabels htarget
    exact .handler hexception (Option.some.inj (hstarts.symm.trans hoffset))

/-- A label of live code that leads to the offset of an operation leads to that operation. -/
theorem leadsTo_of_offset (run : Run analysis entry format draft draft' code)
    (he : analysis.Explored draft.body) (hlive : analysis.isLive position)
    (hplace : (analysis.keptPositions draft.body.nodes)[place]? = some position)
    (hoffset : run.layout.offset? place = some offset) {label : Label} {target next : Nat}
    (hleads : label.LeadsTo draft.body.nodes target) (htarget : analysis.isLive target)
    (hleads' : label.LeadsTo draft'.body.nodes next)
    (hnext : run.layout.offset? next = some offset) :
    label.LeadsTo draft.body.nodes position := by
  rcases he.exists_operation hlive with ⟨operation, ho⟩
  have hnode : draft'.body.nodes[place]? = some (.operation operation) :=
    (run.keeps.node hplace).trans ho
  rcases hleads' with ⟨labelled, hlabelled, harrives⟩
  rcases harrives.operation with ⟨_, hnode'⟩
  cases run.places.place_unique hnode hnode' hoffset hnext
  rcases run.keeps.leadsAlike hleads htarget with ⟨target', next', hnext', hleads', hleads''⟩
  cases Label.LeadsTo.unique hleads'' run.places.uniqueLabels ⟨labelled, hlabelled, harrives⟩
  cases hplace.symm.trans hnext'
  exact hleads'

/-- Where the code jumps to, control jumped from an operation that can be reached. -/
theorem live_of_jumpsTo (run : Run analysis entry format draft draft' code)
    (he : analysis.Explored draft.body) (hlive : analysis.isLive position)
    (hplace : (analysis.keptPositions draft.body.nodes)[place]? = some position)
    (hoffset : run.layout.offset? place = some offset) (h : run.layout.JumpsTo code offset) :
    analysis.JumpsTo draft.body position := by
  cases h with
  | @branch start before b long label hentry hlabel hjump =>
    have hbranch : draft'.body.nodes[start]? = some (.operation (.branch b)) := by
      rw [← run.places.nodes_eq, List.getElem?_map, hentry]
      rfl
    -- it was analysed, so it goes on to an operation that is kept, and that stands at the offset
    rcases run.keeps.exists_position hbranch with ⟨position', hposition', ho'⟩
    have hlive' := run.keeps.isLive hposition' ho'
    have hgoes := he.goesOn position' hlive'
    rcases hgoes.jumps (.branch b) label ho' hlabel with ⟨target, labelled, hlabelled, harrives⟩
    have htarget := hgoes.next target (.jump ho' hlabel hlabelled harrives)
    have hleads : label.LeadsTo draft.body.nodes target := ⟨labelled, hlabelled, harrives⟩
    rcases run.keeps.leadsAlike hleads htarget with ⟨_, next, _, _, hleads'⟩
    rcases hleads' with ⟨labelled', hlabelled', harrives'⟩
    rcases harrives'.operation with ⟨_, hnode'⟩
    rcases run.places.exists_offset hnode' with ⟨offset', hnext⟩
    have hreferenced := Body.mem_referencedLabels (List.mem_of_getElem? hbranch) hlabel
    have hsame := run.places.offsetOf_of_leadsTo hreferenced ⟨labelled', hlabelled', harrives'⟩ hnext
    rw [hjump] at hsame
    cases hsame
    exact .branch hlive' ho' hlabel
      (run.leadsTo_of_offset he hlive hplace hoffset hleads htarget
        ⟨labelled', hlabelled', harrives'⟩ hnext)
  | @handler exception hexception hstarts =>
    rcases forall₂_exists (run.tables he).entries.flip hexception with ⟨handler, hmem, henters⟩
    rcases List.mem_filter.1 hmem with ⟨hhandler', hprotects⟩
    rcases Handler.protectsOperation_iff.1 hprotects with ⟨start, operation', hstart, hrange⟩
    -- some operation that it protects is kept, so it was reached
    rcases run.keeps.exists_position hstart with ⟨position', hposition', ho'⟩
    rcases (run.mem_handlers he handler).1 hhandler' with ⟨hhandler, target, hleads, htarget⟩
    rcases he.handlers handler hhandler with ⟨low, high, _, hlow, hhigh, _⟩
    rw [run.keeps.protects_eq he.uniqueLabels hlow hhigh hposition'] at hrange
    rcases henters.code with ⟨next, hleads', hnext⟩
    rw [hstarts] at hnext
    -- the same handler protected it before
    exact .handler (run.keeps.isLive hposition' ho') hhandler
      ⟨⟨low, high, hlow, hhigh, (he.uniqueLabels.protects_iff hlow hhigh).1 hrange⟩,
        run.leadsTo_of_offset he hlive hplace hoffset hleads htarget hleads' hnext⟩

/-- There are frames for the operations to which any branch or handler leads. -/
theorem exists_frame_iff (run : Run analysis entry format draft draft' code)
    (he : analysis.Explored draft.body) {frames : List FullFrame}
    (hframes : List.Forall₂ (fun found frame => frame.IsOf run.layout found.1 found.2) run.states
      frames) (hlive : analysis.isLive position)
    (hplace : (analysis.keptPositions draft.body.nodes)[place]? = some position)
    (hoffset : run.layout.offset? place = some offset) :
    (∃ frame ∈ frames, frame.offset = offset) ↔ draft.body.IsJumpTarget position := by
  constructor
  · rintro ⟨frame, hframe, rfl⟩
    rcases forall₂_exists hframes.flip hframe with ⟨found, hfound, hof⟩
    rcases run.mem_states.1 hfound with ⟨place', position', hplace', hjump, hoffset', hstate⟩
    rcases run.exists_operation he hplace' hstate with ⟨_, _, hnode'⟩
    rcases he.exists_operation hlive with ⟨_, ho⟩
    rw [← hof.offset_eq] at hoffset'
    cases run.places.place_unique ((run.keeps.node hplace).trans ho) hnode' hoffset hoffset'
    cases hplace.symm.trans hplace'
    exact hjump
  · intro hjump
    rcases Option.isSome_iff_exists.1 hlive with ⟨state, hstate⟩
    have hfound : (offset, state) ∈ run.states :=
      run.mem_states.2 ⟨place, position, hplace, hjump, hoffset, hstate⟩
    rcases forall₂_exists hframes hfound with ⟨frame, hframe, hof⟩
    exact ⟨frame, hframe, hof.offset_eq⟩

/-- The frames that are written stand at the operations that have one, and the jumps of the code are
those of live code. -/
theorem framesJumps (run : Run analysis entry format draft draft' code)
    (he : analysis.Explored draft.body) {frames : List FullFrame}
    (hframes : List.Forall₂ (fun found frame => frame.IsOf run.layout found.1 found.2) run.states
      frames) : run.layout.FramesJumps code analysis draft.body frames where
  -- a frame is that of a state, and stands where its operation is
  stands frame hframe := by
    rcases forall₂_exists hframes.flip hframe with ⟨found, hfound, hof⟩
    rcases run.mem_states.1 hfound with ⟨place, _, hplace, _, hoffset, hstate⟩
    rcases run.exists_operation he hplace hstate with ⟨operation, _, hnode⟩
    rcases run.places.exists_entry hnode with ⟨offset, long, hentry⟩
    unfold Layout.offset? at hoffset
    rw [hentry, ← hof.offset_eq] at hoffset
    cases hoffset
    exact ⟨place, operation, long, hentry⟩
  framed_iff hplace hlive hoffset := run.exists_frame_iff he hframes hlive hplace hoffset
  jumpsTo_iff hplace hlive hoffset :=
    ⟨run.live_of_jumpsTo he hlive hplace hoffset, run.jumpsTo_of_live he hlive hplace hoffset⟩
  -- frames and jumps are told by the same operations
  all_jumpedTo_iff := by
    constructor
    · intro hall position hlive hjump
      rcases run.exists_place he hlive with ⟨place, _, hplace, _, hnode⟩
      rcases run.places.exists_offset hnode with ⟨offset, hoffset⟩
      rcases (run.exists_frame_iff he hframes hlive hplace hoffset).2 hjump with
        ⟨frame, hframe, rfl⟩
      exact run.live_of_jumpsTo he hlive hplace hoffset (hall frame hframe)
    · intro hall frame hframe
      rcases forall₂_exists hframes.flip hframe with ⟨found, hfound, hof⟩
      rcases run.mem_states.1 hfound with ⟨place, position, hplace, hjump, hoffset, hstate⟩
      have hlive : analysis.isLive position := by
        unfold Analysis.isLive
        rw [hstate]
        rfl
      rw [hof.offset_eq]
      exact run.jumpsTo_of_live he hlive hplace hoffset (hall position hlive hjump)

end Emission.Run

namespace Emission

/-- **Which frames are jumped to.** When a body is analysed and then emitted, every frame stands at
an operation in the code. The operations that have frames are those to which any branch or handler
of the body leads. Those to which the code jumps are the ones that are led to from operations that
can be reached. -/
theorem emit_framesJumps {analysis : Analysis} {entry : TypeState} {format : FrameFormat}
    {draft draft' : MethodDraft} {code : Code} {context : MethodContext}
    {resolver resolver' : Resolver} (hvalid : draft.constants.Valid)
    (hanalyze : draft.body.analyze entry context resolver = .ok analysis resolver')
    (hemit : emit analysis entry format draft = .ok code draft') :
    ∃ layout frames, draft'.body.layout = .ok layout ∧ layout.Renders code.bytecode ∧
      code.ShowsFrames draft'.constants format layout entry frames ∧
        layout.FramesJumps code analysis draft.body frames := by
  rcases emit_showsFrames hvalid hanalyze hemit with ⟨run, frames, hshows, hframes⟩
  exact ⟨run.layout, frames, run.layout_ok, run.renders, hshows,
    run.framesJumps (Body.analyze_explored hanalyze).1 hframes⟩

/-- The frame behind a jump is the one it leads to. -/
theorem readsBehindJump_framesJumps : ∃ code draft',
    (∅ : Pool).Valid ∧
      readsBehindJump.analyze (readsBehindJumpEntry .long .top) readsBehindJumpContext
        (.ofClassPath ∅) = .ok (readsBehindJumpAnalysis .long .top) (.ofClassPath ∅) ∧
      emit (readsBehindJumpAnalysis .long .top) (readsBehindJumpEntry .long .top) .stackMap
        ⟨readsBehindJump, ∅⟩ = .ok code draft' ∧
      ∃ layout frames, draft'.body.layout = .ok layout ∧ layout.Renders code.bytecode ∧
        code.ShowsFrames draft'.constants .stackMap layout (readsBehindJumpEntry .long .top) frames ∧
          layout.FramesJumps code (readsBehindJumpAnalysis .long .top) readsBehindJump frames := by
  have hanalyze := readsBehindJump_analyze .long .top (.ofClassPath ∅)
  rcases @readsBehindJump_emit .long .top _ rfl with ⟨code, pool, hemit⟩
  exact ⟨code, ⟨readsBehindJump, pool⟩, Pool.valid_empty, hanalyze, hemit,
    emit_framesJumps Pool.valid_empty hanalyze hemit⟩

/-! ### A jump that is left out -/

/-- Returns at once. Behind the end there is a jump to the start. -/
def returnsFirst : Body where
  maxStack := 0
  maxLocals := 0
  nodes := [.label ⟨0⟩, .operation (.branch .returnVoid), .operation (.branch (.goto ⟨0⟩))]
  handlers := []
  localVariables := []
  variableTypes := []
  attributes := []
  issued := 1

/-- The method of which `returnsFirst` is the body. -/
def returnsFirstContext : MethodContext := ⟨∅, .object, none⟩

/-- The control flow of `returnsFirst`. -/
def returnsFirstFlow : Flow where
  nodes := returnsFirst.nodes.toArray
  positions := (∅ : Std.HashMap Label Nat).insert ⟨0⟩ 0
  next := #[some 1, some 1, some 2, none]
  numbers := #[0, 0, 1, 2]

/-- What type inference finds out about `returnsFirst`. -/
def returnsFirstAnalysis : Analysis where
  states := #[none, some ⟨[], ∅⟩, none]
  maxStack := 0
  maxLocals := 0

/-- What stays of `returnsFirst`. -/
def returnsFirstPruned : Body :=
  { returnsFirst with nodes := [.label ⟨0⟩, .operation (.branch .returnVoid)] }

/-- The layout of what stays of `returnsFirst`. -/
def returnsFirstLayout : Layout where
  nodes := returnsFirstPruned.nodes.zip [(0, false), (0, false)]
  codeLength := 1
  labels := (∅ : Std.HashMap Label Nat).insert ⟨0⟩ 0

theorem returnsFirst_positions : returnsFirst.labelPositions = .ok returnsFirstFlow.positions := by
  simp [returnsFirst, returnsFirstFlow, Body.labelPositions, Body.placeLabels, Node.label?]

theorem returnsFirst_flow : returnsFirst.flow = .ok returnsFirstFlow := by
  unfold Body.flow
  rw [returnsFirst_positions]
  rfl

/-- The jump is never visited. -/
theorem returnsFirst_analyze (resolver : Resolver) :
    returnsFirst.analyze ⟨[], ∅⟩ returnsFirstContext resolver =
      .ok returnsFirstAnalysis resolver := by
  have hproblem : AnalysisProblem.ofBody returnsFirst returnsFirstContext =
      .ok ⟨returnsFirstFlow, [], returnsFirstContext⟩ := by
    unfold AnalysisProblem.ofBody
    rw [returnsFirst_flow]
    rfl
  have hreturn : AnalysisProblem.visit ⟨returnsFirstFlow, [], returnsFirstContext⟩ 1
      ⟨returnsFirstAnalysis, [], resolver⟩ = .ok () ⟨returnsFirstAnalysis, [], resolver⟩ :=
    AnalysisProblem.visit_of_merges (.branch .returnVoid) ⟨[], ∅⟩ ⟨[], ∅⟩ [] rfl rfl rfl rfl rfl
  refine Body.analyze_of_solve ⟨returnsFirstAnalysis, [], resolver⟩ hproblem rfl
    fun visits hle => ?_
  obtain ⟨more, rfl⟩ : ∃ more, visits = more + 1 :=
    Nat.exists_eq_add_of_le' (Nat.le_trans (show 1 ≤ returnsFirst.nodes.length by decide) hle)
  exact AnalysisProblem.solve_of_visit _ rfl hreturn (AnalysisProblem.solve_done rfl more)

/-- The label in front of the return is a target of frames, though the jump to it is dead. -/
theorem returnsFirst_frameTargets : returnsFirst.frameTargets = .ok [1] := by
  have hlabels : returnsFirst.jumpLabels = [⟨0⟩] := rfl
  have hlabel : returnsFirstFlow.position ⟨0⟩ = .ok 0 :=
    ((Body.flow_describes returnsFirst_flow).position_ok _ _).2 rfl
  have htarget : returnsFirstFlow.operationAt ⟨0⟩ = .ok (some 1) := by
    unfold Flow.operationAt
    rw [hlabel]
    rfl
  unfold Body.frameTargets
  rw [returnsFirst_flow]
  simp only [bind, Except.bind, hlabels, List.mapM_cons, List.mapM_nil, htarget, pure, Except.pure]
  simp [returnsFirst, List.range_succ]

/-- The jump is left out, and the label stays. -/
theorem returnsFirst_removeUnreachable :
    returnsFirst.removeUnreachable returnsFirstAnalysis = .ok returnsFirstPruned := by
  unfold Body.removeUnreachable
  rw [returnsFirst_positions]
  rfl

theorem returnsFirst_layout : returnsFirstPruned.layout = .ok returnsFirstLayout :=
  Body.layout_of_short [0, 0] (Body.checkLabels_of_placed (by decide) (by decide)) rfl rfl rfl
    (by decide) (by decide) (by decide)

theorem returnsFirst_encode (attributes : List Attribute) (pool : Pool) :
    returnsFirstPruned.encode returnsFirstLayout attributes pool =
      .ok ⟨0, 0, [177], [], attributes⟩ pool := rfl

/-- There is one frame at the start of the code, which is a single return. -/
theorem returnsFirst_emit : ∃ attributes pool,
    emit returnsFirstAnalysis ⟨[], ∅⟩ .stackMap ⟨returnsFirst, ∅⟩ =
      .ok ⟨0, 0, [177], [], attributes⟩ ⟨returnsFirstPruned, pool⟩ := by
  have hwrite : (frameStates returnsFirstAnalysis [1] [0, 1] returnsFirstLayout).mapM (fun found =>
      placeFrame returnsFirstLayout found.1 found.2) = pure [⟨0, ⟨∅, ∅⟩⟩] := by
    have hplaced : returnsFirstAnalysis.placedFrames [1] [0, 1] =
        [(1, (⟨[], ∅⟩ : TypeState).toFrame)] := rfl
    rw [mapM_frameStates [1] [0, 1] returnsFirstLayout rfl, hplaced]
    rfl
  rcases exists_addFrames returnsFirstLayout (⟨[], ∅⟩ : TypeState).toFrame ⟨0, ⟨∅, ∅⟩⟩ [] with
    ⟨attributes, pool, hadd⟩
  have hraised : raiseSlots returnsFirstAnalysis ⟨returnsFirstPruned, ∅⟩ =
      .ok () ⟨returnsFirstPruned, ∅⟩ := rfl
  have hdropped : dropFrames ⟨returnsFirstPruned, ∅⟩ = .ok () ⟨returnsFirstPruned, ∅⟩ := rfl
  exact ⟨attributes, pool, emit_of_parts returnsFirst_frameTargets returnsFirst_removeUnreachable
    hraised hdropped returnsFirst_layout (congrFun hwrite ∅) hadd
    (returnsFirst_encode attributes pool)⟩

/-- The jump is left out, and nothing else jumps to the frame that is there because of it. -/
theorem returnsFirst_spuriousFrame : ∃ code draft',
    returnsFirst.analyze ⟨[], ∅⟩ returnsFirstContext (.ofClassPath ∅) =
        .ok returnsFirstAnalysis (.ofClassPath ∅) ∧
      emit returnsFirstAnalysis ⟨[], ∅⟩ .stackMap ⟨returnsFirst, ∅⟩ = .ok code draft' ∧
      code.bytecode = [177] ∧ code.exceptions = [] ∧
      ∃ layout frames, draft'.body.layout = .ok layout ∧ layout.Renders code.bytecode ∧
        code.ShowsFrames draft'.constants .stackMap layout ⟨[], ∅⟩ frames ∧
          ∃ frame ∈ frames, frame.offset = 0 ∧ ¬ layout.JumpsTo code frame.offset := by
  have hanalyze := returnsFirst_analyze (.ofClassPath ∅)
  rcases returnsFirst_emit with ⟨attributes, pool, hemit⟩
  rcases emit_showsFrames Pool.valid_empty hanalyze hemit with ⟨run, frames, hshows, hframes⟩
  have hsame := Except.ok.inj (run.layout_ok.symm.trans returnsFirst_layout)
  have hjumps := run.framesJumps (Body.analyze_explored hanalyze).1 hframes
  have hoffset : run.layout.offset? 1 = some 0 := by
    rw [hsame]
    rfl
  have htarget : returnsFirst.IsJumpTarget 1 :=
    (Body.mem_frameTargets returnsFirst_frameTargets 1).1 (List.mem_singleton.2 rfl)
  rcases (@Layout.FramesJumps.framed_iff _ _ _ _ _ hjumps 1 1 0 rfl rfl hoffset).2 htarget with
    ⟨frame, hframe, hstart⟩
  refine ⟨_, _, hanalyze, hemit, rfl, rfl, run.layout, frames, run.layout_ok, run.renders,
    hshows, frame, hframe, hstart, fun hjump => ?_⟩
  rw [hstart] at hjump
  -- only the return can be reached, and it does not lead anywhere
  cases (@Layout.FramesJumps.jumpsTo_iff _ _ _ _ _ hjumps 1 1 0 rfl rfl hoffset).1 hjump with
  | @branch position operation label hlive ho hlabel hleads =>
    rcases position with _ | _ | _ | position
    · cases hlive
    · cases ho
      cases hlabel
    · cases hlive
    · cases ho
  | handler _ hmem _ => cases hmem

end Emission

end Preverification

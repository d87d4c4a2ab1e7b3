import Preverification.Proofs.WrittenFrames

/-!
# Declared numbers of slots are enough

The numbers of slots that emitted code declares were counted while types were inferred, from states
that were not final yet. They are enough for the final ones all the same: in front of each operation
that is kept, behind it, and in the frames. Emission fails where they cannot be declared.

* `Body.analyze_statesFit`: the numbers that an analysis counted are enough.
* `Emission.emit_declaresEnough`: emitted code declares enough slots, or emission fails with the
  error that says so.
* `Emission.storesAt_unplaced`: emission fails because of a jump to nowhere, and not because of too
  many slots.
-/

namespace Preverification

/-- Some code declares enough slots for a body that was analysed from an entry state on, of which
the operations that can be reached were emitted with some frames. -/
structure Code.DeclaresEnough (code : Code) (context : MethodContext) (analysis : Analysis)
    (entry : TypeState) (body emitted : Body) (frames : List FullFrame) : Prop where
  raised : body.maxStack ≤ code.maxStack ∧ body.maxLocals ≤ code.maxLocals
  entry : entry.FitsIn code.maxStack.toNat code.maxLocals.toNat
  -- in front of each operation and behind it
  operations : ∀ (place : Nat) (operation : Operation Label),
    emitted.nodes[place]? = some (.operation operation) →
    ∃ position before after, (analysis.keptPositions body.nodes)[place]? = some position ∧
      analysis.state? position = some before ∧
      Body.typesBehind context body.nodes position before = .ok after ∧
      before.FitsIn code.maxStack.toNat code.maxLocals.toNat ∧
      after.FitsIn code.maxStack.toNat code.maxLocals.toNat
  frames : ∀ frame ∈ frames,
    SlotsFit code.maxStack.toNat code.maxLocals.toNat frame.locals frame.stack
  -- local variables that are read or written end in time
  accessed : ∀ operation slot count, .operation operation ∈ emitted.nodes →
    operation.local? = some (slot, count) → slot.toNat + count ≤ code.maxLocals.toNat

/-- Some numbers of slots are enough for a body that was analysed from an entry state on: for that
state, and for what is known in front of each operation that can be reached and behind it. -/
structure Analysis.StatesFit (analysis : Analysis) (context : MethodContext) (entry : TypeState)
    (body : Body) (maxStack maxLocals : Nat) : Prop where
  entry : entry.FitsIn maxStack maxLocals
  states : ∀ position before, analysis.state? position = some before →
    before.FitsIn maxStack maxLocals ∧ ∃ after,
      Body.typesBehind context body.nodes position before = .ok after ∧
        after.FitsIn maxStack maxLocals

/-- The numbers that an analysis counted are enough. -/
theorem Body.analyze_statesFit {analysis : Analysis} {context : MethodContext} {entry : TypeState}
    {body : Body} {resolver resolver' : Resolver} {maxStack maxLocals : Nat}
    (h : body.analyze entry context resolver = .ok analysis resolver')
    (hstack : analysis.maxStack ≤ maxStack) (hlocals : analysis.maxLocals ≤ maxLocals) :
    analysis.StatesFit context entry body maxStack maxLocals := by
  rcases analyze_measures h with ⟨hentry, hmeasures⟩
  refine ⟨hentry.fitsIn hstack hlocals, fun position before hbefore => ?_⟩
  rcases hmeasures position before hbefore with ⟨hm, after, hafter, hm'⟩
  exact ⟨hm.fitsIn hstack hlocals, after, hafter, hm'.fitsIn hstack hlocals⟩

/-- Without an error, the numbers that were counted are not too high for a class file. -/
theorem Analysis.le_of_overflow? {analysis : Analysis} {body : Body}
    (h : analysis.overflow? body = none) :
    analysis.maxStack ≤ 65535 ∧ analysis.maxLocals ≤ 65535 := by
  unfold overflow? at h
  split at h
  · cases h
  · split at h
    · cases h
    · omega

/-- Code declares the slots of its body. -/
theorem Layout.Writes.slots_eq {layout : Layout} {body : Body} {extra : List Attribute} {code : Code}
    {pool : Pool} (h : layout.Writes body extra code pool) :
    code.maxStack = body.maxStack ∧ code.maxLocals = body.maxLocals := by
  rcases h with ⟨_, _, _, _, _, _, rfl⟩
  exact ⟨rfl, rfl⟩

namespace Emission

variable {analysis : Analysis} {entry : TypeState} {format : FrameFormat}
  {draft draft' : MethodDraft} {code : Code} {context : MethodContext} {resolver resolver' : Resolver}

/-- The declared numbers of slots are at least those that were counted, and those of the body. -/
theorem Run.slots_le (run : Run analysis entry format draft draft' code)
    (hvalid : draft.constants.Valid) (hemit : emit analysis entry format draft = .ok code draft') :
    analysis.maxStack ≤ code.maxStack.toNat ∧ analysis.maxLocals ≤ code.maxLocals.toNat ∧
      draft.body.maxStack ≤ code.maxStack ∧ draft.body.maxLocals ≤ code.maxLocals := by
  have hslots := emit_slots hemit
  have hcode := (run.writes hvalid).slots_eq
  rw [hcode.1, hcode.2, UInt16.le_iff_toNat_le, UInt16.le_iff_toNat_le, hslots.1, hslots.2]
  exact ⟨Nat.le_max_left _ _, Nat.le_max_left _ _, Nat.le_max_right _ _, Nat.le_max_right _ _⟩

/-- Emitted code declares enough slots. -/
theorem Run.declaresEnough (run : Run analysis entry format draft draft' code)
    (hvalid : draft.constants.Valid)
    (hanalyze : draft.body.analyze entry context resolver = .ok analysis resolver')
    (hemit : emit analysis entry format draft = .ok code draft') {frames : List FullFrame}
    (hframes : List.Forall₂ (fun found frame => frame.IsOf run.layout found.1 found.2) run.states
      frames) :
    code.DeclaresEnough context analysis entry draft.body draft'.body frames := by
  rcases run.slots_le hvalid hemit with ⟨hstack, hlocals, hraised⟩
  have hfit := Body.analyze_statesFit hanalyze hstack hlocals
  have he := (Body.analyze_explored hanalyze).1
  have hoperation : ∀ (place : Nat) (operation : Operation Label),
      draft'.body.nodes[place]? = some (.operation operation) →
      ∃ position before after, (analysis.keptPositions draft.body.nodes)[place]? = some position ∧
        draft.body.nodes[position]? = some (.operation operation) ∧
        analysis.state? position = some before ∧
        Body.typesBehind context draft.body.nodes position before = .ok after ∧
        before.FitsIn code.maxStack.toNat code.maxLocals.toNat ∧
        after.FitsIn code.maxStack.toNat code.maxLocals.toNat := by
    intro place operation hnode
    rcases run.keeps.exists_position hnode with ⟨position, hposition, ho⟩
    rcases Option.isSome_iff_exists.1 (run.keeps.isLive hposition ho) with ⟨before, hbefore⟩
    rcases hfit.states position before hbefore with ⟨hfits, after, hafter, hfits'⟩
    exact ⟨position, before, after, hposition, ho, hbefore, hafter, hfits, hfits'⟩
  refine ⟨hraised, hfit.entry, fun place operation hnode => ?_,
    fun frame hframe => ?_, fun operation slot count hmem hlocal => ?_⟩
  · rcases hoperation place operation hnode with
      ⟨position, before, after, hposition, _, hbefore, hafter, hfits⟩
    exact ⟨position, before, after, hposition, hbefore, hafter, hfits⟩
  · -- a frame is that of a state in front of an operation
    rcases forall₂_exists hframes.flip hframe with ⟨found, hfound, hof⟩
    rcases run.mem_states.1 hfound with ⟨_, position, _, _, _, hstate⟩
    exact (hfit.states position _ hstate).1.toFrame.serialized hof.locals hof.stack
  · -- the types in a local variable fit in front of a read and behind a write
    rcases List.mem_iff_getElem?.1 hmem with ⟨place, hnode⟩
    rcases hoperation place operation hnode with
      ⟨position, before, after, _, ho, _, hafter, hfits, hfits'⟩
    have hruns : Transfer.operation context (Body.labelBefore draft.body.nodes position) operation
        before = .ok () after := by
      unfold Body.typesBehind at hafter
      rw [ho] at hafter
      dsimp only at hafter
      split at hafter
      · rename_i hrun
        cases hafter
        exact hrun
      · cases hafter
    exact Transfer.local_le hlocal hruns hfits hfits'

/-- **Emitted code declares enough slots.** When a body is analysed from an entry state on and then
emitted, the numbers of slots in the code are not less than those of the body. They are enough for
the entry state, for the states in front of the operations that are kept and behind them, for the
frames in the code, and for all local variables that are read or written. If numbers are needed that
are too high for a class file, as they are if those of a class file are not enough for all states,
emission fails for that reason, unless a branch names a label that is not placed, which is noticed
first. -/
theorem emit_declaresEnough (hvalid : draft.constants.Valid)
    (hanalyze : draft.body.analyze entry context resolver = .ok analysis resolver') :
    (∀ code draft', emit analysis entry format draft = .ok code draft' →
      ∃ layout frames, draft'.body.layout = .ok layout ∧
        code.ShowsFrames draft'.constants format layout entry frames ∧
        code.DeclaresEnough context analysis entry draft.body draft'.body frames) ∧
    (analysis.overflow? draft.body = none →
      analysis.StatesFit context entry draft.body 65535 65535) ∧
    ∀ error, analysis.overflow? draft.body = some error →
      (draft.body.JumpsPlaced → ∃ draft', emit analysis entry format draft = .error error draft') ∧
      (¬ draft.body.JumpsPlaced → ∃ label, .label label ∉ draft.body.nodes ∧
        emit analysis entry format draft = .error (.unplacedLabel label) draft) := by
  refine ⟨fun code draft' hemit => ?_, fun hnone => ?_, fun error herror =>
    emit_overflow (Body.analyze_explored hanalyze).1 herror⟩
  · rcases emit_showsFrames hvalid hanalyze hemit with ⟨run, frames, hshows, hframes⟩
    exact ⟨run.layout, frames, run.layout_ok, hshows,
      run.declaresEnough hvalid hanalyze hemit hframes⟩
  · have hle := Analysis.le_of_overflow? hnone
    exact Body.analyze_statesFit hanalyze hle.1 hle.2

/-- The slots of a local variable behind a jump are declared. -/
theorem readsBehindJump_declaresEnough : ∃ code draft',
    (∅ : Pool).Valid ∧
      readsBehindJump.analyze (readsBehindJumpEntry .long .top) readsBehindJumpContext
        (.ofClassPath ∅) = .ok (readsBehindJumpAnalysis .long .top) (.ofClassPath ∅) ∧
      emit (readsBehindJumpAnalysis .long .top) (readsBehindJumpEntry .long .top) .stackMap
        ⟨readsBehindJump, ∅⟩ = .ok code draft' ∧
      ∃ layout frames, draft'.body.layout = .ok layout ∧
        code.ShowsFrames draft'.constants .stackMap layout (readsBehindJumpEntry .long .top) frames ∧
        code.DeclaresEnough readsBehindJumpContext (readsBehindJumpAnalysis .long .top)
          (readsBehindJumpEntry .long .top) readsBehindJump draft'.body frames := by
  have hanalyze := readsBehindJump_analyze .long .top (.ofClassPath ∅)
  rcases @readsBehindJump_emit .long .top _ rfl with ⟨code, pool, hemit⟩
  exact ⟨code, ⟨readsBehindJump, pool⟩, Pool.valid_empty, hanalyze, hemit,
    (emit_declaresEnough Pool.valid_empty hanalyze).1 _ _ hemit⟩

/-! ### A jump to nowhere -/

/-- Stores a number in a local variable. Behind the end there is a jump to a label that is not
placed. -/
def storesAt (slot : UInt16) : Body where
  maxStack := 0
  maxLocals := 0
  nodes :=
    [.operation (.step (.pushByte 0)), .operation (.step (.store .int slot)),
      .operation (.branch .returnVoid), .operation (.branch (.goto ⟨0⟩))]
  handlers := []
  localVariables := []
  variableTypes := []
  attributes := []
  issued := 1

/-- The method of which `storesAt` is the body. -/
def storesAtContext : MethodContext := ⟨∅, .object, none⟩

/-- What is known behind the store. -/
def storesAtState (slot : UInt16) : TypeState := ⟨TypeState.setLocal slot.toNat .integer [], ∅⟩

/-- What type inference finds out about `storesAt`. -/
def storesAtAnalysis (slot : UInt16) : Analysis where
  states := #[some ⟨[], ∅⟩, some ⟨[], .ofValues [.integer]⟩, some (storesAtState slot), none]
  maxStack := 1
  maxLocals := slot.toNat + 1

/-- The control flow of `storesAt`. -/
def storesAtFlow (slot : UInt16) : Flow where
  nodes := (storesAt slot).nodes.toArray
  positions := ∅
  next := #[some 0, some 1, some 2, some 3, none]
  numbers := #[0, 1, 2, 3, 4]

/-- One slot is used, and all those in front of it have to be declared. -/
theorem usedLocals_storesAt (slot : UInt16) : (storesAtState slot).usedLocals = slot.toNat + 1 := by
  -- one local is known
  have hlocal : ∀ other, localAt (storesAtState slot).locals other =
      if other = slot.toNat then .integer else .top := by
    intro other
    have hwidth : width (.integer : InferredType) = 1 := rfl
    have hnothing : width (.top : InferredType) = 1 := rfl
    unfold storesAtState
    rw [localAt_setLocal, hwidth, localAt_nil, hnothing]
    simp
  -- nothing is known above it, and something at it
  refine Nat.le_antisymm (TypeState.usedLocals_le_iff.2 fun other hne => ?_) ?_
  · rw [hlocal] at hne ⊢
    split at hne
    · rename_i heq
      rw [if_pos heq, heq]
      exact Nat.le_refl _
    · exact absurd rfl hne
  · have hused := TypeState.usedLocals_le_iff.1 (Nat.le_refl (storesAtState slot).usedLocals)
      slot.toNat
    rw [hlocal, if_pos rfl] at hused
    exact hused nofun

/-- Type inference of `storesAt` never visits the jump. -/
theorem storesAt_solve (slot : UInt16) (resolver : Resolver) (visits : Nat) :
    AnalysisProblem.solve ⟨storesAtFlow slot, [], storesAtContext⟩ (visits + 3)
      (.start 4 0 ⟨[], ∅⟩ resolver) = .ok () ⟨storesAtAnalysis slot, [], resolver⟩ := by
  -- only the maxima grow with the state that is seen
  have hobserve : ∀ analysis : Analysis, analysis.observe (storesAtState slot) =
      { analysis with
        maxStack := max analysis.maxStack 0
        maxLocals := max analysis.maxLocals (slot.toNat + 1) } := by
    intro analysis
    unfold Analysis.observe
    rw [usedLocals_storesAt]
    rfl
  -- one visit for each of the three operations
  have hconst : AnalysisProblem.visit ⟨storesAtFlow slot, [], storesAtContext⟩ 0
      ⟨⟨#[some ⟨[], ∅⟩, none, none, none], 0, 0⟩, [], resolver⟩ =
        .ok () ⟨⟨#[some ⟨[], ∅⟩, some ⟨[], .ofValues [.integer]⟩, none, none], 1, 0⟩, [1],
          resolver⟩ :=
    AnalysisProblem.visit_of_merges (.step (.pushByte 0)) ⟨[], ∅⟩ ⟨[], .ofValues [.integer]⟩ [1]
      rfl rfl rfl rfl rfl
  have hstore : AnalysisProblem.visit ⟨storesAtFlow slot, [], storesAtContext⟩ 1
      ⟨⟨#[some ⟨[], ∅⟩, some ⟨[], .ofValues [.integer]⟩, none, none], 1, 0⟩, [], resolver⟩ =
        .ok () ⟨storesAtAnalysis slot, [2], resolver⟩ :=
    AnalysisProblem.visit_of_merges (.step (.store .int slot)) ⟨[], .ofValues [.integer]⟩
      (storesAtState slot) [2] rfl rfl rfl rfl (by
        rw [hobserve]
        rfl)
  have hreturn : AnalysisProblem.visit ⟨storesAtFlow slot, [], storesAtContext⟩ 2
      ⟨storesAtAnalysis slot, [], resolver⟩ = .ok () ⟨storesAtAnalysis slot, [], resolver⟩ :=
    AnalysisProblem.visit_of_merges (.branch .returnVoid) (storesAtState slot) (storesAtState slot)
      [] rfl rfl rfl rfl (by
        -- what is seen at the end has been seen before
        have hsame : ((storesAtAnalysis slot).observe (storesAtState slot)).observe
            (storesAtState slot) = storesAtAnalysis slot := by
          rw [hobserve, hobserve]
          simp [storesAtAnalysis]
        dsimp only
        rw [hsame]
        rfl)
  exact AnalysisProblem.solve_of_visit _ rfl hconst (AnalysisProblem.solve_of_visit _ rfl hstore
    (AnalysisProblem.solve_of_visit _ rfl hreturn (AnalysisProblem.solve_done rfl visits)))

theorem storesAt_analyze (slot : UInt16) (resolver : Resolver) :
    (storesAt slot).analyze ⟨[], ∅⟩ storesAtContext resolver =
      .ok (storesAtAnalysis slot) resolver := by
  have hproblem : AnalysisProblem.ofBody (storesAt slot) storesAtContext =
      .ok ⟨storesAtFlow slot, [], storesAtContext⟩ := rfl
  refine Body.analyze_of_solve ⟨storesAtAnalysis slot, [], resolver⟩ hproblem rfl fun visits hle => ?_
  obtain ⟨more, rfl⟩ : ∃ more, visits = more + 3 :=
    Nat.exists_eq_add_of_le' (Nat.le_trans (show 3 ≤ 4 by decide) hle)
  exact storesAt_solve slot resolver more

/-- The label of a jump that is never visited is looked up all the same. -/
theorem storesAt_frameTargets (slot : UInt16) :
    (storesAt slot).frameTargets = .error (.unplacedLabel ⟨0⟩) := by
  have hflow : (storesAt slot).flow = .ok (storesAtFlow slot) := rfl
  have hlabels : (storesAt slot).jumpLabels = [⟨0⟩] := rfl
  have hnowhere : (storesAtFlow slot).operationAt ⟨0⟩ = .error (.unplacedLabel ⟨0⟩) := by
    simp [Flow.operationAt, Flow.position, storesAtFlow, bind, Except.bind, throw, throwThe,
      MonadExceptOf.throw]
  unfold Body.frameTargets
  rw [hflow]
  simp only [bind, Except.bind, hlabels, List.mapM_cons, hnowhere]

/-- The last local variable needs one slot more than a class file can declare, but emission fails
because of the jump. -/
theorem storesAt_unplaced :
    (storesAt 65535).analyze ⟨[], ∅⟩ storesAtContext (.ofClassPath ∅) =
        .ok (storesAtAnalysis 65535) (.ofClassPath ∅) ∧
      (storesAtAnalysis 65535).maxLocals = 65536 ∧
      emit (storesAtAnalysis 65535) ⟨[], ∅⟩ .stackMap ⟨storesAt 65535, ∅⟩ =
        .error (.unplacedLabel ⟨0⟩) ⟨storesAt 65535, ∅⟩ :=
  ⟨storesAt_analyze 65535 _, rfl, emit_of_frameTargets_error (storesAt_frameTargets _)⟩

end Emission

end Preverification

import Preverification.Proofs.ClimbingTypes
import Preverification.Proofs.Frames
import Preverification.Proofs.LocalSteps
import Preverification.Proofs.RecordedStates
import Preverification.Proofs.StackOffsets

/-!
# Values of two slots stay whole in local variables

In the local variables, a value of two slots is followed by a slot of its own, which cannot be used.
That holds when a method is entered, and operations, handlers and merges keep it, so that it holds
wherever types are inferred. Where it holds, nothing is lost in a frame: its entries stand for the
local variables, up to unusable ones at the end. The values of an operand stack start at the sums of
the widths of those below them.

* `WholeLocals`: a value of two slots is followed by a slot of its own.
* `wholeLocals_operation`, `wholeLocals_merge`: operations and merges keep it.
* `TypeState.toFrame_eq_iff`: what a frame tells of local variables.
* `wholeLocals_throughout`: values of two slots stay whole, and the values of a stack stay where
  they are.
-/

namespace Preverification

/-- Values of two slots are followed by a slot that cannot be used. -/
def WholeLocals (locals : List InferredType) : Prop :=
  ∀ (slot : Nat) (type : InferredType), locals[slot]? = some type → width type = 2 →
    locals[slot + 1]? = some .top

/-- Lists of local variables differ only in unusable ones at their ends. -/
def SameUpToTops (first second : List InferredType) : Prop :=
  ∃ (common : List InferredType) (missing missing' : Nat),
    first = common ++ List.replicate missing .top ∧ second = common ++ List.replicate missing' .top

/-- Of lists that differ only at their ends, one goes on behind the other. -/
theorem SameUpToTops.append_or {first second : List InferredType} (h : SameUpToTops first second) :
    (∃ count, second = first ++ List.replicate count .top) ∨
      ∃ count, first = second ++ List.replicate count .top := by
  obtain ⟨common, missing, missing', rfl, rfl⟩ := h
  rcases Nat.le_total missing missing' with hle | hle
  · obtain ⟨count, rfl⟩ := Nat.exists_eq_add_of_le hle
    exact .inl ⟨count, by rw [List.append_assoc, List.replicate_append_replicate]⟩
  · obtain ⟨count, rfl⟩ := Nat.exists_eq_add_of_le hle
    exact .inr ⟨count, by rw [List.append_assoc, List.replicate_append_replicate]⟩

/-! ## Slots -/

section Slots

variable {locals : List InferredType}

/-- Whole values are values that are paired with a slot that exists. -/
theorem wholeLocals_iff : WholeLocals locals ↔ Paired locals ∧
    ∀ slot, width (localAt locals slot) = 2 → slot + 1 < locals.length := by
  -- behind the list, every local is narrow
  have hlt : ∀ slot, width (localAt locals slot) = 2 → slot < locals.length := by
    intro slot hwidth
    by_contra hle
    rw [localAt_of_le (by omega)] at hwidth
    cases hwidth
  constructor
  · intro h
    have hnext : ∀ slot, width (localAt locals slot) = 2 → locals[slot + 1]? = some .top :=
      fun slot hwidth => h slot _ (localAt_of_lt (hlt slot hwidth)) hwidth
    refine ⟨fun slot hwidth => ?_, fun slot hwidth => ?_⟩
    · rw [localAt, List.getD_eq_getElem?_getD, hnext slot hwidth]
      rfl
    · exact (List.getElem?_eq_some_iff.1 (hnext slot hwidth)).1
  · rintro ⟨hpaired, hroom⟩ slot type htype hwidth
    have hat : localAt locals slot = type := by
      rw [localAt, List.getD_eq_getElem?_getD, htype]
      rfl
    rw [← hat] at hwidth
    rw [localAt_of_lt (hroom slot hwidth), hpaired slot hwidth]

theorem wholeLocals_nil : WholeLocals [] := by
  rintro slot type ⟨⟩

/-- The first value is whole if it takes up one slot, or the next slot is unusable. -/
theorem wholeLocals_cons {type : InferredType} : WholeLocals (type :: locals) ↔
    (width type = 2 → locals.head? = some .top) ∧ WholeLocals locals := by
  constructor
  · intro h
    refine ⟨fun hwidth => ?_, fun slot => h (slot + 1)⟩
    rw [List.head?_eq_getElem?]
    exact h 0 type rfl hwidth
  · rintro ⟨hhead, hrest⟩ slot found hfound hwidth
    cases slot with
    | zero =>
      cases hfound
      rw [List.head?_eq_getElem?] at hhead
      exact hhead hwidth
    | succ slot => exact hrest slot found hfound hwidth

/-- Whole values stay so when others follow them. -/
theorem WholeLocals.append {others : List InferredType} (h : WholeLocals locals)
    (h' : WholeLocals others) : WholeLocals (locals ++ others) := by
  induction locals with
  | nil => exact h'
  | cons type rest ih =>
    obtain ⟨hhead, hrest⟩ := wholeLocals_cons.1 h
    refine wholeLocals_cons.2 ⟨fun hwidth => ?_, ih hrest⟩
    change (rest ++ others).head? = _
    rw [List.head?_append, hhead hwidth]
    rfl

theorem wholeLocals_slots (type : InferredType) : WholeLocals (TypeState.slots type) := by
  unfold TypeState.slots
  split
  · exact wholeLocals_cons.2 ⟨fun _ => rfl, wholeLocals_cons.2 ⟨nofun, wholeLocals_nil⟩⟩
  · rename_i hwidth
    exact wholeLocals_cons.2 ⟨fun h => absurd h hwidth, wholeLocals_nil⟩

theorem wholeLocals_tops (count : Nat) : WholeLocals (List.replicate count .top) := by
  induction count with
  | zero => exact wholeLocals_nil
  | succ count ih => exact wholeLocals_cons.2 ⟨nofun, ih⟩

/-- A write makes room for its own slots, and a value that loses a slot to it is lost as a whole. -/
theorem WholeLocals.setLocal (h : WholeLocals locals) (written : Nat) (type : InferredType) :
    WholeLocals (TypeState.setLocal written type locals) := by
  obtain ⟨hpaired, hroom⟩ := wholeLocals_iff.1 h
  refine wholeLocals_iff.2 ⟨hpaired.setLocal written type, fun slot hwidth => ?_⟩
  rw [localAt_setLocal] at hwidth
  rw [Transfer.length_setLocal]
  -- a wide value stands in what was written, or in front of it, or elsewhere
  by_cases hslot : slot = written
  · rw [if_pos hslot] at hwidth
    omega
  · rw [if_neg hslot] at hwidth
    split at hwidth
    · cases hwidth
    · split at hwidth
      · cases hwidth
      · have := hroom slot hwidth
        omega

/-- Values of one slot may be changed into others of one slot. -/
theorem WholeLocals.map (h : WholeLocals locals) {f : InferredType → InferredType}
    (htop : f .top = .top) (hf : ∀ type, width (f type) = 2 → width type = 2) :
    WholeLocals (locals.map f) := by
  intro slot type htype hwidth
  rw [List.getElem?_map, Option.map_eq_some_iff] at htype ⊢
  obtain ⟨found, hfound, rfl⟩ := htype
  exact ⟨.top, h slot found hfound (hf found hwidth), htop⟩

/-- Behind a merge values of two slots are whole, whatever was merged. -/
theorem wholeLocals_keepPaired (locals : List InferredType) :
    WholeLocals (Merge.keepPaired locals) := by
  refine wholeLocals_iff.2 ⟨paired_keepPaired locals, fun slot hwidth => ?_⟩
  rw [localAt_keepPaired] at hwidth
  rw [length_keepPaired]
  split at hwidth
  · cases hwidth
  · rename_i hkept
    have hnext : locals[slot + 1]? = some .top :=
      Decidable.of_not_not fun hne => hkept ⟨hwidth, hne⟩
    exact (List.getElem?_eq_some_iff.1 hnext).1

end Slots

/-! ## States -/

/-- Parameters are whole, and so are the slots behind them. -/
theorem wholeLocals_methodEntry (thisClass : BinaryName) (isStatic isConstructor : Bool)
    (method : MethodDescriptor) (maxLocals : Nat) :
    WholeLocals (TypeState.methodEntry thisClass isStatic isConstructor method maxLocals).locals := by
  -- each parameter fills as many slots as it is wide
  have hparameters : ∀ types : List FieldType,
      WholeLocals (types.flatMap (TypeState.slots ·.verificationType)) := by
    intro types
    induction types with
    | nil => exact wholeLocals_nil
    | cons type types ih => exact (wholeLocals_slots _).append ih
  have hone : ∀ type : InferredType, width type = 1 → WholeLocals [type] := fun type hwidth =>
    wholeLocals_cons.2 ⟨fun h => by omega, wholeLocals_nil⟩
  refine .append (.append ?_ (hparameters _)) (wholeLocals_tops _)
  split
  · exact wholeLocals_nil
  · split
    · exact hone _ rfl
    · exact hone _ rfl

/-- An operation keeps values of two slots whole. -/
theorem wholeLocals_operation {L : Type} {context : MethodContext} {allocation : Option Label}
    {op : Operation L} {state after : TypeState} (h : WholeLocals state.locals)
    (hrun : Transfer.operation context allocation op state = .ok () after) :
    WholeLocals after.locals := by
  generalize hlocals : after.locals = locals
  have hstep := Transfer.operation_locals hrun
  rw [hlocals] at hstep
  cases hstep with
  | keep => exact h
  | write => exact h.setLocal _ _
  | construct class' huninitialized =>
    -- neither the uninitialized object nor what becomes of it takes up two slots
    refine h.map ?_ fun type hwidth => ?_
    · cases huninitialized <;> rfl
    · split at hwidth
      · cases hwidth
      · exact hwidth

/-- What comes out of a merge is whole. -/
theorem wholeLocals_merge {first second common : TypeState} {resolver resolver' : Resolver}
    (h : Merge.states first second resolver = .ok common resolver') : WholeLocals common.locals := by
  unfold Merge.states at h
  rcases state_bind_ok.1 h with ⟨stack, _, _, h⟩
  rcases state_bind_ok.1 h with ⟨locals, _, hlocals, h⟩
  rcases state_pure_ok.1 h with ⟨rfl, -⟩
  unfold Merge.locals at hlocals
  rcases state_bind_ok.1 hlocals with ⟨commons, _, _, hlocals⟩
  rcases state_pure_ok.1 hlocals with ⟨rfl, -⟩
  exact wholeLocals_keepPaired _

/-- Values of two slots are whole in all states that are recorded. -/
theorem invariant_wholeLocals (context : MethodContext) :
    TypeState.Invariant context fun state => WholeLocals state.locals where
  behind _ _ _ _ h hrun := wholeLocals_operation h hrun
  caught _ _ h := h
  merged _ _ _ _ _ _ _ hmerge := wholeLocals_merge hmerge

/-! ## Frames -/

namespace TypeState

variable {locals : List InferredType}

/-- The entries of whole values stand for the slots that they were made of. -/
theorem flatMap_localEntries (h : WholeLocals locals) :
    (localEntries false locals).flatMap slots = locals ∧
      (locals.head? = some .top → .top :: (localEntries true locals).flatMap slots = locals) := by
  induction locals with
  | nil => exact ⟨rfl, nofun⟩
  | cons type rest ih =>
    obtain ⟨hhead, hrest⟩ := wholeLocals_cons.1 h
    constructor
    · rw [localEntries, List.flatMap_cons]
      by_cases hwidth : width type = 2
      · -- the second slot is the first of the rest
        have hslots : slots type = [type, .top] := if_pos hwidth
        rw [hslots, decide_eq_true hwidth]
        exact congrArg (type :: ·) ((ih hrest).2 (hhead hwidth))
      · have hslots : slots type = [type] := if_neg hwidth
        rw [hslots, decide_eq_false hwidth, (ih hrest).1]
        rfl
    · intro htop
      cases htop
      rw [localEntries, (ih hrest).1]

/-- Unusable slots that are added at the end are entries of their own. -/
theorem localEntries_append_tops (h : WholeLocals locals) (count : Nat) :
    localEntries false (locals ++ List.replicate count .top) =
        localEntries false locals ++ List.replicate count .top ∧
      (locals.head? = some .top → localEntries true (locals ++ List.replicate count .top) =
        localEntries true locals ++ List.replicate count .top) := by
  have htops : ∀ count, localEntries false (List.replicate count .top) =
      List.replicate count .top := by
    intro count
    induction count with
    | zero => rfl
    | succ count ih => exact congrArg (.top :: ·) ih
  -- the flag tells whether the first slot is the second half of a wide value
  induction locals with
  | nil => exact ⟨htops count, nofun⟩
  | cons type rest ih =>
    obtain ⟨hhead, hrest⟩ := wholeLocals_cons.1 h
    constructor
    · rw [List.cons_append, localEntries, localEntries, List.cons_append]
      by_cases hwidth : width type = 2
      · rw [decide_eq_true hwidth, (ih hrest).2 (hhead hwidth)]
      · rw [decide_eq_false hwidth, (ih hrest).1]
    · intro _
      rw [List.cons_append, localEntries, localEntries, (ih hrest).1]

/-- The entries of a frame stand for the local variables, up to unusable ones at the end. -/
theorem exists_flatMap_toFrame {state : TypeState} (h : WholeLocals state.locals) : ∃ count,
    state.toFrame.locals.toList.flatMap slots ++ List.replicate count .top = state.locals := by
  obtain ⟨count, hall⟩ := exists_flatMap_dropWhile (localEntries false state.locals)
  rw [(flatMap_localEntries h).1] at hall
  refine ⟨count, ?_⟩
  rw [toList_toFrame, ← hall]

/-- Unusable slots at the end are left out of a frame. -/
theorem localEntriesFrom_append_tops (h : WholeLocals locals) (count : Nat) :
    localEntriesFrom [] false (locals ++ List.replicate count .top) =
      localEntriesFrom [] false locals := by
  simp only [localEntriesFrom_eq, List.append_nil]
  rw [(localEntries_append_tops h count).1, List.reverse_append, List.reverse_replicate,
    List.dropWhile_append_of_pos]
  intro type hmem
  simpa using List.eq_of_mem_replicate hmem

/-- States have the same frame exactly when they have the same stack, and local variables that
differ only in unusable ones at the end. -/
theorem toFrame_eq_iff {first second : TypeState} (h : WholeLocals first.locals)
    (h' : WholeLocals second.locals) : first.toFrame = second.toFrame ↔
      first.stack = second.stack ∧ SameUpToTops first.locals second.locals := by
  constructor
  · intro heq
    -- a frame keeps the locals up to free slots at their end
    obtain ⟨count, hfirst⟩ := exists_flatMap_toFrame h
    obtain ⟨count', hsecond⟩ := exists_flatMap_toFrame h'
    refine ⟨?_, _, count, count', hfirst.symm, ?_⟩
    · exact OperandStack.ext (congrArg Frame.stack heq)
    · rw [heq]
      exact hsecond.symm
  · rintro ⟨hstack, hlocals⟩
    have hentries : localEntriesFrom [] false first.locals =
        localEntriesFrom [] false second.locals := by
      rcases hlocals.append_or with ⟨count, hmore⟩ | ⟨count, hmore⟩
      · rw [hmore, localEntriesFrom_append_tops h]
      · rw [hmore, localEntriesFrom_append_tops h']
    unfold toFrame
    rw [hentries, hstack]

end TypeState

/-! ## All states -/

/-- **Values of two slots stay whole, and values on a stack stay where they are.** Values of two
slots are whole when a method is entered. Operations, handlers and merges keep them whole, and so
they are whole wherever an analysis records a state. The stack of a state stores each value with the
number of slots below it: an operation pops values, and then pushes others behind them or
initializes an object where it stands, which keeps the stored numbers the sums of the widths below,
whatever stack it starts from; a handler starts from an empty stack; merged values start where they
did on both stacks. A frame of a state in which values are whole stands for its local variables, up
to unusable ones at the end: it tells all that can be used. -/
theorem wholeLocals_throughout :
    (∀ (thisClass : BinaryName) (isStatic isConstructor : Bool) (method : MethodDescriptor)
      (maxLocals : Nat), WholeLocals
        (TypeState.methodEntry thisClass isStatic isConstructor method maxLocals).locals ∧
        (TypeState.methodEntry thisClass isStatic isConstructor method maxLocals).stack.vector = ∅) ∧
    (∀ {L : Type} (context : MethodContext) (allocation : Option Label) (operation : Operation L)
      (state after : TypeState),
      Transfer.operation context allocation operation state = .ok () after →
        (WholeLocals state.locals → WholeLocals after.locals) ∧
        state.stack.vector.StackStep after.stack.vector ∧ after.stack.vector.Sums) ∧
    (∀ (state : TypeState) (caught : InferredType),
      (WholeLocals state.locals → WholeLocals (state.handlerEntry caught).locals) ∧
      (state.handlerEntry caught).stack.vector = (∅ : WidthVector InferredType).push caught ∧
      (state.handlerEntry caught).stack.vector.Sums) ∧
    (∀ (first second common : TypeState) (resolver resolver' : Resolver),
      Merge.states first second resolver = .ok common resolver' →
        (WholeLocals first.locals → WholeLocals second.locals → WholeLocals common.locals) ∧
        common.stack.vector.offsets = first.stack.vector.offsets ∧
        common.stack.vector.offsets = second.stack.vector.offsets ∧ common.stack.vector.Sums) ∧
    (∀ (body : Body) (context : MethodContext) (entry : TypeState) (resolver resolver' : Resolver)
      (analysis : Analysis), WholeLocals entry.locals →
        body.analyze entry context resolver = .ok analysis resolver' →
          ∀ (position : Nat) (state : TypeState), analysis.state? position = some state →
            WholeLocals state.locals) ∧
    (∀ before after : WidthVector InferredType, before.StackStep after → before.Sums →
      after.Sums) ∧
    (∀ state : TypeState, state.toFrame.stack = state.stack.vector) ∧
    (∀ state : TypeState, WholeLocals state.locals → ∃ count,
      state.toFrame.locals.toList.flatMap TypeState.slots ++ List.replicate count .top =
        state.locals) ∧
    (∀ first second : TypeState, WholeLocals first.locals → WholeLocals second.locals →
      (first.toFrame = second.toFrame ↔
        first.stack = second.stack ∧ SameUpToTops first.locals second.locals)) := by
  refine ⟨?_, ?_, ?_, ?_, ?_, fun _ _ => WidthVector.StackStep.sums, fun _ => rfl, ?_, ?_⟩
  · intro thisClass isStatic isConstructor method maxLocals
    exact ⟨wholeLocals_methodEntry thisClass isStatic isConstructor method maxLocals, rfl⟩
  · intro L context allocation operation state after hrun
    have hstep := Transfer.operation_stackStep hrun
    exact ⟨fun h => wholeLocals_operation h hrun, hstep, hstep.sums state.stack.sums⟩
  · intro state caught
    exact ⟨id, rfl, WidthVector.sums_empty.push caught⟩
  · intro first second common resolver resolver' hmerge
    obtain ⟨hfirst, hsecond⟩ := Merge.states_offsets hmerge
    exact ⟨fun _ _ => wholeLocals_merge hmerge, hfirst, hsecond, common.stack.sums⟩
  · intro body context entry resolver resolver' analysis h hanalyze position state hstate
    exact Body.analyze_records (invariant_wholeLocals context) h hanalyze hstate
  · intro state h
    exact TypeState.exists_flatMap_toFrame h
  · intro first second h h'
    exact TypeState.toFrame_eq_iff h h'

/-- An integer is written into the second slot of a long, which is lost, and what is left of the
stack starts where it did. Of a long that is whole, nothing is lost in a frame. -/
theorem wholeLocals_cutLong :
    (∃ after : TypeState, Transfer.operation (L := Label) ⟨∅, .object, none⟩ none
        (.step (.store .int 2)) ⟨[.integer, .long, .top], .ofValues [.integer, .double]⟩ =
          .ok () after ∧
      after.locals = [.integer, .top, .integer] ∧ WholeLocals after.locals ∧
      after.stack.vector.offsets = [0] ∧ after.stack.vector.Sums) ∧
    (∀ (position : Nat) (state : TypeState),
      Body.guardedLoopAnalysis.state? position = some state → WholeLocals state.locals) ∧
    (TypeState.mk [.long, .top] ∅).toFrame = (TypeState.mk [.long, .top, .top] ∅).toFrame ∧
    (TypeState.mk [.long, .top] ∅).toFrame ≠ (TypeState.mk [.top, .top] ∅).toFrame ∧
    ∃ count, (TypeState.mk [.long, .top, .top] ∅).toFrame.locals.toList.flatMap TypeState.slots ++
      List.replicate count .top = [.long, .top, .top] := by
  have hlong : WholeLocals [.long, .top] := (wholeLocals_slots .long).append wholeLocals_nil
  have hlonger : WholeLocals [.long, .top, .top] := hlong.append (wholeLocals_tops 1)
  have hcut : WholeLocals [.integer, .long, .top] := (wholeLocals_slots .integer).append hlong
  obtain ⟨-, hoperation, -, -, hanalyze, hsums, -, hentries, hframes⟩ := wholeLocals_throughout
  have hrun : Transfer.operation (L := Label) ⟨∅, .object, none⟩ none (.step (.store .int 2))
      ⟨[.integer, .long, .top], .ofValues [.integer, .double]⟩ =
        .ok () ⟨[.integer, .top, .integer], .ofValues [.double]⟩ := rfl
  obtain ⟨hwhole, hstep, -⟩ := hoperation _ _ _ _ _ hrun
  refine ⟨⟨_, hrun, rfl, hwhole hcut, rfl, hsums _ _ hstep (OperandStack.sums _)⟩, ?_, ?_, ?_, ?_⟩
  · exact hanalyze _ _ _ _ _ _ wholeLocals_nil (Body.guardedLoop_analyze (.ofClassPath ∅))
  · exact (hframes _ _ hlong hlonger).2 ⟨rfl, [.long, .top], 0, 1, rfl, rfl⟩
  · intro hsame
    obtain ⟨-, hlocals⟩ := (hframes _ _ hlong (wholeLocals_tops 2)).1 hsame
    rcases hlocals.append_or with ⟨count, hmore⟩ | ⟨count, hmore⟩
    · cases hmore
    · cases hmore
  · exact hentries ⟨[.long, .top, .top], ∅⟩ hlonger

end Preverification

import Preverification.Proofs.TypeOrder
import Preverification.Proofs.Vectors
import Mathlib.Data.List.TakeWhile

/-!
# What frames say

A frame in a stack map stands for a type state: each value of two slots is followed by a slot that
cannot be used, and so are the locals behind the last one. The frame of a state in which values of
two slots are whole stands for that state.

* `TypeState.localAt_localEntries`: entries stand for the slots that they were made of.
* `TypeState.below_toFrame`, `TypeState.toFrame_below`: nothing is lost in the frame of a state.
-/

namespace Preverification

/-- The type state for which a frame stands. -/
def Frame.state (frame : Frame InferredType) : TypeState :=
  ⟨frame.locals.toList.flatMap TypeState.slots, .ofValues frame.stack.toList.reverse⟩

namespace TypeState

/-- The entries of some local variables, with those at the end that cannot be used. The first slot
may be the second half of an earlier entry. -/
def localEntries : (paired : Bool) → List InferredType → List InferredType
  | _, [] => []
  | true, _ :: rest => localEntries false rest
  | false, type :: rest => type :: localEntries (width type = 2) rest

theorem localEntriesFrom_eq (done : List InferredType) (paired : Bool)
    (locals : List InferredType) : localEntriesFrom done paired locals =
      (((localEntries paired locals).reverse ++ done).dropWhile (· = .top)).reverse := by
  induction locals generalizing done paired with
  | nil => cases paired <;> rfl
  | cons type rest ih =>
    cases paired with
    | true =>
      rw [localEntriesFrom, if_pos rfl, ih]
      rfl
    | false =>
      rw [localEntriesFrom, if_neg Bool.false_ne_true, ih, localEntries, List.reverse_cons,
        List.append_assoc]
      rfl

/-- Entries stand for the slots that they were made of. -/
theorem localAt_localEntries (locals : List InferredType) (h : Paired locals) (slot : Nat) :
    localAt ((localEntries false locals).flatMap slots) slot = localAt locals slot ∧
      (localAt locals 0 = .top →
        localAt (.top :: (localEntries true locals).flatMap slots) slot = localAt locals slot) := by
  -- two statements at once, since a value of two slots swallows the one behind it
  induction locals generalizing slot with
  | nil =>
    refine ⟨rfl, fun _ => ?_⟩
    cases slot <;> rfl
  | cons type rest ih =>
    constructor
    · by_cases hwidth : width type = 2
      · -- the second slot is the first of the rest
        have hsecond : localAt rest 0 = .top := h 0 hwidth
        have hentry : (localEntries false (type :: rest)).flatMap slots =
            type :: .top :: (localEntries true rest).flatMap slots := by
          simp [localEntries, slots, hwidth]
        rw [hentry]
        cases slot with
        | zero => rfl
        | succ slot =>
          rw [localAt_cons_succ, localAt_cons_succ]
          exact (ih h.tail slot).2 hsecond
      · have hentry : (localEntries false (type :: rest)).flatMap slots =
            type :: (localEntries false rest).flatMap slots := by
          simp [localEntries, slots, hwidth]
        rw [hentry]
        cases slot with
        | zero => rfl
        | succ slot =>
          rw [localAt_cons_succ, localAt_cons_succ]
          exact (ih h.tail slot).1
    · -- the slot that was swallowed is put back
      intro htop
      cases slot with
      | zero => exact htop.symm
      | succ slot =>
        rw [localAt_cons_succ, localAt_cons_succ]
        exact (ih h.tail slot).1

theorem flatMap_slots_tops (count : Nat) :
    (List.replicate count (.top : InferredType)).flatMap slots = List.replicate count .top := by
  induction count with
  | zero => rfl
  | succ count ih =>
    rw [List.replicate_succ, List.flatMap_cons, ih]
    rfl

/-- Entries stand for the slots of those that are left when the unusable ones at their end are left
out, and for unusable slots. -/
theorem exists_flatMap_dropWhile (entries : List InferredType) : ∃ count,
    entries.flatMap slots = (entries.reverse.dropWhile (· = .top)).reverse.flatMap slots ++
      List.replicate count .top := by
  have hsplit : entries = (entries.reverse.dropWhile (· = .top)).reverse ++
      (entries.reverse.takeWhile (· = .top)).reverse := by
    rw [← List.reverse_append, List.takeWhile_append_dropWhile, List.reverse_reverse]
  have htop : (entries.reverse.takeWhile (· = .top)).reverse =
      List.replicate (entries.reverse.takeWhile (· = .top)).length .top := by
    refine List.eq_replicate_iff.2 ⟨List.length_reverse, fun type hmem => ?_⟩
    simpa using List.mem_takeWhile_imp (List.mem_reverse.1 hmem)
  refine ⟨(entries.reverse.takeWhile (· = .top)).length, ?_⟩
  rw [← flatMap_slots_tops, ← htop, ← List.flatMap_append, ← hsplit]

/-- Leaving out entries at the end that cannot be used changes no slot. -/
theorem localAt_dropWhile (entries : List InferredType) (slot : Nat) :
    localAt ((entries.reverse.dropWhile (· = .top)).reverse.flatMap slots) slot =
      localAt (entries.flatMap slots) slot := by
  obtain ⟨count, hall⟩ := exists_flatMap_dropWhile entries
  rw [hall, localAt_append_top]

/-- The frame of a state has the entries that are left. -/
theorem toList_toFrame (state : TypeState) : state.toFrame.locals.toList =
    ((localEntries false state.locals).reverse.dropWhile (· = .top)).reverse := by
  unfold toFrame
  dsimp only
  rw [WidthVector.toList_ofList, localEntriesFrom_eq, List.append_nil]

/-- The frame of a state stands for the state where values of two slots are whole. -/
theorem localAt_toFrame {state : TypeState} (h : Paired state.locals) (slot : Nat) :
    localAt state.toFrame.state.locals slot = localAt state.locals slot := by
  have hlocals : state.toFrame.state.locals =
      (((localEntries false state.locals).reverse.dropWhile (· = .top)).reverse).flatMap slots :=
    congrArg (List.flatMap slots) state.toList_toFrame
  rw [hlocals, localAt_dropWhile]
  exact (localAt_localEntries state.locals h slot).1

theorem values_toFrame (state : TypeState) :
    state.toFrame.state.stack.values = state.stack.values := by
  exact OperandStack.values_ofValues state.stack.values

section Below

variable {superclass : Superclasses} {state : TypeState}

/-- A state is below its frame. -/
theorem below_toFrame (h : Paired state.locals) : Below superclass state state.toFrame.state where
  locals slot := by
    rw [localAt_toFrame h]
    exact .refl _
  stack := by
    rw [values_toFrame]
    exact (Below.refl state).stack

/-- The frame of a state is below the state: nothing is lost in it. -/
theorem toFrame_below (h : Paired state.locals) : Below superclass state.toFrame.state state where
  locals slot := by
    rw [localAt_toFrame h]
    exact .refl _
  stack := by
    rw [values_toFrame]
    exact (Below.refl state).stack

end Below

end TypeState

end Preverification

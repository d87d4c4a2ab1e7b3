import Preverification.Proofs.MergeBound
import Preverification.Proofs.RelatedStates
import Preverification.Proofs.Vectors

/-!
# Where the values of a stack start

An operand stack stores each value with the number of slots below it. Operations do not compute
these numbers again: they pop values, they push values behind the last one, and a constructor turns
an object into an initialized one where it stands. So the stored numbers stay the sums of the widths
below them.

* `WidthVector.StackStep.sums`: what operations do to a stack keeps these sums, whatever stack they
  start from.
* `Transfer.operation_stackStep`: operations do nothing else to a stack.
* `Merge.states_offsets`: where two ways meet, values start where they did on both.
-/

namespace Preverification

namespace WidthVector

/-! ## Steps of a stack -/

/-- One vector is left of another one when elements are popped. -/
inductive PopsTo {α : Type} : WidthVector α → WidthVector α → Prop where
  | refl (v : WidthVector α) : PopsTo v v
  | pop {v rest w : WidthVector α} {popped : Nat × Nat × α} (first : v.pop? = some (popped, rest))
      (others : PopsTo rest w) : PopsTo v w

/-- What an operation makes of a stack. It pops values, and then it pushes a few others, or it turns
an object into an initialized one wherever that stands. -/
inductive StackStep (before : WidthVector InferredType) : WidthVector InferredType → Prop where
  | push {rest : WidthVector InferredType} {types : List InferredType}
      (popped : before.PopsTo rest) (few : types.length ≤ 6) : StackStep before (rest.append types)
  | construct {rest : WidthVector InferredType} {object : InferredType} (class' : RefType)
      (popped : before.PopsTo rest) (uninitialized : object.IsUninitialized) :
      StackStep before (rest.replace (retyped object (.object class')))

variable {α : Type} {u v w : WidthVector α}

/-- Values are popped one after the other. -/
theorem PopsTo.trans (h : u.PopsTo v) (h' : v.PopsTo w) : u.PopsTo w := by
  induction h with
  | refl => exact h'
  | pop first _ ih => exact .pop first (ih h')

/-- The values that are left start where they started. -/
theorem PopsTo.sums [HasWidth α] (h : v.PopsTo w) (hsums : v.Sums) : w.Sums := by
  induction h with
  | refl => exact hsums
  | pop first _ ih => exact ih (hsums.pop first).1

/-- An object takes up one slot, be it initialized or not. -/
theorem width_of_isUninitialized {object : InferredType} (h : object.IsUninitialized)
    (class' : RefType) : width (.object class' : InferredType) = width object := by
  cases h with
  | receiver => rfl
  | allocated => rfl

/-- The number of slots in front of each element, as it is stored. -/
def offsets {α : Type} (v : WidthVector α) : List Nat := v.entries.toList.map (·.1)

/-- Operations keep the sums at which values start, whatever the stack is. -/
theorem StackStep.sums {before after : WidthVector InferredType} (h : before.StackStep after)
    (hsums : before.Sums) : after.Sums := by
  cases h with
  | push popped few => exact (popped.sums hsums).append _
  | construct class' popped uninitialized =>
    apply (popped.sums hsums).replace
    exact width_retyped (width_of_isUninitialized uninitialized class')

/-- Sums of widths are told by the widths. -/
theorem Sums.offsets_getElem? [HasWidth α] (h : v.Sums) (index : Nat) : v.offsets[index]? =
    (v.toList.map width)[index]?.map fun _ => ((v.toList.map width).take index).sum := by
  rw [offsets, List.getElem?_map, Array.getElem?_toList, h.getElem?, totalWidth_eq_sum,
    List.getElem?_map, Option.map_map, Option.map_map, List.map_take]
  rfl

/-- Vectors with elements of the same widths have the same sums. -/
theorem Sums.offsets_congr [HasWidth α] (h : v.Sums) (h' : w.Sums)
    (hwidth : v.toList.map width = w.toList.map width) : v.offsets = w.offsets := by
  apply List.ext_getElem?
  intro index
  rw [h.offsets_getElem?, h'.offsets_getElem?, hwidth]

end WidthVector

namespace Transfer

/-! ## Operations -/

/-- Values are popped from the stack. -/
def PopsStack (before after : TypeState) : Prop := before.stack.vector.PopsTo after.stack.vector

instance : IsPreorder TypeState PopsStack where
  refl _ := .refl _
  trans _ _ _ h h' := h.trans h'

/-- The stack changes as operations change it. -/
def StepsStack (before after : TypeState) : Prop :=
  before.stack.vector.StackStep after.stack.vector

/-- A single value is popped. -/
theorem popsStack_pop : Respects PopsStack pop := by
  intro state type after hrun
  unfold pop at hrun
  split at hrun
  · rename_i popped stack hpop
    cases hrun
    unfold PopsStack
    rw [OperandStack.pop?_eq_push.1 hpop]
    exact .pop (WidthVector.pop?_push stack.vector type) (.refl _)
  · cases hrun

/-- Values are pushed behind the last one, in order. -/
theorem vector_pushAll (types : List InferredType) (state : TypeState) :
    ∃ after, pushAll types state = .ok () after ∧
      after.stack.vector = state.stack.vector.append types := by
  induction types generalizing state with
  | nil => exact ⟨state, rfl, rfl⟩
  | cons type types ih =>
    obtain ⟨after, hrun, hvector⟩ := ih ⟨state.locals, state.stack.push type⟩
    exact ⟨after, state_bind_ok.2 ⟨(), _, rfl, hrun⟩, hvector⟩

/-- Whatever pops first and pushes then is a step. -/
theorem popsThenPushes_stepsStack : PopsThenPushes PopsStack StepsStack where
  pop := popsStack_pop
  push types hfew := by
    intro state value after hrun
    obtain ⟨after', hrun', hvector⟩ := vector_pushAll types state
    rw [hrun'] at hrun
    cases hrun
    unfold StepsStack
    rw [hvector]
    exact .push (.refl _) hfew
  comp before between after hpops hsteps := by
    unfold StepsStack at hsteps ⊢
    generalize after.stack.vector = stack at hsteps ⊢
    -- what was popped before is popped in the same step
    cases hsteps with
    | push popped few => exact .push (hpops.trans popped) few
    | construct class' popped uninitialized =>
      exact .construct class' (hpops.trans popped) uninitialized

theorem popsStack_setLocal (slot : UInt16) (type : InferredType) :
    Respects PopsStack (setLocal slot type) := by
  rintro state value after ⟨⟩
  exact .refl _

/-- A store pops what it writes. -/
theorem stepsStack_store (kind : ValueKind) (slot : UInt16) :
    Respects StepsStack (store kind slot) := by
  apply popsThenPushes_stepsStack.ends
  unfold store
  split
  · exact (popsStack_pop.popType _).bind fun _ => popsStack_setLocal slot _
  · exact popsStack_pop.popReference.bind fun _ => popsStack_setLocal slot _

/-- What operations do to a stack. -/
theorem operation_stackStep {L : Type} {context : MethodContext} {allocation : Option Label}
    {op : Operation L} {state after : TypeState}
    (h : operation context allocation op state = .ok () after) :
    state.stack.vector.StackStep after.stack.vector := by
  suffices hsteps : Respects StepsStack (operation context allocation op) from hsteps _ _ _ h
  have hparts := popsThenPushes_stepsStack
  cases op with
  | branch b => exact hparts.branch context b
  | step i =>
    cases i with
    | store kind slot => exact stepsStack_store kind slot
    | invoke kind index =>
      apply hparts.invoke
      rintro - object class' hwidth huninitialized before value after ⟨⟩
      exact .construct class' (.refl _) huninitialized
    | _ => exact hparts.operation context allocation nofun nofun

end Transfer

namespace Merge

/-! ## Merges -/

/-- Types that are ordered take up the same room. -/
theorem offsets_of_below {superclass : Superclasses} {stack common : OperandStack}
    (h : List.Forall₂ (InferredType.Below superclass) stack.values common.values) :
    common.vector.offsets = stack.vector.offsets := by
  apply common.sums.offsets_congr stack.sums
  have hvalues : common.values.map width = stack.values.map width := by
    rw [← List.forall₂_eq_eq_eq, List.forall₂_map_left_iff, List.forall₂_map_right_iff]
    exact h.flip.imp fun _ _ hbelow => hbelow.width_eq.symm
  rw [OperandStack.values, OperandStack.values, List.map_reverse, List.map_reverse] at hvalues
  exact List.reverse_injective hvalues

/-- Values that are merged are as wide as both, so that they start where both do. -/
theorem states_offsets {first second common : TypeState} {resolver resolver' : Resolver}
    (h : states first second resolver = .ok common resolver') :
    common.stack.vector.offsets = first.stack.vector.offsets ∧
      common.stack.vector.offsets = second.stack.vector.offsets := by
  obtain ⟨-, -, hfirst, hsecond⟩ := states_answers first second resolver common resolver' h
  exact ⟨offsets_of_below hfirst.stack, offsets_of_below hsecond.stack⟩

end Merge

end Preverification

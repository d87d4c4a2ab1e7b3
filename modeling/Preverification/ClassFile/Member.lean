import Preverification.Attribute.Code
import Preverification.ClassFile.Access

/-!
# Fields and methods

The members of a class. Fields and methods have one form; they differ in the access flags that mean
something, and in their attributes.
-/

namespace Preverification

open MonadExcept (ofExcept)

/-- A field or a method of a class. Its name and its descriptor are constants. -/
structure Member where
  access : AccessFlags
  name : PoolIndex
  descriptor : PoolIndex
  attributes : List Attribute
deriving DecidableEq, Repr, Inhabited

namespace Member

/-- The form of a member. -/
def write (member : Member) : Bytes :=
  Bytes.ofUInt16 member.access.bits ++ Bytes.ofUInt16 member.name ++
    Bytes.ofUInt16 member.descriptor ++ Bytes.ofList Attribute.write member.attributes

/-- Reads a member whose access flags are those in `mask`. -/
def read (mask : UInt16) (pool : Pool) : Reader Member := do
  let access := AccessFlags.ofBits mask (← Reader.uint16)
  let name ← ofExcept (pool.utf8Index (← Reader.uint16))
  let descriptor ← ofExcept (pool.utf8Index (← Reader.uint16))
  return ⟨access, name, descriptor, ← Attribute.readList pool⟩

/-- The name of a member. -/
def nameIn (member : Member) (pool : Pool) : Except StructuralError String := pool.utf8 member.name

/-- The descriptor of a member. -/
def descriptorIn (member : Member) (pool : Pool) : Except StructuralError String :=
  pool.utf8 member.descriptor

/-- The position of the only code attribute from `position` on, when `found` is the one in front. -/
def findCode (pool : Pool) (found : Option Nat) (position : Nat) :
    List Attribute → Except StructuralError (Option Nat)
  | [] => return found
  | attr :: rest => do
    if ← attr.holds Code pool then
      if found.isSome then throw .missingCode
      findCode pool (some position) (position + 1) rest
    else findCode pool found (position + 1) rest

/-- The position of the attribute that holds the code of a method. There may be none, and there
must not be two. -/
def codePosition (member : Member) (pool : Pool) : Except StructuralError (Option Nat) :=
  findCode pool none 0 member.attributes

/-- The code of a method, if it has any. -/
def code (member : Member) (pool : Pool) : Except StructuralError (Option Code) := do
  match (← member.codePosition pool).bind (member.attributes[·]?) with
  | none => return none
  | some attr => return some (← attr.decode Code)

end Member

end Preverification

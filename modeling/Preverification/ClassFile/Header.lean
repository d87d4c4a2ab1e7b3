import Preverification.ClassFile.Access
import Preverification.Constant.Pool

/-!
# Class headers

A `ClassHeader` places a class in the class hierarchy. It is read off the front of a class file:
what follows the list of interfaces is not looked at.
-/

namespace Preverification

open MonadExcept (ofExcept)

/-- The version of a class file. -/
structure Version where
  minor : UInt16
  major : UInt16
deriving DecidableEq, Repr, Inhabited

/-- The place of a class in the class hierarchy. Only the root extends no class. -/
structure ClassHeader where
  access : AccessFlags
  name : BinaryName
  superclass : Option BinaryName
  interfaces : List BinaryName
deriving DecidableEq, Repr, Inhabited

namespace ClassHeader

/-- Whether the class is an interface. -/
def isInterface (header : ClassHeader) : Bool := header.access.has AccessFlags.interface

/-- The header that is known without any class file. -/
def object : ClassHeader := ⟨AccessFlags.publicClass, BinaryName.object, none, []⟩

end ClassHeader

/-- The number at the front of every class file. -/
def magic : Nat := 0xCAFEBABE

/-- What a class says about itself, as indices into its constants. -/
structure Identity where
  access : AccessFlags
  thisClass : PoolIndex
  superclass : Option PoolIndex
  interfaces : List PoolIndex
deriving DecidableEq, Repr, Inhabited

namespace Identity

/-- The form of an identity. A class that extends none has the class zero there. -/
def write (identity : Identity) : Bytes :=
  Bytes.ofUInt16 identity.access.bits ++ Bytes.ofUInt16 identity.thisClass ++
    Bytes.ofUInt16 (identity.superclass.getD 0) ++
    Bytes.ofList Bytes.ofUInt16 identity.interfaces

/-- Reads an identity, whose indices have to be those of classes. -/
def read (pool : Pool) : Reader Identity := do
  let access := AccessFlags.ofBits AccessFlags.classMask (← Reader.uint16)
  let thisClass ← ofExcept (pool.classIndex (← Reader.uint16))
  let superclass ← ofExcept (pool.optionalClassIndex (← Reader.uint16))
  let interfaces ← Reader.list do ofExcept (pool.classIndex (← Reader.uint16))
  return ⟨access, thisClass, superclass, interfaces⟩

/-- The name of the class. -/
def nameIn (identity : Identity) (pool : Pool) : Except StructuralError BinaryName :=
  pool.binaryName identity.thisClass

/-- The name of the class that it extends. -/
def superclassIn (identity : Identity) (pool : Pool) :
    Except StructuralError (Option BinaryName) :=
  match identity.superclass with
  | none => return none
  | some index => some <$> pool.binaryName index

/-- The header of the class. -/
def headerIn (identity : Identity) (pool : Pool) : Except StructuralError ClassHeader := do
  let name ← identity.nameIn pool
  let superclass ← identity.superclassIn pool
  return ⟨identity.access, name, superclass, ← identity.interfaces.mapM pool.binaryName⟩

end Identity

/-- Reads what comes before the identity of a class: magic number, version and constants. -/
def Pool.readPreamble : Reader (Version × Pool) := do
  let number ← Reader.nat 4
  if number ≠ magic then throw (.badMagic number)
  let minor ← Reader.uint16
  let major ← Reader.uint16
  return (⟨minor, major⟩, ← Pool.read)

/-- Reads the header off a class file. -/
def ClassHeader.parse (bytes : Bytes) : Except StructuralError ClassHeader := do
  let ((pool, identity), _) ← Reader.run (do
    let (_, pool) ← Pool.readPreamble
    return (pool, ← Identity.read pool)) bytes
  identity.headerIn pool

end Preverification

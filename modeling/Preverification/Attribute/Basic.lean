import Preverification.Constant.Pool

/-!
# Attributes

Classes, fields, methods and code carry attributes: a name from the constant pool, and some bytes.
Most attributes are passed on as they are. Those that matter here have a type of contents, which is
an instance of `AttributeContents`: what its name is, and how it is read and written.
-/

namespace Preverification

open MonadExcept (ofExcept)

/-- A named piece of data. The name is a constant. -/
structure Attribute where
  name : PoolIndex
  contents : Bytes
deriving DecidableEq, Repr, Inhabited

/-- Types of data that stand in attributes of a certain name, with a reader for the contents and
their form. -/
class AttributeContents (α : Type) where
  name : String
  read : Reader α
  write : α → Bytes

namespace Attribute

/-- The name of an attribute. -/
def nameIn (attr : Attribute) (pool : Pool) : Except StructuralError String :=
  pool.utf8 attr.name

/-- The form of an attribute: its name, the length of its contents and the contents. -/
def write (attr : Attribute) : Bytes :=
  Bytes.ofUInt16 attr.name ++ Bytes.ofLength attr.contents.length ++ attr.contents

/-- Reads an attribute without looking at its name. -/
def read : Reader Attribute := do
  let name ← Reader.uint16
  return ⟨name, ← Reader.bytes (← Reader.nat 4)⟩

/-- Reads an attribute whose name has to be a text of the pool. -/
def readNamed (pool : Pool) : Reader Attribute := do
  let name ← ofExcept (pool.utf8Index (← Reader.uint16))
  return ⟨name, ← Reader.bytes (← Reader.nat 4)⟩

/-- Reads a list of attributes whose names have to be texts of the pool. -/
def readList (pool : Pool) : Reader (List Attribute) := Reader.list (readNamed pool)

/-- Reads the contents of an attribute as data of a type, which has to use all of them. -/
def decode (α : Type) [AttributeContents α] (attr : Attribute) : Except StructuralError α :=
  let malformed := StructuralError.malformedAttribute (AttributeContents.name α)
  match Reader.run AttributeContents.read attr.contents with
  | .ok (value, []) => pure value
  | .ok (_, _ :: _) => throw malformed
  | .error .unexpectedEnd => throw malformed
  | .error error => throw error

/-- Whether an attribute has the name that belongs to a type of data. -/
def holds (α : Type) [AttributeContents α] (attr : Attribute) (pool : Pool) :
    Except StructuralError Bool :=
  return (← attr.nameIn pool) == AttributeContents.name α

/-- The data in the first attribute with the right name. -/
def find? (α : Type) [AttributeContents α] (pool : Pool) :
    List Attribute → Except StructuralError (Option α)
  | [] => return none
  | attr :: rest => do
    if ← attr.holds α pool then return some (← attr.decode α)
    else find? α pool rest

end Attribute

/-- The attribute that holds a value; its name is added to the pool. -/
def Pool.addAttribute {α : Type} [AttributeContents α] (value : α) : Pool.Edit Attribute :=
  return ⟨← Pool.addUtf8 (AttributeContents.name α), AttributeContents.write value⟩

end Preverification

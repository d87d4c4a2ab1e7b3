import Preverification.Attribute.Basic

/-!
# Debug tables

Three attributes of code that tell a debugger about the source: which line the instructions come
from, and the names and types of local variables.
-/

namespace Preverification

/-- The line that the instructions from an offset on come from. -/
structure LineEntry where
  start : UInt16
  line : UInt16
deriving DecidableEq, Repr

namespace LineEntry

/-- The form of an entry. -/
def write (entry : LineEntry) : Bytes := Bytes.ofUInt16 entry.start ++ Bytes.ofUInt16 entry.line

/-- Reads an entry. -/
def read : Reader LineEntry := return ⟨← Reader.uint16, ← Reader.uint16⟩

end LineEntry

/-- The lines of a method. -/
structure LineNumberTable where
  entries : List LineEntry
deriving DecidableEq, Repr

instance : AttributeContents LineNumberTable where
  name := "LineNumberTable"
  read := return ⟨← Reader.list LineEntry.read⟩
  write table := Bytes.ofList LineEntry.write table.entries

/-- A local variable in a range of the code, which is given by its first byte and its length. The
descriptor may be a generic signature. -/
structure VariableEntry where
  start : UInt16
  length : UInt16
  name : PoolIndex
  descriptor : PoolIndex
  slot : UInt16
deriving DecidableEq, Repr

namespace VariableEntry

/-- The form of an entry. -/
def write (entry : VariableEntry) : Bytes :=
  Bytes.ofUInt16 entry.start ++ Bytes.ofUInt16 entry.length ++ Bytes.ofUInt16 entry.name ++
    Bytes.ofUInt16 entry.descriptor ++ Bytes.ofUInt16 entry.slot

/-- Reads an entry. -/
def read : Reader VariableEntry := do
  let start ← Reader.uint16
  let length ← Reader.uint16
  let name ← Reader.uint16
  let descriptor ← Reader.uint16
  return ⟨start, length, name, descriptor, ← Reader.uint16⟩

end VariableEntry

/-- The local variables of a method, with their descriptors. -/
structure LocalVariableTable where
  entries : List VariableEntry
deriving DecidableEq, Repr

instance : AttributeContents LocalVariableTable where
  name := "LocalVariableTable"
  read := return ⟨← Reader.list VariableEntry.read⟩
  write table := Bytes.ofList VariableEntry.write table.entries

/-- The local variables of a method, with their generic signatures. -/
structure LocalVariableTypeTable where
  entries : List VariableEntry
deriving DecidableEq, Repr

instance : AttributeContents LocalVariableTypeTable where
  name := "LocalVariableTypeTable"
  read := return ⟨← Reader.list VariableEntry.read⟩
  write table := Bytes.ofList VariableEntry.write table.entries

end Preverification

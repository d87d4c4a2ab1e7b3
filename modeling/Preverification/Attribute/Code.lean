import Preverification.Attribute.Basic

/-!
# Code attributes

The code of a method: its instructions as bytes, and its exception table.
-/

namespace Preverification

/-- An entry of an exception table: which class of exceptions is caught, with `none` for all of
them, in which range and where. All places are offsets into the code, and the range ends in front of
`stop`. -/
structure ExceptionEntry where
  start : UInt16
  stop : UInt16
  handler : UInt16
  caught : Option PoolIndex
deriving DecidableEq, Repr, Inhabited

namespace ExceptionEntry

/-- The form of an entry. An entry that catches everything has the class zero. -/
def write (entry : ExceptionEntry) : Bytes :=
  Bytes.ofUInt16 entry.start ++ Bytes.ofUInt16 entry.stop ++ Bytes.ofUInt16 entry.handler ++
    Bytes.ofUInt16 (entry.caught.getD 0)

/-- Reads an entry. -/
def read : Reader ExceptionEntry := do
  let start ← Reader.uint16
  let stop ← Reader.uint16
  let handler ← Reader.uint16
  let caught ← Reader.uint16
  return ⟨start, stop, handler, if caught = 0 then none else some caught⟩

end ExceptionEntry

/-- The code of a method, with the numbers of slots that it declares. -/
structure Code where
  maxStack : UInt16
  maxLocals : UInt16
  bytecode : Bytes
  exceptions : List ExceptionEntry
  attributes : List Attribute
deriving DecidableEq, Repr, Inhabited

namespace Code

/-- The form of the code. -/
def write (code : Code) : Bytes :=
  Bytes.ofUInt16 code.maxStack ++ Bytes.ofUInt16 code.maxLocals ++
    Bytes.ofLength code.bytecode.length ++ code.bytecode ++
    Bytes.ofList ExceptionEntry.write code.exceptions ++
    Bytes.ofList Attribute.write code.attributes

/-- Reads the code. The names of its attributes are looked at when they are needed. -/
def read : Reader Code := do
  let maxStack ← Reader.uint16
  let maxLocals ← Reader.uint16
  let bytecode ← Reader.bytes (← Reader.nat 4)
  let exceptions ← Reader.list ExceptionEntry.read
  let attributes ← Reader.list Attribute.read
  return ⟨maxStack, maxLocals, bytecode, exceptions, attributes⟩

instance : AttributeContents Code := ⟨"Code", read, write⟩

end Code

end Preverification

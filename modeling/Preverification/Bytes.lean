import Preverification.StructuralError

/-!
# Bytes

Class files are sequences of bytes. Numbers stand with their highest byte first, and most lists are
preceded by a count of two bytes. A `Reader` takes a value off the front of its input and fails
where the input ends too early; the functions named `write` give the bytes back.
-/

namespace Preverification

/-- A class file or a part of one. -/
abbrev Bytes := List UInt8

namespace Bytes

/-- The last `width` base 256 digits of a number, the highest one first. -/
def ofNat : (width n : Nat) → Bytes
  | 0, _ => []
  | width + 1, n => ofNat width (n / 256) ++ [UInt8.ofNat n]

/-- The number with these base 256 digits. -/
def toNat (bytes : Bytes) : Nat := bytes.foldl (fun n byte => n * 256 + byte.toNat) 0

/-- One byte. -/
def ofUInt8 (n : UInt8) : Bytes := [n]

/-- The two bytes of a number. -/
def ofUInt16 (n : UInt16) : Bytes := ofNat 2 n.toNat

/-- A number in two bytes; higher digits are lost. -/
def ofCount (n : Nat) : Bytes := ofNat 2 n

/-- A number in four bytes; higher digits are lost. -/
def ofLength (n : Nat) : Bytes := ofNat 4 n

/-- The byte of a number in two's complement. -/
def ofInt8 (n : Int8) : Bytes := [n.toUInt8]

/-- The two bytes of a number in two's complement. -/
def ofInt16 (n : Int16) : Bytes := ofNat 2 n.toUInt16.toNat

/-- The four bytes of a number in two's complement. -/
def ofInt32 (n : Int32) : Bytes := ofNat 4 n.toUInt32.toNat

/-- The eight bytes of a number in two's complement. -/
def ofInt64 (n : Int64) : Bytes := ofNat 8 n.toUInt64.toNat

/-- A list behind the number of its elements. -/
def ofList {α : Type} (write : α → Bytes) (xs : List α) : Bytes :=
  ofCount xs.length ++ xs.flatMap write

end Bytes

/-- What is left to be read, and how much was read before. -/
structure Input where
  rest : Bytes
  position : Nat := 0
deriving Repr, Inhabited

/-- Takes a value off the front of the input. -/
abbrev Reader := EStateM StructuralError Input

namespace Reader

variable {α : Type}

/-- Runs a reader; the answer has what is left. -/
def run (read : Reader α) (bytes : Bytes) : Except StructuralError (α × Bytes) :=
  match read { rest := bytes } with
  | .ok value input => .ok (value, input.rest)
  | .error error _ => .error error

/-- The number of bytes that were read. -/
def position : Reader Nat := fun input => .ok input.position input

/-- Reads a number of bytes. -/
def bytes (count : Nat) : Reader Bytes := fun input =>
  let (front, rest) := input.rest.splitAt count
  if front.length = count then .ok front ⟨rest, input.position + count⟩
  else .error .unexpectedEnd input

/-- Reads one byte. -/
def uint8 : Reader UInt8 := fun input =>
  match input.rest with
  | [] => .error .unexpectedEnd input
  | byte :: rest => .ok byte ⟨rest, input.position + 1⟩

/-- Reads a number of `width` bytes. -/
def nat (width : Nat) : Reader Nat := return (← bytes width).toNat

/-- Reads a number of two bytes. -/
def uint16 : Reader UInt16 := return UInt16.ofNat (← nat 2)

/-- Reads a number of one byte in two's complement. -/
def int8 : Reader Int8 := return (← uint8).toInt8

/-- Reads a number of two bytes in two's complement. -/
def int16 : Reader Int16 := return (← uint16).toInt16

/-- Reads a number of four bytes in two's complement. -/
def int32 : Reader Int32 := return (UInt32.ofNat (← nat 4)).toInt32

/-- Reads a number of eight bytes in two's complement. -/
def int64 : Reader Int64 := return (UInt64.ofNat (← nat 8)).toInt64

/-- Reads one value after the other. Those in `found` were read before, the last one first. -/
def many (read : Reader α) (found : List α) : (count : Nat) → Reader (List α)
  | 0 => return found.reverse
  | count + 1 => do many read ((← read) :: found) count

/-- Reads a list behind the number of its elements. -/
def list (read : Reader α) : Reader (List α) := do many read [] (← nat 2)

end Reader

end Preverification

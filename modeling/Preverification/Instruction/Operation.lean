import Preverification.Constant.Pool
import Preverification.Instruction.Branch

/-!
# Operations

An `Operation` is any instruction, straight or branching. `Operation.read` takes one off the front
of some code; its targets are offsets from the start of that code, and the constants that it names
are of the right kind.
-/

namespace Preverification

open MonadExcept (ofExcept)

/-- An instruction, or a branch to places of type `L`. -/
inductive Operation (L : Type) where
  | step (instruction : Instruction)
  | branch (b : Branch L)
deriving DecidableEq, Repr

namespace Operation

variable {L M : Type}

/-- Whether the next instruction may come next. -/
def fallsThrough : Operation L → Bool
  | step _ => true
  | branch b => b.fallsThrough

/-- The places that the operation names. -/
def targets : Operation L → List L
  | step _ => []
  | branch b => b.targets

/-- Replaces the places that the operation names. -/
def map (f : L → M) : Operation L → Operation M
  | step instruction => step instruction
  | branch b => branch (b.map f)

/-- Whether the operation works on `float` or `double` values. -/
def isFloatingPoint : Operation L → Bool
  | step instruction => instruction.isFloatingPoint
  | branch b => b.isFloatingPoint

/-- Whether the operation is a subroutine call or return. -/
def isSubroutine : Operation L → Bool
  | step _ => false
  | branch b => b.isSubroutine

/-- The place at a distance from an offset, which has to be inside the code. -/
def resolve (length offset : Nat) (distance : Int) : Reader Nat :=
  let target := (offset : Int) + distance
  if 0 ≤ target ∧ target < length then return target.toNat
  else throw (.invalidBranchTarget offset target)

/-- Reads a distance of two bytes. -/
def readShort (length offset : Nat) : Reader Nat := do
  resolve length offset (← Reader.int16).toInt

/-- Reads a distance of four bytes. -/
def readLong (length offset : Nat) : Reader Nat := do
  resolve length offset (← Reader.int32).toInt

/-- Reads the operands of a switch by consecutive keys. -/
def readTableSwitch (length offset : Nat) (malformed : StructuralError) : Reader (Branch Nat) := do
  discard (Reader.bytes (Branch.padding offset))
  let default ← readLong length offset
  let low ← Reader.int32
  let high ← Reader.int32
  if high < low then throw malformed
  let count := (high.toInt - low.toInt).toNat + 1
  return .tableSwitch low default (← Reader.many (readLong length offset) [] count)

/-- Reads the operands of a switch by listed keys. -/
def readLookupSwitch (length offset : Nat) (malformed : StructuralError) : Reader (Branch Nat) := do
  discard (Reader.bytes (Branch.padding offset))
  let default ← readLong length offset
  let count ← Reader.int32
  if count < 0 then throw malformed
  let readCase := do
    let key ← Reader.int32
    return (key, ← readLong length offset)
  return .lookupSwitch default (← Reader.many readCase [] count.toInt.toNat)

/-- Reads an instruction whose operands are twice as long. -/
def readWide (malformed : StructuralError) : Reader (Operation Nat) := do
  let opcode ← Reader.uint8
  let slot ← Reader.uint16
  match Instruction.ofLocalOpcode? opcode slot with
  | some instruction => return step instruction
  | none =>
    if opcode = 0x84 then return step (.increment slot (← Reader.int16))
    else if opcode = 0xA9 then return branch (.ret slot)
    else throw malformed

/-- Reads the operands of an opcode that is neither a single byte nor a short branch. -/
def readOperands (pool : Pool) (length offset : Nat) (opcode : UInt8) :
    Reader (Operation Nat) := do
  let malformed := StructuralError.malformedInstruction opcode offset
  match opcode.toNat with
  | 0x10 => return step (.pushByte (← Reader.int8))
  | 0x11 => return step (.pushShort (← Reader.int16))
  | 0x12 =>
    let index := (← Reader.uint8).toUInt16
    return step (.loadConstant (← ofExcept (pool.loadableIndex index false)))
  | 0x13 =>
    let index ← Reader.uint16
    return step (.loadConstant (← ofExcept (pool.loadableIndex index false)))
  | 0x14 =>
    let index ← Reader.uint16
    return step (.loadWideConstant (← ofExcept (pool.loadableIndex index true)))
  | 0x84 =>
    let slot := (← Reader.uint8).toUInt16
    return step (.increment slot (← Reader.int8).toInt16)
  | 0xA9 => return branch (.ret (← Reader.uint8).toUInt16)
  | 0xAA => branch <$> readTableSwitch length offset malformed
  | 0xAB => branch <$> readLookupSwitch length offset malformed
  | 0xB2 => return step (.getStatic (← ofExcept (pool.fieldRefIndex (← Reader.uint16))))
  | 0xB3 => return step (.putStatic (← ofExcept (pool.fieldRefIndex (← Reader.uint16))))
  | 0xB4 => return step (.getField (← ofExcept (pool.fieldRefIndex (← Reader.uint16))))
  | 0xB5 => return step (.putField (← ofExcept (pool.fieldRefIndex (← Reader.uint16))))
  | 0xB6 => return step (.invoke .virtual (← ofExcept (pool.methodRefIndex (← Reader.uint16))))
  | 0xB7 => return step (.invoke .special (← ofExcept (pool.methodRefIndex (← Reader.uint16))))
  | 0xB8 => return step (.invoke .static (← ofExcept (pool.methodRefIndex (← Reader.uint16))))
  | 0xB9 =>
    let method ← ofExcept (pool.methodRefIndex (← Reader.uint16))
    let slots ← Reader.uint8
    let filler ← Reader.uint8
    if filler ≠ 0 ∨ slots = 0 then throw malformed
    return step (.invoke (.interface slots) method)
  | 0xBA =>
    let site ← ofExcept (pool.invokeDynamicIndex (← Reader.uint16))
    let filler ← Reader.uint16
    if filler ≠ 0 then throw malformed
    return step (.invokeDynamic site)
  | 0xBB => return step (.new (← ofExcept (pool.classIndex (← Reader.uint16))))
  | 0xBC =>
    match BaseType.ofArrayCode? (← Reader.uint8) with
    | some element => return step (.newArray element)
    | none => throw malformed
  | 0xBD => return step (.newRefArray (← ofExcept (pool.classIndex (← Reader.uint16))))
  | 0xC0 => return step (.checkCast (← ofExcept (pool.classIndex (← Reader.uint16))))
  | 0xC1 => return step (.instanceOf (← ofExcept (pool.classIndex (← Reader.uint16))))
  | 0xC4 => readWide malformed
  | 0xC5 =>
    let type ← ofExcept (pool.classIndex (← Reader.uint16))
    let dimensions ← Reader.uint8
    if dimensions = 0 then throw malformed
    return step (.newMultiArray type dimensions)
  | 0xC8 => return branch (.goto (← readLong length offset))
  | 0xC9 => return branch (.jsr (← readLong length offset))
  | _ =>
    match Instruction.ofLocalOpcode? opcode 0 with
    | some _ =>
      let slot := (← Reader.uint8).toUInt16
      match Instruction.ofLocalOpcode? opcode slot with
      | some instruction => return step instruction
      | none => throw malformed
    | none => throw (.unknownOpcode opcode offset)

/-- Whether an opcode is that of a branch whose only operand is a distance of two bytes. -/
def isShortBranch (opcode : UInt8) : Bool :=
  (0x99 ≤ opcode && opcode ≤ 0xA8) || opcode = 0xC6 || opcode = 0xC7

/-- Reads the operation at an offset of code of some length. -/
def read (pool : Pool) (length offset : Nat) : Reader (Operation Nat) := do
  let opcode ← Reader.uint8
  match Instruction.ofByte? opcode with
  | some instruction => return step instruction
  | none =>
    match Branch.ofByte? opcode with
    | some found => return branch found
    | none =>
      if isShortBranch opcode then
        let target ← readShort length offset
        match Branch.ofShortOpcode? opcode target with
        | some found => return branch found
        | none => throw (.malformedInstruction opcode offset)
      else readOperands pool length offset opcode

end Operation

end Preverification

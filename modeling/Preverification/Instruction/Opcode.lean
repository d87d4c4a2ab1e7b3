import Preverification.Instruction.Basic

/-!
# Opcodes

The bytes of instructions. An instruction is always written in its shortest form: one byte where the
opcode says everything, and behind the `wide` opcode only when an operand does not fit otherwise.
-/

namespace Preverification.Instruction

/-- The opcode in front of an instruction whose operands are twice as long. -/
def wide : UInt8 := 0xC4

/-- The bytes of a load or a store with a normal opcode, and with the first of four short ones. -/
def writeLocal (normal short : UInt8) (slot : UInt16) : Bytes :=
  if slot ≤ 3 then [short + slot.toUInt8]
  else if slot ≤ 255 then [normal, slot.toUInt8]
  else wide :: normal :: Bytes.ofUInt16 slot

/-- The bytes of an instruction. -/
def write : Instruction → Bytes
  | nop => [0x00]
  | nullConst => [0x01]
  | intConst choice => [0x02 + UInt8.ofNat choice]
  | longConst value => [0x09 + UInt8.ofNat value]
  | floatConst value => [0x0B + UInt8.ofNat value]
  | doubleConst value => [0x0E + UInt8.ofNat value]
  | pushByte value => 0x10 :: Bytes.ofInt8 value
  | pushShort value => 0x11 :: Bytes.ofInt16 value
  | loadConstant constant =>
    if constant ≤ 255 then [0x12, constant.toUInt8] else 0x13 :: Bytes.ofUInt16 constant
  | loadWideConstant constant => 0x14 :: Bytes.ofUInt16 constant
  | load kind slot => writeLocal (0x15 + kind.rank) (0x1A + 4 * kind.rank) slot
  | store kind slot => writeLocal (0x36 + kind.rank) (0x3B + 4 * kind.rank) slot
  | arrayLoad kind => [0x2E + kind.rank]
  | arrayStore kind => [0x4F + kind.rank]
  | shuffle op => [0x57 + op.rank]
  | arithmetic op kind => [0x60 + 4 * op.rank + kind.rank]
  | negate kind => [0x74 + kind.rank]
  | shift op kind => [0x78 + 2 * op.rank + kind.rank]
  | bitwise op kind => [0x7E + 2 * op.rank + kind.rank]
  | increment slot amount =>
    if slot ≤ 255 ∧ -128 ≤ amount ∧ amount ≤ 127 then
      0x84 :: slot.toUInt8 :: Bytes.ofInt8 amount.toInt8
    else wide :: 0x84 :: Bytes.ofUInt16 slot ++ Bytes.ofInt16 amount
  | convert source target _ =>
    [0x85 + 3 * source.rank + (if target.rank < source.rank then target.rank else target.rank - 1)]
  | narrow target => [0x91 + target.rank]
  | compareLongs => [0x94]
  | compareFloats unordered => [0x95 + unordered.rank]
  | compareDoubles unordered => [0x97 + unordered.rank]
  | getStatic fieldRef => 0xB2 :: Bytes.ofUInt16 fieldRef
  | putStatic fieldRef => 0xB3 :: Bytes.ofUInt16 fieldRef
  | getField fieldRef => 0xB4 :: Bytes.ofUInt16 fieldRef
  | putField fieldRef => 0xB5 :: Bytes.ofUInt16 fieldRef
  | invoke .virtual method => 0xB6 :: Bytes.ofUInt16 method
  | invoke .special method => 0xB7 :: Bytes.ofUInt16 method
  | invoke .static method => 0xB8 :: Bytes.ofUInt16 method
  | invoke (.interface slots) method => 0xB9 :: Bytes.ofUInt16 method ++ [slots, 0]
  | invokeDynamic site => 0xBA :: Bytes.ofUInt16 site ++ [0, 0]
  | new type => 0xBB :: Bytes.ofUInt16 type
  | newArray element => [0xBC, element.arrayCode]
  | newRefArray element => 0xBD :: Bytes.ofUInt16 element
  | arrayLength => [0xBE]
  | checkCast type => 0xC0 :: Bytes.ofUInt16 type
  | instanceOf type => 0xC1 :: Bytes.ofUInt16 type
  | monitorEnter => [0xC2]
  | monitorExit => [0xC3]
  | newMultiArray type dimensions => 0xC5 :: Bytes.ofUInt16 type ++ [dimensions]

/-- The number of bytes of a load or a store. -/
def localBytes (slot : UInt16) : Nat := if slot ≤ 3 then 1 else if slot ≤ 255 then 2 else 4

/-- An instruction takes up as many slots of a method's code as it has bytes. -/
instance : HasWidth Instruction where
  width
    | pushByte _ | newArray _ => 2
    | loadConstant constant => if constant ≤ 255 then 2 else 3
    | load _ slot | store _ slot => localBytes slot
    | increment slot amount => if slot ≤ 255 ∧ -128 ≤ amount ∧ amount ≤ 127 then 3 else 6
    | pushShort _ | loadWideConstant _ | getStatic _ | putStatic _ | getField _ | putField _
    | invoke .virtual _ | invoke .special _ | invoke .static _ | new _ | newRefArray _
    | checkCast _ | instanceOf _ => 3
    | newMultiArray _ _ => 4
    | invoke (.interface _) _ | invokeDynamic _ => 5
    | _ => 1

/-- The instructions that one byte can say, in the order of that byte. -/
def singleBytes : List Instruction :=
  [nop, nullConst] ++ (List.finRange 7).map intConst ++ (List.finRange 2).map longConst ++
  (List.finRange 3).map floatConst ++ (List.finRange 2).map doubleConst ++
  ValueKind.all.flatMap (fun kind => [0, 1, 2, 3].map (load kind)) ++
  ElementKind.all.map arrayLoad ++
  ValueKind.all.flatMap (fun kind => [0, 1, 2, 3].map (store kind)) ++
  ElementKind.all.map arrayStore ++ StackShuffle.all.map shuffle ++
  ArithmeticOp.all.flatMap (fun op => NumberKind.all.map (arithmetic op)) ++
  NumberKind.all.map negate ++
  ShiftOp.all.flatMap (fun op => IntegralKind.all.map (shift op)) ++
  BitwiseOp.all.flatMap (fun op => IntegralKind.all.map (bitwise op)) ++
  NumberKind.all.flatMap (fun source => NumberKind.all.filterMap fun target =>
    if h : source ≠ target then some (convert source target h) else none) ++
  NarrowKind.all.map narrow ++ [compareLongs] ++ UnorderedResult.all.map compareFloats ++
  UnorderedResult.all.map compareDoubles ++ [arrayLength, monitorEnter, monitorExit]

/-- For each byte the instruction that it says alone. -/
def byteTable : Array (Option Instruction) :=
  (Array.range 256).map fun byte =>
    singleBytes.find? fun instruction => instruction.write == [UInt8.ofNat byte]

/-- The instruction that a byte says alone. -/
def ofByte? (opcode : UInt8) : Option Instruction := byteTable[opcode.toNat]?.join

theorem ofByte?_eq_find? (opcode : UInt8) :
    ofByte? opcode = singleBytes.find? fun instruction => instruction.write == [opcode] := by
  have h : opcode.toNat < 256 := opcode.toNat_lt
  simp [ofByte?, byteTable, h]

/-- The load or store with a normal opcode. -/
def ofLocalOpcode? (opcode : UInt8) (slot : UInt16) : Option Instruction :=
  match ValueKind.all.find? (0x15 + ·.rank == opcode) with
  | some kind => some (load kind slot)
  | none => (ValueKind.all.find? (0x36 + ·.rank == opcode)).map (store · slot)

end Preverification.Instruction

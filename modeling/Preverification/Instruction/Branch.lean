import Preverification.Instruction.Opcode

/-!
# Branches

The instructions that may continue somewhere else than with the next one. What a branch leads to is
a parameter: an offset while code is read, a label while it is worked on, and a distance while it is
written. Subroutine calls and returns are branches too; they are gone once a body has been inlined.
-/

namespace Preverification

/-- Comparisons of `int` values. -/
inductive Comparison where
  | eq | ne | lt | ge | gt | le
deriving DecidableEq, Repr

namespace Comparison

/-- The comparisons in the order of their opcodes. -/
def all : List Comparison := [eq, ne, lt, ge, gt, le]

/-- The position of a comparison in the order of opcodes. -/
def rank : Comparison → UInt8
  | eq => 0 | ne => 1 | lt => 2 | ge => 3 | gt => 4 | le => 5

end Comparison

/-- Comparisons of references. -/
inductive Equality where
  | eq | ne
deriving DecidableEq, Repr

namespace Equality

/-- The comparisons in the order of their opcodes. -/
def all : List Equality := [eq, ne]

/-- The position of a comparison in the order of opcodes. -/
def rank : Equality → UInt8
  | eq => 0 | ne => 1

end Equality

/-- An instruction that may continue at places of type `L`. Conditional ones compare an `int` with
zero, two `int` values, two references, or a reference with null. A call of a subroutine leaves the
place behind it on the stack, and `ret` continues at the place that a local holds. A table switch
chooses by consecutive keys from `low` on, and a lookup switch by the keys in front of the targets.
-/
inductive Branch (L : Type) where
  | ifInt (test : Comparison) (target : L)
  | ifInts (test : Comparison) (target : L)
  | ifRefs (test : Equality) (target : L)
  | ifNull (test : Equality) (target : L)
  | goto (target : L)
  | jsr (target : L)
  | ret (slot : UInt16)
  | tableSwitch (low : Int32) (default : L) (targets : List L)
  | lookupSwitch (default : L) (cases : List (Int32 × L))
  | returnValue (kind : ValueKind)
  | returnVoid
  | throwException
deriving DecidableEq, Repr

namespace Branch

variable {L M : Type}

/-- Whether the next instruction may come next. A subroutine comes back there only by way of its
own return, which does not count. -/
def fallsThrough : Branch L → Bool
  | ifInt .. | ifInts .. | ifRefs .. | ifNull .. => true
  | _ => false

/-- Whether the branch is a subroutine call or return. -/
def isSubroutine : Branch L → Bool
  | jsr _ | ret _ => true
  | _ => false

/-- Whether the branch is taken on a condition. Such branches reach only 32767 bytes far. -/
def isConditional (branch : Branch L) : Bool := branch.fallsThrough

/-- Whether the branch returns a `float` or `double`. -/
def isFloatingPoint : Branch L → Bool
  | returnValue kind => kind = .float || kind = .double
  | _ => false

/-- The places that the branch names, in the order of its operands. -/
def targets : Branch L → List L
  | ifInt _ target | ifInts _ target | ifRefs _ target | ifNull _ target => [target]
  | goto target | jsr target => [target]
  | tableSwitch _ default targets => default :: targets
  | lookupSwitch default cases => default :: cases.map (·.2)
  | ret _ | returnValue _ | returnVoid | throwException => []

/-- Replaces the places that the branch names. -/
def map (f : L → M) : Branch L → Branch M
  | ifInt test target => ifInt test (f target)
  | ifInts test target => ifInts test (f target)
  | ifRefs test target => ifRefs test (f target)
  | ifNull test target => ifNull test (f target)
  | goto target => goto (f target)
  | jsr target => jsr (f target)
  | ret slot => ret slot
  | tableSwitch low default targets => tableSwitch low (f default) (targets.map f)
  | lookupSwitch default cases => lookupSwitch (f default) (cases.map fun (key, t) => (key, f t))
  | returnValue kind => returnValue kind
  | returnVoid => returnVoid
  | throwException => throwException

/-! ### The form in a class file -/

/-- The number of bytes that bring the operands of a switch at an offset to a multiple of four. -/
def padding (offset : Nat) : Nat := 3 - offset % 4

/-- The number of bytes of a branch at an offset. Jumps have a `long` form too, which reaches
everywhere. -/
def width (long : Bool) (offset : Nat) : Branch L → Nat
  | ifInt .. | ifInts .. | ifRefs .. | ifNull .. => 3
  | goto _ | jsr _ => if long then 5 else 3
  | ret slot => if slot ≤ 255 then 2 else 4
  | tableSwitch _ _ targets => 1 + padding offset + 4 * (3 + targets.length)
  | lookupSwitch _ cases => 1 + padding offset + 8 * (1 + cases.length)
  | returnValue _ | returnVoid | throwException => 1

/-- Whether a distance fits into two bytes. -/
def isShort (distance : Int) : Bool := decide (-32768 ≤ distance) && decide (distance ≤ 32767)

/-- Whether a distance fits into four bytes. -/
def isLong (distance : Int) : Bool :=
  decide (-2147483648 ≤ distance) && decide (distance ≤ 2147483647)

/-- Whether the distances of a branch fit into the bytes that it has for them. -/
def hasRoom (long : Bool) : Branch Int → Bool
  | ifInt _ target | ifInts _ target | ifRefs _ target | ifNull _ target => isShort target
  | goto target | jsr target => if long then isLong target else isShort target
  | tableSwitch _ default targets => isLong default && targets.all isLong
  | lookupSwitch default cases => isLong default && cases.all fun (_, target) => isLong target
  | ret _ | returnValue _ | returnVoid | throwException => true

/-- A distance in two bytes. -/
def writeShort (distance : Int) : Bytes := Bytes.ofInt16 (Int16.ofInt distance)

/-- A distance in four bytes. -/
def writeLong (distance : Int) : Bytes := Bytes.ofInt32 (Int32.ofInt distance)

/-- The bytes of a branch at an offset whose targets are given by their distances from it. -/
def write (long : Bool) (offset : Nat) : Branch Int → Bytes
  | ifInt test target => (0x99 + test.rank) :: writeShort target
  | ifInts test target => (0x9F + test.rank) :: writeShort target
  | ifRefs test target => (0xA5 + test.rank) :: writeShort target
  | ifNull test target => (0xC6 + test.rank) :: writeShort target
  | goto target => if long then 0xC8 :: writeLong target else 0xA7 :: writeShort target
  | jsr target => if long then 0xC9 :: writeLong target else 0xA8 :: writeShort target
  | ret slot =>
    if slot ≤ 255 then [0xA9, slot.toUInt8] else Instruction.wide :: 0xA9 :: Bytes.ofUInt16 slot
  | tableSwitch low default targets =>
    0xAA :: List.replicate (padding offset) 0 ++ writeLong default ++ Bytes.ofInt32 low ++
      Bytes.ofInt32 (low + Int32.ofNat targets.length - 1) ++ targets.flatMap writeLong
  | lookupSwitch default cases =>
    0xAB :: List.replicate (padding offset) 0 ++ writeLong default ++
      Bytes.ofInt32 (Int32.ofNat cases.length) ++
      cases.flatMap fun (key, target) => Bytes.ofInt32 key ++ writeLong target
  | returnValue kind => [0xAC + kind.rank]
  | returnVoid => [0xB1]
  | throwException => [0xBF]

/-- The branch with an opcode whose only operand is a distance of two bytes. -/
def ofShortOpcode? (opcode : UInt8) (target : L) : Option (Branch L) :=
  (Comparison.all.map (ifInt · target) ++ Comparison.all.map (ifInts · target) ++
    Equality.all.map (ifRefs · target) ++ Equality.all.map (ifNull · target) ++
    [goto target, jsr target]).find? fun branch =>
      ((branch.map fun _ => (0 : Int)).write false 0).head? == some opcode

/-- The branch that a byte says alone. -/
def ofByte? (opcode : UInt8) : Option (Branch L) :=
  (ValueKind.all.map returnValue ++ [returnVoid, throwException]).find? fun branch =>
    ((branch.map fun _ => (0 : Int)).write false 0) == [opcode]

end Branch

end Preverification

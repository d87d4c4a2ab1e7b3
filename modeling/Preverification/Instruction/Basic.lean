import Preverification.Constant.Basic

/-!
# Instructions

The instructions that always continue with the next one. Families of instructions that differ in the
kind of their operands are one constructor with a parameter, and the several encodings of one
instruction are one value. Instructions that may continue elsewhere are in
`Preverification.Instruction.Branch`.
-/

namespace Preverification

/-- The kinds of values that locals and the operand stack hold. -/
inductive ValueKind where
  | int | long | float | double | reference
deriving DecidableEq, Repr

namespace ValueKind

/-- The kinds in the order of their opcodes. -/
def all : List ValueKind := [int, long, float, double, reference]

/-- The position of a kind in the order of opcodes. -/
def rank : ValueKind → UInt8
  | int => 0 | long => 1 | float => 2 | double => 3 | reference => 4

end ValueKind

/-- The kinds of numbers that arithmetic is done on. -/
inductive NumberKind where
  | int | long | float | double
deriving DecidableEq, Repr

namespace NumberKind

/-- The kinds in the order of their opcodes. -/
def all : List NumberKind := [int, long, float, double]

/-- The position of a kind in the order of opcodes. -/
def rank : NumberKind → UInt8
  | int => 0 | long => 1 | float => 2 | double => 3

/-- Whether the kind is `float` or `double`. -/
def isFloatingPoint : NumberKind → Bool
  | float | double => true
  | int | long => false

end NumberKind

/-- The kinds of numbers whose bits are worked on. -/
inductive IntegralKind where
  | int | long
deriving DecidableEq, Repr

namespace IntegralKind

/-- The kinds in the order of their opcodes. -/
def all : List IntegralKind := [int, long]

/-- The position of a kind in the order of opcodes. -/
def rank : IntegralKind → UInt8
  | int => 0 | long => 1

end IntegralKind

/-- The kinds of elements of arrays. Bytes and booleans are one kind. -/
inductive ElementKind where
  | int | long | float | double | reference | byte | char | short
deriving DecidableEq, Repr

namespace ElementKind

/-- The kinds in the order of their opcodes. -/
def all : List ElementKind := [int, long, float, double, reference, byte, char, short]

/-- The position of a kind in the order of opcodes. -/
def rank : ElementKind → UInt8
  | int => 0 | long => 1 | float => 2 | double => 3
  | reference => 4 | byte => 5 | char => 6 | short => 7

end ElementKind

/-- Ways to remove, copy and reorder the slots on top of the stack. -/
inductive StackShuffle where
  | pop | pop2 | dup | dupX1 | dupX2 | dup2 | dup2X1 | dup2X2 | swap
deriving DecidableEq, Repr

namespace StackShuffle

/-- The shuffles in the order of their opcodes. -/
def all : List StackShuffle := [pop, pop2, dup, dupX1, dupX2, dup2, dup2X1, dup2X2, swap]

/-- The position of a shuffle in the order of opcodes. -/
def rank : StackShuffle → UInt8
  | pop => 0 | pop2 => 1 | dup => 2 | dupX1 => 3 | dupX2 => 4
  | dup2 => 5 | dup2X1 => 6 | dup2X2 => 7 | swap => 8

end StackShuffle

/-- Operations on two numbers of one kind. -/
inductive ArithmeticOp where
  | add | sub | mul | div | rem
deriving DecidableEq, Repr

namespace ArithmeticOp

/-- The operations in the order of their opcodes. -/
def all : List ArithmeticOp := [add, sub, mul, div, rem]

/-- The position of an operation in the order of opcodes. -/
def rank : ArithmeticOp → UInt8
  | add => 0 | sub => 1 | mul => 2 | div => 3 | rem => 4

end ArithmeticOp

/-- Shifts of a number by an `int`. -/
inductive ShiftOp where
  | left | arithmeticRight | logicalRight
deriving DecidableEq, Repr

namespace ShiftOp

/-- The shifts in the order of their opcodes. -/
def all : List ShiftOp := [left, arithmeticRight, logicalRight]

/-- The position of a shift in the order of opcodes. -/
def rank : ShiftOp → UInt8
  | left => 0 | arithmeticRight => 1 | logicalRight => 2

end ShiftOp

/-- Operations on the bits of two numbers of one kind. -/
inductive BitwiseOp where
  | and | or | xor
deriving DecidableEq, Repr

namespace BitwiseOp

/-- The operations in the order of their opcodes. -/
def all : List BitwiseOp := [and, or, xor]

/-- The position of an operation in the order of opcodes. -/
def rank : BitwiseOp → UInt8
  | and => 0 | or => 1 | xor => 2

end BitwiseOp

/-- The smaller kinds that an `int` is cut down to. -/
inductive NarrowKind where
  | byte | char | short
deriving DecidableEq, Repr

namespace NarrowKind

/-- The kinds in the order of their opcodes. -/
def all : List NarrowKind := [byte, char, short]

/-- The position of a kind in the order of opcodes. -/
def rank : NarrowKind → UInt8
  | byte => 0 | char => 1 | short => 2

end NarrowKind

/-- What a comparison of floating-point values answers if one of them is not a number. -/
inductive UnorderedResult where
  | less | greater
deriving DecidableEq, Repr

namespace UnorderedResult

/-- The results in the order of their opcodes. -/
def all : List UnorderedResult := [less, greater]

/-- The position of a result in the order of opcodes. -/
def rank : UnorderedResult → UInt8
  | less => 0 | greater => 1

end UnorderedResult

/-- How the method that is called is chosen. A call of a method of an interface has the number of
slots that the arguments take up. -/
inductive InvokeKind where
  | virtual | special | static
  | interface (slots : UInt8)
deriving DecidableEq, Repr

/-- An instruction that continues with the next one. An `int` constant is one of those from minus
one to five, and zero is the choice of the first of them. Bytes and shorts are pushed as `int`
values too. -/
inductive Instruction where
  | nop
  | nullConst
  | intConst (choice : Fin 7)
  | longConst (value : Fin 2)
  | floatConst (value : Fin 3)
  | doubleConst (value : Fin 2)
  | pushByte (value : Int8)
  | pushShort (value : Int16)
  | loadConstant (constant : PoolIndex)
  | loadWideConstant (constant : PoolIndex)
  | load (kind : ValueKind) (slot : UInt16)
  | store (kind : ValueKind) (slot : UInt16)
  | arrayLoad (kind : ElementKind)
  | arrayStore (kind : ElementKind)
  | shuffle (op : StackShuffle)
  | arithmetic (op : ArithmeticOp) (kind : NumberKind)
  | negate (kind : NumberKind)
  | shift (op : ShiftOp) (kind : IntegralKind)
  | bitwise (op : BitwiseOp) (kind : IntegralKind)
  | increment (slot : UInt16) (amount : Int16)
  | convert (source target : NumberKind) (distinct : source ≠ target)
  | narrow (target : NarrowKind)
  | compareLongs
  | compareFloats (unordered : UnorderedResult)
  | compareDoubles (unordered : UnorderedResult)
  | getStatic (fieldRef : PoolIndex)
  | putStatic (fieldRef : PoolIndex)
  | getField (fieldRef : PoolIndex)
  | putField (fieldRef : PoolIndex)
  | invoke (kind : InvokeKind) (method : PoolIndex)
  | invokeDynamic (site : PoolIndex)
  | new (type : PoolIndex)
  | newArray (element : BaseType)
  | newRefArray (element : PoolIndex)
  | arrayLength
  | checkCast (type : PoolIndex)
  | instanceOf (type : PoolIndex)
  | monitorEnter
  | monitorExit
  | newMultiArray (type : PoolIndex) (dimensions : UInt8)
deriving DecidableEq, Repr, Inhabited

namespace Instruction

/-- Whether the instruction works on `float` or `double` values. Fields and calls are not counted:
their types are looked at where they are declared. -/
def isFloatingPoint : Instruction → Bool
  | floatConst _ | doubleConst _ | compareFloats _ | compareDoubles _ => true
  | load kind _ | store kind _ => kind = .float || kind = .double
  | arrayLoad kind | arrayStore kind => kind = .float || kind = .double
  | arithmetic _ kind | negate kind => kind.isFloatingPoint
  | convert source target _ => source.isFloatingPoint || target.isFloatingPoint
  | _ => false

end Instruction

end Preverification

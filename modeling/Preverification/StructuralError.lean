import Preverification.Descriptor.Parser
import Preverification.Hexadecimal
import Preverification.Label

/-!
# Structural errors

What can be wrong with the form of a class file or of a method body. Each constructor is one cause;
`StructuralError.message` words it.
-/

namespace Preverification

/-- What kind of constant an index has to point at. Loadable constants are those of one slot, or
wide ones of two, and `insidePool` stands for a constant that ends within the pool. -/
inductive Expectation where
  | utf8 | classRef | fieldRef | methodRef | invokeDynamic | nameAndType
  | wideLoadable
  | loadable
  | insidePool
  | anything
deriving DecidableEq, Repr

/-- The words for what was expected. -/
def Expectation.text : Expectation → String
  | utf8 => "Utf8"
  | classRef => "Class"
  | fieldRef => "Fieldref"
  | methodRef => "Methodref"
  | invokeDynamic => "InvokeDynamic"
  | nameAndType => "NameAndType"
  | wideLoadable => "Long or Double"
  | loadable => "loadable constant"
  | insidePool => "constant inside the pool"
  | anything => "anything"

/-- A flaw in the form of a class file or of a method body. What is wrong with a constant comes with
its index, what is wrong with an instruction with its offset, and what is over a limit with its
size. A method with two code attributes counts as one without code. -/
inductive StructuralError where
  | unexpectedEnd
  | badMagic (magic : Nat)
  | badConstantTag (index : UInt16) (tag : UInt8)
  | badConstantIndex (index : UInt16) (expected : Expectation)
  | malformedUtf8 (index : UInt16)
  | badDescriptor (fault : DescriptorFault)
  | badName (fault : NameFault)
  | poolOverflow (offset : Nat)
  | unknownOpcode (opcode : UInt8) (offset : Nat)
  | malformedInstruction (opcode : UInt8) (offset : Nat)
  | invalidBranchTarget (offset : Nat) (target : Int)
  | invalidCodeRange (start stop : Nat)
  | malformedAttribute (name : String)
  | trailingBytes (count : Nat)
  | missingCode
  | codeTooLong (length : Nat)
  | stackTooHigh (slots : Nat)
  | tooManyLocals (slots : Nat)
  | branchTooFar (target : Label)
  | unplacedLabel (label : Label)
  | duplicateLabel (label : Label)
  | inputFailure (reason : String)
deriving DecidableEq, Repr

/-- The text of an error. -/
def StructuralError.message : StructuralError → String
  | unexpectedEnd => "unexpected end of class file"
  | badMagic magic => "bad magic number " ++ Hexadecimal.render 8 magic
  | badConstantTag index tag =>
    "unknown constant tag " ++ toString tag.toNat ++ " at index " ++ toString index.toNat
  | badConstantIndex index expected =>
    "constant #" ++ toString index.toNat ++ " is not a valid " ++ expected.text
  | malformedUtf8 index => "constant #" ++ toString index.toNat ++ " is not modified UTF-8"
  | badDescriptor fault => "bad descriptor: " ++ fault.message
  | badName fault => "bad name: " ++ fault.message
  | poolOverflow offset => "constant pool overflow at " ++ toString offset
  | unknownOpcode opcode offset =>
    "unknown opcode " ++ Hexadecimal.render 2 opcode.toNat ++ " at offset " ++ toString offset
  | malformedInstruction opcode offset =>
    "malformed operands for opcode " ++ Hexadecimal.render 2 opcode.toNat ++ " at offset " ++
      toString offset
  | invalidBranchTarget offset target =>
    "branch at " ++ toString offset ++ " targets invalid offset " ++ toString target
  | invalidCodeRange start stop =>
    "invalid code range " ++ toString start ++ ".." ++ toString stop
  | malformedAttribute name => "malformed " ++ name ++ " attribute"
  | trailingBytes count => toString count ++ " bytes after end of class"
  | missingCode => "method has no usable Code attribute"
  | codeTooLong length => "method code is " ++ toString length ++ " bytes long"
  | stackTooHigh slots => "operand stack needs " ++ toString slots ++ " slots"
  | tooManyLocals slots => "locals need " ++ toString slots ++ " slots"
  | branchTooFar target => "branch to " ++ target.text ++ " does not fit in 16 bits"
  | unplacedLabel label => "label " ++ label.text ++ " is never placed"
  | duplicateLabel label => "label " ++ label.text ++ " is placed twice"
  | inputFailure reason => "I/O error: " ++ reason

/-- Reads a primitive type off a whole text, as part of a class file. -/
def BaseType.ofDescriptor (source : String) : Except StructuralError BaseType :=
  (BaseType.parse source).mapError .badDescriptor

/-- Reads a field type off a whole text, as part of a class file. -/
def FieldType.ofDescriptor (source : String) : Except StructuralError FieldType :=
  (FieldType.parse source).mapError .badDescriptor

/-- Reads a reference type off a whole text, as part of a class file. -/
def RefType.ofDescriptor (source : String) : Except StructuralError RefType :=
  (RefType.parse source).mapError .badDescriptor

/-- Reads the descriptor of a class off a whole text, as part of a class file. -/
def BinaryName.ofDescriptor (source : String) : Except StructuralError BinaryName :=
  (BinaryName.parse source).mapError .badDescriptor

/-- Reads a method signature off a whole text, as part of a class file. -/
def MethodDescriptor.ofDescriptor (source : String) : Except StructuralError MethodDescriptor :=
  (MethodDescriptor.parse source).mapError .badDescriptor

/-- Reads the text of a class constant: arrays are named by their descriptor, and every other class
by its bare name. -/
def RefType.ofClassConstant (source : String) : Except StructuralError RefType :=
  match source.toList with
  | '[' :: _ => RefType.ofDescriptor source
  | _ => ((BinaryName.ofString source).map RefType.object).mapError .badName

end Preverification

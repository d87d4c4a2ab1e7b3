import Preverification.Name
import Preverification.WidthVector

/-!
# Descriptors

The types of fields and the signatures of methods, and the texts that stand for them in a class
file. `render` gives the text of a type; reading it back is in `Preverification.Descriptor.Parser`.
-/

namespace Preverification

/-- Primitive types. -/
inductive BaseType where
  | byte | char | double | float | int | long | short | boolean
deriving DecidableEq, Hashable, Repr, Inhabited

namespace BaseType

/-- Whether the type is `float` or `double`. -/
def isFloatingPoint : BaseType → Bool
  | float | double => true
  | _ => false

/-- The operand with which `newarray` asks for elements of the type. -/
def arrayCode : BaseType → UInt8
  | boolean => 4 | char => 5 | float => 6 | double => 7
  | byte => 8 | short => 9 | int => 10 | long => 11

/-- The element type that an operand of `newarray` asks for. -/
def ofArrayCode? (code : UInt8) : Option BaseType :=
  [boolean, char, float, double, byte, short, int, long].find? (·.arrayCode == code)

instance : HasWidth BaseType where
  width
    | double | long => 2
    | _ => 1

/-- The letter of the type. -/
def letter : BaseType → Char
  | byte => 'B' | char => 'C' | double => 'D' | float => 'F'
  | int => 'I' | long => 'J' | short => 'S' | boolean => 'Z'

/-- The type of a letter. -/
def ofLetter? (c : Char) : Option BaseType :=
  [byte, char, double, float, int, long, short, boolean].find? (·.letter == c)

end BaseType

/-- Reference types: classes and interfaces, and arrays by what their innermost elements are. An
array has one dimension more than `extra`. -/
inductive RefType where
  | object (name : BinaryName)
  | objectArray (extra : Nat) (element : BinaryName)
  | primitiveArray (extra : Nat) (element : BaseType)
deriving DecidableEq, Hashable, Repr, Inhabited

/-- Types of fields, parameters and results. -/
inductive FieldType where
  | base (type : BaseType)
  | ref (type : RefType)
deriving DecidableEq, Hashable, Repr, Inhabited

namespace FieldType

/-- The type of the objects of a class. -/
def object (name : BinaryName) : FieldType := .ref (.object name)

instance : HasWidth FieldType where
  width
    | base type => width type
    | ref _ => 1

end FieldType

namespace RefType

/-- The array type with elements of a type. -/
def arrayOf : FieldType → RefType
  | .base type => primitiveArray 0 type
  | .ref (object name) => objectArray 0 name
  | .ref (objectArray extra name) => objectArray (extra + 1) name
  | .ref (primitiveArray extra type) => primitiveArray (extra + 1) type

/-- The type of the elements of an array type. -/
def element? : RefType → Option FieldType
  | object _ => none
  | objectArray 0 name => some (.object name)
  | objectArray (extra + 1) name => some (.ref (objectArray extra name))
  | primitiveArray 0 type => some (.base type)
  | primitiveArray (extra + 1) type => some (.ref (primitiveArray extra type))

/-- What is left when every dimension is taken away. -/
def innermost : RefType → FieldType
  | object name => .object name
  | objectArray _ name => .object name
  | primitiveArray _ type => .base type

/-- The number of dimensions; a class has none. -/
def dimensions : RefType → Nat
  | object _ => 0
  | objectArray extra _ => extra + 1
  | primitiveArray extra _ => extra + 1

end RefType

/-- What is left of a type when every dimension is taken away. -/
def FieldType.innermost : FieldType → FieldType
  | base type => base type
  | ref type => type.innermost

/-- The signature of a method. There is no return type if the method returns nothing. -/
structure MethodDescriptor where
  parameters : List FieldType
  returnType : Option FieldType
deriving DecidableEq, Repr, Inhabited

/-! ### Texts -/

/-- The text of a class as a descriptor: `L`, the name and a semicolon. -/
def BinaryName.descriptor (name : BinaryName) : List Char := 'L' :: name.text.toList ++ [';']

/-- The text of a reference type. -/
def RefType.descriptor : RefType → List Char
  | object name => name.descriptor
  | objectArray extra name => List.replicate (extra + 1) '[' ++ name.descriptor
  | primitiveArray extra type => List.replicate (extra + 1) '[' ++ [type.letter]

/-- The text of a field type. -/
def FieldType.descriptor : FieldType → List Char
  | base type => [type.letter]
  | ref type => type.descriptor

/-- The text of a method signature: the parameters in parentheses, then the result, `V` for none. -/
def MethodDescriptor.descriptor (method : MethodDescriptor) : List Char :=
  '(' :: method.parameters.flatMap FieldType.descriptor ++ ')' ::
    (match method.returnType with
      | none => ['V']
      | some type => type.descriptor)

/-- The text of a primitive type. -/
def BaseType.render (type : BaseType) : String := String.ofList [type.letter]

/-- The text of a class as a descriptor. -/
def BinaryName.render (name : BinaryName) : String := String.ofList name.descriptor

/-- The text of a reference type. -/
def RefType.render (type : RefType) : String := String.ofList type.descriptor

/-- The text of a field type. -/
def FieldType.render (type : FieldType) : String := String.ofList type.descriptor

/-- The text of a method signature. -/
def MethodDescriptor.render (method : MethodDescriptor) : String := String.ofList method.descriptor

/-- The text that names a type in a class constant: the bare name of a class, and the descriptor of
an array. -/
def RefType.classConstant : RefType → String
  | object name => name.text
  | type => type.render

end Preverification

import Preverification.Bytes

/-!
# Verification types

What is known about the value in a local variable or on the operand stack. While types are
inferred, objects have a `RefType` and an object whose constructor has not run is named by the label
in front of the instruction that allocated it. In a class file both are numbers.
-/

namespace Preverification

/-- What is known about a value, over the types of objects `C` and the places of allocations `S`. A
slot of type `top` cannot be used. Objects may be null. An object is uninitialized until its
constructor has run: it was allocated at a place, or is the receiver of a constructor that has not
called another one yet. -/
inductive VerificationType (C S : Type) where
  | top
  | integer | float | double | long
  | null
  | uninitializedThis
  | object (type : C)
  | uninitialized (site : S)
deriving DecidableEq, Hashable, Repr, Inhabited

namespace VerificationType

variable {C S : Type}

instance : HasWidth (VerificationType C S) where
  width
    | double | long => 2
    | _ => 1

/-- Whether values of the type are references. -/
def isReference : VerificationType C S → Bool
  | null | uninitializedThis | object _ | uninitialized _ => true
  | top | integer | float | double | long => false

end VerificationType

/-- The types that are inferred. -/
abbrev InferredType := VerificationType RefType Label

/-- The type of the values of a field, a parameter or a result. -/
def FieldType.verificationType : FieldType → InferredType
  | .base .float => .float
  | .base .double => .double
  | .base .long => .long
  | .base _ => .integer
  | .ref type => .object type

/-- The types as they stand in a class file: a class is the index of its constant, and an
allocation the offset of its instruction. -/
abbrev SerializedType := VerificationType UInt16 UInt16

namespace SerializedType

/-- The form of a type: a tag, then what belongs to it. -/
def write : SerializedType → Bytes
  | .top => [0]
  | .integer => [1]
  | .float => [2]
  | .double => [3]
  | .long => [4]
  | .null => [5]
  | .uninitializedThis => [6]
  | .object index => 7 :: Bytes.ofUInt16 index
  | .uninitialized offset => 8 :: Bytes.ofUInt16 offset

/-- Reads a type. -/
def read : Reader SerializedType := do
  match (← Reader.uint8).toNat with
  | 0 => return .top
  | 1 => return .integer
  | 2 => return .float
  | 3 => return .double
  | 4 => return .long
  | 5 => return .null
  | 6 => return .uninitializedThis
  | 7 => return .object (← Reader.uint16)
  | 8 => return .uninitialized (← Reader.uint16)
  | _ => throw (.malformedAttribute "verification type")

end SerializedType

/-! ### Texts -/

/-- The name of a primitive type in messages. -/
def BaseType.label : BaseType → String
  | byte => "Byte" | char => "Char" | double => "Double" | float => "Float"
  | int => "Int" | long => "Long" | short => "Short" | boolean => "Boolean"

/-- A reference type as messages show it, with its dimensions beyond the first spelled out. -/
def RefType.label : RefType → String
  | object name => "Object(" ++ name.text ++ ")"
  | objectArray extra name =>
    "ObjectArray(ArrayType \x7b additional_dimensions: " ++ toString extra ++ ", element_type: " ++
      name.text ++ " \x7d)"
  | primitiveArray extra type =>
    "PrimitiveArray(ArrayType \x7b additional_dimensions: " ++ toString extra ++
      ", element_type: " ++ type.label ++ " \x7d)"

/-- An inferred type as messages show it. -/
def InferredType.label : InferredType → String
  | .top => "Top"
  | .integer => "Integer"
  | .float => "Float"
  | .double => "Double"
  | .long => "Long"
  | .null => "Null"
  | .uninitializedThis => "UninitializedThis"
  | .object type => "Object(" ++ type.label ++ ")"
  | .uninitialized site => "Uninitialized(" ++ site.text ++ ")"

/-- The category of an inferred type, as messages call what was expected. -/
def InferredType.category : InferredType → String
  | .top => "top"
  | .integer => "int"
  | .float => "float"
  | .long => "long"
  | .double => "double"
  | .null | .object _ => "reference"
  | .uninitializedThis | .uninitialized _ => "uninitialized object"

end Preverification

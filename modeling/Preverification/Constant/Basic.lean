import Preverification.ModifiedUtf8

/-!
# Constants

The entries of a constant pool, and their form in a class file. Constants refer to each other by
their index in the pool; `long` and `double` constants take up two indices.
-/

namespace Preverification

/-- The place of a constant in its pool. -/
abbrev PoolIndex := UInt16

/-- What a method handle does with its member. -/
inductive HandleKind where
  | getField | getStatic | putField | putStatic
  | invokeVirtual | invokeStatic | invokeSpecial | newInvokeSpecial | invokeInterface
deriving DecidableEq, Repr

namespace HandleKind

/-- The number of a kind. -/
def code : HandleKind → UInt8
  | getField => 1 | getStatic => 2 | putField => 3 | putStatic => 4
  | invokeVirtual => 5 | invokeStatic => 6 | invokeSpecial => 7
  | newInvokeSpecial => 8 | invokeInterface => 9

/-- The kind with a number. -/
def ofCode? (code : UInt8) : Option HandleKind :=
  [getField, getStatic, putField, putStatic, invokeVirtual, invokeStatic, invokeSpecial,
    newInvokeSpecial, invokeInterface].find? (·.code == code)

/-- Whether the member of a handle is a field. -/
def isFieldAccess : HandleKind → Bool
  | getField | getStatic | putField | putStatic => true
  | _ => false

end HandleKind

/-- An entry of a constant pool. Floating-point values are kept as their bits. The name and the
descriptor of a field or a method are at `member`. A class may be an array type, and a dynamic value
or call is worked out when it is first needed. -/
inductive Constant where
  | utf8 (text : String)
  | integer (value : Int32)
  | float (bits : UInt32)
  | long (value : Int64)
  | double (bits : UInt64)
  | classRef (name : PoolIndex)
  | string (text : PoolIndex)
  | fieldRef (owner member : PoolIndex)
  | methodRef (owner member : PoolIndex) (ofInterface : Bool)
  | nameAndType (name descriptor : PoolIndex)
  | methodHandle (kind : HandleKind) (member : PoolIndex)
  | methodType (descriptor : PoolIndex)
  | dynamic (bootstrap : UInt16) (member : PoolIndex)
  | invokeDynamic (bootstrap : UInt16) (member : PoolIndex)
  | moduleRef (name : PoolIndex)
  | packageRef (name : PoolIndex)
deriving DecidableEq, Repr

namespace Constant

instance : HasWidth Constant where
  width
    | long _ | double _ => 2
    | _ => 1

/-- The form of a constant in a class file: a tag, then its parts. -/
def write : Constant → Bytes
  | utf8 text =>
    let bytes := ModifiedUtf8.encode text
    1 :: Bytes.ofCount bytes.length ++ bytes
  | integer value => 3 :: Bytes.ofInt32 value
  | float bits => 4 :: Bytes.ofNat 4 bits.toNat
  | long value => 5 :: Bytes.ofInt64 value
  | double bits => 6 :: Bytes.ofNat 8 bits.toNat
  | classRef name => 7 :: Bytes.ofUInt16 name
  | string text => 8 :: Bytes.ofUInt16 text
  | fieldRef owner member => 9 :: Bytes.ofUInt16 owner ++ Bytes.ofUInt16 member
  | methodRef owner member ofInterface =>
    (if ofInterface then 11 else 10) :: Bytes.ofUInt16 owner ++ Bytes.ofUInt16 member
  | nameAndType name descriptor => 12 :: Bytes.ofUInt16 name ++ Bytes.ofUInt16 descriptor
  | methodHandle kind member => 15 :: kind.code :: Bytes.ofUInt16 member
  | methodType descriptor => 16 :: Bytes.ofUInt16 descriptor
  | dynamic bootstrap member =>
    17 :: Bytes.ofUInt16 bootstrap ++ Bytes.ofUInt16 member
  | invokeDynamic bootstrap member =>
    18 :: Bytes.ofUInt16 bootstrap ++ Bytes.ofUInt16 member
  | moduleRef name => 19 :: Bytes.ofUInt16 name
  | packageRef name => 20 :: Bytes.ofUInt16 name

/-- Reads the constant whose index will be `index`. -/
def read (index : PoolIndex) : Reader Constant := do
  let tag ← Reader.uint8
  match tag.toNat with
  | 1 =>
    let bytes ← Reader.bytes (← Reader.nat 2)
    match ModifiedUtf8.decode bytes with
    | some text => return utf8 text
    | none => throw (.malformedUtf8 index)
  | 3 => return integer (← Reader.int32)
  | 4 => return float (UInt32.ofNat (← Reader.nat 4))
  | 5 => return long (← Reader.int64)
  | 6 => return double (UInt64.ofNat (← Reader.nat 8))
  | 7 => return classRef (← Reader.uint16)
  | 8 => return string (← Reader.uint16)
  | 9 => return fieldRef (← Reader.uint16) (← Reader.uint16)
  | 10 => return methodRef (← Reader.uint16) (← Reader.uint16) false
  | 11 => return methodRef (← Reader.uint16) (← Reader.uint16) true
  | 12 => return nameAndType (← Reader.uint16) (← Reader.uint16)
  | 15 =>
    let code ← Reader.uint8
    match HandleKind.ofCode? code with
    | some kind => return methodHandle kind (← Reader.uint16)
    | none => throw (.badConstantTag index code)
  | 16 => return methodType (← Reader.uint16)
  | 17 => return dynamic (← Reader.uint16) (← Reader.uint16)
  | 18 => return invokeDynamic (← Reader.uint16) (← Reader.uint16)
  | 19 => return moduleRef (← Reader.uint16)
  | 20 => return packageRef (← Reader.uint16)
  | _ => throw (.badConstantTag index tag)

end Constant

end Preverification

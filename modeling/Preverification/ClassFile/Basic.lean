import Preverification.ClassFile.Header
import Preverification.ClassFile.Member

/-!
# Class files

A whole class file. `ClassFile.parse` accepts a file only when nothing follows the class, and
`ClassFile.write` gives the bytes of a class.
-/

namespace Preverification

/-- A class as it stands in its file. -/
structure ClassFile where
  version : Version
  constants : Pool
  identity : Identity
  fields : List Member
  methods : List Member
  attributes : List Attribute

namespace ClassFile

/-- The form of a class. -/
def write (classFile : ClassFile) : Bytes :=
  Bytes.ofLength magic ++ Bytes.ofUInt16 classFile.version.minor ++
    Bytes.ofUInt16 classFile.version.major ++ classFile.constants.write ++
    classFile.identity.write ++ Bytes.ofList Member.write classFile.fields ++
    Bytes.ofList Member.write classFile.methods ++ Bytes.ofList Attribute.write classFile.attributes

/-- Reads a class. -/
def read : Reader ClassFile := do
  let (version, constants) ← Pool.readPreamble
  let identity ← Identity.read constants
  let fields ← Reader.list (Member.read AccessFlags.fieldMask constants)
  let methods ← Reader.list (Member.read AccessFlags.methodMask constants)
  return ⟨version, constants, identity, fields, methods, ← Attribute.readList constants⟩

/-- Reads a whole class file. -/
def parse (bytes : Bytes) : Except StructuralError ClassFile := do
  let (classFile, rest) ← Reader.run read bytes
  if rest.isEmpty then return classFile else throw (.trailingBytes rest.length)

/-- The name of the class. -/
def name (classFile : ClassFile) : Except StructuralError BinaryName :=
  classFile.identity.nameIn classFile.constants

/-- The header of the class. -/
def header (classFile : ClassFile) : Except StructuralError ClassHeader :=
  classFile.identity.headerIn classFile.constants

/-- Whether the class is an interface. -/
def isInterface (classFile : ClassFile) : Bool :=
  classFile.identity.access.has AccessFlags.interface

end ClassFile

end Preverification

/-!
# Names of classes and members

A `BinaryName` is the name of a class or interface: unqualified parts with `/` between them. The
names of fields and methods are single unqualified parts. The validity of a binary name is part of
its type, so nothing downstream checks it again.
-/

namespace Preverification

/-- Why a text is not a name: it is empty, a part of it is empty, or a part holds one of the
characters `.`, `;`, `[` and `/`. -/
inductive NameFault where
  | illegalCharacter (part : String)
  | emptyPart
  | emptyName
deriving DecidableEq, Repr

/-- The text of a fault. -/
def NameFault.message : NameFault → String
  | illegalCharacter part => "Unqualified name '" ++ part ++ "' contains an illegal character"
  | emptyPart => "Unqualified name '' is empty"
  | emptyName => "Binary name '' is empty"

/-- The pieces of a text between its slashes; there is always at least one. -/
def slashParts : List Char → List (List Char)
  | [] => [[]]
  | c :: rest =>
    if c = '/' then [] :: slashParts rest
    else match slashParts rest with
      | [] => [[c]]
      | part :: parts => (c :: part) :: parts

namespace UnqualifiedName

/-- Characters that no unqualified name holds. -/
def isIllegal (c : Char) : Bool := c = '.' || c = ';' || c = '[' || c = '/'

/-- What is wrong with a text as an unqualified name, if anything. -/
def fault? (part : List Char) : Option NameFault :=
  if part.any isIllegal then some (.illegalCharacter (String.ofList part))
  else if part.isEmpty then some .emptyPart
  else none

/-- The name of instance initialisation methods. -/
def init : String := "<init>"

/-- The name of the method that the collector calls. -/
def finalize : String := "finalize"

end UnqualifiedName

/-- The name of a class or interface as it stands in a class file, for instance `java/lang/Object`.
Every part is an unqualified name. -/
structure BinaryName where
  text : String
  parts_valid : text ≠ "" ∧ (slashParts text.toList).findSome? UnqualifiedName.fault? = none
deriving DecidableEq

namespace BinaryName

instance : Hashable BinaryName := ⟨fun name => hash name.text⟩

instance : Repr BinaryName := ⟨fun name _ => repr name.text⟩

/-- The first fault of a text as a binary name, in the order of its parts. -/
def fault? (text : String) : Option NameFault :=
  if text = "" then some .emptyName
  else (slashParts text.toList).findSome? UnqualifiedName.fault?

theorem fault?_eq_none_iff {text : String} : fault? text = none ↔
    text ≠ "" ∧ (slashParts text.toList).findSome? UnqualifiedName.fault? = none := by
  unfold fault?; split <;> simp_all

/-- Reads a text as a binary name. -/
def ofString (text : String) : Except NameFault BinaryName :=
  match h : fault? text with
  | none => .ok ⟨text, fault?_eq_none_iff.1 h⟩
  | some fault => .error fault

/-- The path of the class's file below a root directory. -/
def classFilePath (name : BinaryName) : String := name.text ++ ".class"

/-- The root of the class hierarchy. -/
def object : BinaryName := ⟨"java/lang/Object", by decide +kernel⟩

/-- The class of class objects. -/
def «class» : BinaryName := ⟨"java/lang/Class", by decide +kernel⟩

/-- One of the two interfaces of every array type. -/
def cloneable : BinaryName := ⟨"java/lang/Cloneable", by decide +kernel⟩

/-- The other interface of every array type. -/
def serializable : BinaryName := ⟨"java/io/Serializable", by decide +kernel⟩

/-- The class of boxed `double` values. -/
def double : BinaryName := ⟨"java/lang/Double", by decide +kernel⟩

/-- The class of boxed `float` values. -/
def float : BinaryName := ⟨"java/lang/Float", by decide +kernel⟩

/-- The class of method handle constants. -/
def methodHandle : BinaryName := ⟨"java/lang/invoke/MethodHandle", by decide +kernel⟩

/-- The class of method type constants. -/
def methodType : BinaryName := ⟨"java/lang/invoke/MethodType", by decide +kernel⟩

/-- The class of string constants. -/
def string : BinaryName := ⟨"java/lang/String", by decide +kernel⟩

/-- The root of everything that can be thrown. -/
def throwable : BinaryName := ⟨"java/lang/Throwable", by decide +kernel⟩

instance : Inhabited BinaryName := ⟨object⟩

end BinaryName

end Preverification

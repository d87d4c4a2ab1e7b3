import Preverification.Bytes

/-!
# Reports

What is said about a class: its new bytes, or all problems that were found. A `Problem` has a kind,
a location and sometimes a detail; the texts are those that a user is shown.
-/

namespace Preverification

/-- What is wrong. A type is missing if it is not on the class path, a class file or the code of a
method is malformed if it cannot be preverified, and it is inconsistent if its types do not line up.
-/
inductive ProblemKind where
  | nativeMethod
  | floatingPoint
  | finalizer
  | missingType
  | malformed
  | inconsistent
deriving DecidableEq, Repr

namespace ProblemKind

/-- Whether a policy is violated. -/
def isViolation : ProblemKind → Bool
  | nativeMethod | floatingPoint | finalizer => true
  | missingType | malformed | inconsistent => false

/-- The words for a kind. -/
def text : ProblemKind → String
  | nativeMethod => "Native code not allowed"
  | floatingPoint => "Floating point not allowed"
  | finalizer => "Finalizers not allowed"
  | missingType => "Missing class definition"
  | malformed => "Malformed class"
  | inconsistent => "Internal verification error"

end ProblemKind

/-- The name and the descriptor of a field, a method or a local variable. -/
structure MemberName where
  name : String
  descriptor : String
deriving DecidableEq, Repr, Inhabited

/-- The name and the descriptor, with a colon in between. -/
def MemberName.text (member : MemberName) : String := member.name ++ ":" ++ member.descriptor

/-- Where something is wrong. An operation is named by its number, and by the line in force there.
-/
inductive Location where
  | classDeclaration (owner : BinaryName)
  | field (owner : BinaryName) (member : MemberName)
  | method (owner : BinaryName) (member : MemberName)
  | localVariable (owner : BinaryName) (member localVariable : MemberName)
  | instruction (owner : BinaryName) (member : MemberName) (number : Nat) (line : Option UInt16)
  | unknown
deriving DecidableEq, Repr

namespace Location

/-- The words for the type of a location. -/
def label : Location → String
  | classDeclaration _ => "Class declaration"
  | field .. => "Class field"
  | method .. => "Method definition"
  | localVariable .. => "Method field"
  | instruction .. => "Method instruction"
  | unknown => "Unknown location"

/-- The class of a location. -/
def owner? : Location → Option BinaryName
  | classDeclaration owner | field owner _ | method owner _ | localVariable owner _ _
  | instruction owner _ _ _ => some owner
  | unknown => none

/-- The method of a location. -/
def method? : Location → Option MemberName
  | method _ member | localVariable _ member _ | instruction _ member _ _ => some member
  | classDeclaration _ | field .. | unknown => none

/-- The words for a line, if there is one. -/
def lineText : Option UInt16 → String
  | some line => " (line " ++ toString line.toNat ++ ")"
  | none => ""

/-- The words for a location. -/
def text (location : Location) : String :=
  let place := match location with
    | classDeclaration owner => " " ++ owner.text
    | field owner member | method owner member => " " ++ owner.text ++ "." ++ member.text
    | localVariable owner member found =>
      " " ++ found.text ++ " in " ++ owner.text ++ "." ++ member.text
    | instruction owner member number line =>
      " " ++ toString number ++ " in " ++ owner.text ++ "." ++ member.text ++ lineText line
    | unknown => ""
  location.label ++ place

end Location

/-- Something that is wrong with a class. -/
structure Problem where
  kind : ProblemKind
  location : Location
  detail : Option String := none
deriving DecidableEq, Repr

/-- The words for a problem. -/
def Problem.text (problem : Problem) : String :=
  let detail := match problem.detail with
    | some words => " (" ++ words ++ ")"
    | none => ""
  problem.location.text ++ ": " ++ problem.kind.text ++ detail

/-- What came out of a class: its name, if that could be read, and the new class file or what is
wrong. -/
structure ClassReport where
  className : Option BinaryName
  result : Except (List Problem) Bytes

namespace ClassReport

/-- The problems that were found. -/
def problems (report : ClassReport) : List Problem :=
  match report.result with
  | .ok _ => []
  | .error problems => problems

/-- Whether there is no new class file. -/
def isFailure (report : ClassReport) : Bool := !report.result.isOk

end ClassReport

end Preverification

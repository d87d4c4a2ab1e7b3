import Preverification.ClassFile.Header
import Preverification.Hierarchy.ClassPath
import Std.Data.HashSet

/-!
# The class hierarchy

A `Resolver` finds the headers of classes on a class path. What it has found, or not found, it
keeps; the class path is asked once for each class. Classes can also be registered without the class
path. On top of headers there are the chain of superclasses of a class, and the closest type that
two types have in common.
-/

namespace Preverification

/-- Why a class has no place in the hierarchy: there is no good file for it, or it is its own
superclass. -/
inductive ResolveError where
  | notFound (name : BinaryName)
  | circular (name : BinaryName)
deriving DecidableEq, Repr

namespace ResolveError

/-- The class that has no place. -/
def className : ResolveError → BinaryName
  | notFound name | circular name => name

/-- The text of an error. -/
def message : ResolveError → String
  | notFound name => "class " ++ name.text ++ " not found"
  | circular name => "class " ++ name.text ++ " is its own super class"

end ResolveError

/-- A class path, and what is known about the classes on it, where `none` stands for a class that
was not found. The classes that the class path was asked for are listed with the latest one first.
-/
structure Resolver where
  classPath : ClassPath
  headers : Std.HashMap BinaryName (Option ClassHeader)
  asked : List BinaryName

namespace Resolver

/-- A resolver that knows nothing yet. -/
def ofClassPath (classPath : ClassPath) : Resolver := ⟨classPath, ∅, []⟩

/-- A question about classes. What is found on the way is kept, also when the answer is an error. -/
abbrev Query := EStateM ResolveError Resolver

/-- The header in the file of a class. A file that holds another class does not count. -/
def readHeader? (classPath : ClassPath) (name : BinaryName) : Option ClassHeader := do
  let bytes ← classPath.find? name
  let header ← (ClassHeader.parse bytes).toOption
  if header.name = name then some header else none

/-- Looks a class up that nothing is known about. The root is known without any file. -/
def load (name : BinaryName) (resolver : Resolver) : Option ClassHeader × Resolver :=
  if name = BinaryName.object then
    (some .object, { resolver with headers := resolver.headers.insert name (some .object) })
  else
    let header := readHeader? resolver.classPath name
    (header, { resolver with
      headers := resolver.headers.insert name header
      asked := name :: resolver.asked })

/-- The header of a class. -/
def header (name : BinaryName) : Query ClassHeader := fun resolver =>
  let (found, resolver) := match resolver.headers[name]? with
    | some known => (known, resolver)
    | none => load name resolver
  match found with
  | some header => .ok header resolver
  | none => .error (.notFound name) resolver

/-- Makes a class known. A class whose header was found before keeps it. -/
def register (header : ClassHeader) (resolver : Resolver) : Resolver :=
  match resolver.headers[header.name]? with
  | some (some _) => resolver
  | _ => { resolver with headers := resolver.headers.insert header.name (some header) }

/-- A number of classes that is not exceeded by those that have a header. -/
def classBound (resolver : Resolver) : Nat := resolver.classPath.size + resolver.headers.size + 1

/-- The superclasses from a class on. Those in `chain` were passed before, the last one first, and
are the ones in `seen`. More rounds than there are classes would pass one of them twice. -/
def chainFrom (seen : Std.HashSet BinaryName) (chain : List BinaryName) (name : BinaryName) :
    (rounds : Nat) → Query (List BinaryName)
  | 0 => throw (.circular name)
  | rounds + 1 => do
    if seen.contains name then throw (.circular name)
    match (← header name).superclass with
    | none => return (name :: chain).reverse
    | some superclass => chainFrom (seen.insert name) (name :: chain) superclass rounds

/-- The chain of superclasses of a class: the class itself first, and one without superclass last.
-/
def ancestorChain (name : BinaryName) : Query (List BinaryName) := do
  chainFrom ∅ [] name ((← get).classBound + 1)

/-- The closest class that two classes extend. Interfaces do not count. -/
def commonSuperclass (first second : BinaryName) : Query BinaryName := do
  if first = second then return first
  let others : Std.HashSet BinaryName := .ofList (← ancestorChain second)
  let chain ← ancestorChain first
  return (chain.find? others.contains).getD .object

end Resolver

/-- Whether every array is an object of a class or interface. -/
def BinaryName.isArraySupertype (name : BinaryName) : Bool :=
  name = .object || name = .cloneable || name = .serializable

/-- The array type with a number of dimensions more. -/
def RefType.addDimensions : Nat → RefType → RefType
  | 0, type => type
  | count + 1, .object name => .objectArray count name
  | count + 1, .objectArray extra name => .objectArray (extra + (count + 1)) name
  | count + 1, .primitiveArray extra type => .primitiveArray (extra + (count + 1)) type

theorem RefType.dimensions_of_element? {type element : RefType}
    (h : type.element? = some (.ref element)) : element.dimensions < type.dimensions := by
  cases type with
  | object name => simp [RefType.element?] at h
  | objectArray extra name =>
    cases extra with
    | zero =>
      simp only [RefType.element?, FieldType.object, Option.some.injEq, FieldType.ref.injEq] at h
      subst h; simp [RefType.dimensions]
    | succ extra =>
      simp only [RefType.element?, Option.some.injEq, FieldType.ref.injEq] at h
      subst h; simp [RefType.dimensions]
  | primitiveArray extra base =>
    cases extra with
    | zero => simp [RefType.element?] at h
    | succ extra =>
      simp only [RefType.element?, Option.some.injEq, FieldType.ref.injEq] at h
      subst h; simp [RefType.dimensions]

namespace Resolver

/-- The closest type that two types have in common, as the element of an array of `layers`
dimensions. Arrays meet at the array of what their elements have in common, an array and a class at
the class if every array belongs to it, and everything else at the root. -/
def commonRefTypeUnder (layers : Nat) (first second : RefType) : Query RefType :=
  if first = second then return first.addDimensions layers
  else match _ : first, second with
    | .object name, .object other =>
      return (RefType.object (← commonSuperclass name other)).addDimensions layers
    | .object name, _ | _, .object name =>
      return (RefType.object (if name.isArraySupertype then name else .object)).addDimensions layers
    | _, _ =>
      match h : first.element?, second.element? with
      | some (.ref element), some (.ref other) =>
        have : element.dimensions < first.dimensions := RefType.dimensions_of_element? h
        commonRefTypeUnder (layers + 1) element other
      | _, _ => return (RefType.object .object).addDimensions layers
termination_by first.dimensions

/-- The closest type that two types have in common. -/
def commonRefType (first second : RefType) : Query RefType := commonRefTypeUnder 0 first second

end Resolver

end Preverification

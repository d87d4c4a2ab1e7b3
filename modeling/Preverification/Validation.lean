import Preverification.Body.Decode
import Preverification.ClassFile.Basic
import Preverification.Hierarchy.Resolver
import Preverification.Policy
import Preverification.Report

/-!
# Validation

`ClassFile.validate` lists all places where a class goes against a policy: native methods,
finalizers and floating point. It does not stop at the first one; only a class that is malformed has
no list. Types whose classes are missing are listed too. What was found out about a class is kept
for the next time that it comes up.
-/

namespace Preverification

open MonadExcept (ofExcept)

/-- What is wrong with a type: it is, or extends, a floating-point type, or a class in the chain of
its superclasses is missing or its own superclass. -/
inductive TypeViolation where
  | floatingPoint
  | missing (name : BinaryName)
deriving DecidableEq, Repr

/-- The problem that a violation is at a location. -/
def TypeViolation.problem (location : Location) : TypeViolation → Problem
  | floatingPoint => ⟨.floatingPoint, location, none⟩
  | missing name => ⟨.missingType, location, some name.text⟩

/-- What is known while classes are validated: a resolver, and what was found out about classes
before. -/
structure Validator where
  resolver : Resolver
  checked : Std.HashMap BinaryName (Option TypeViolation)

/-- A validation under way. -/
abbrev Validation := EStateM StructuralError Validator

namespace Validator

/-- A validator that has found out nothing yet. -/
def ofResolver (resolver : Resolver) : Validator := ⟨resolver, ∅⟩

end Validator

/-- Whether a class wraps `float` or `double` values. -/
def BinaryName.isFloatingPointWrapper (name : BinaryName) : Bool :=
  name = BinaryName.float || name = BinaryName.double

namespace Policy

/-- What a policy has against something, given whether it has to do with floating point. -/
def floatingPointViolation (policy : Policy) (isFloatingPoint : Bool) : Option TypeViolation :=
  if isFloatingPoint && !policy.allowsFloatingPoint then some .floatingPoint else none

/-! ### Types -/

/-- Judges a class by the chain of its superclasses. The root and the wrappers of floating-point
values are judged by their names. -/
def judgeClass (policy : Policy) (name : BinaryName) (resolver : Resolver) :
    Option TypeViolation × Resolver :=
  if name.isFloatingPointWrapper then (policy.floatingPointViolation true, resolver)
  else if name = BinaryName.object then (none, resolver)
  else match Resolver.ancestorChain name resolver with
    | .ok chain resolver =>
      (policy.floatingPointViolation (chain.any (·.isFloatingPointWrapper)), resolver)
    | .error error resolver => (some (.missing error.className), resolver)

/-- Finds out what is wrong with a class. -/
def checkClass (policy : Policy) (name : BinaryName) : Validation (Option TypeViolation) := do
  match (← get).checked[name]? with
  | some known => return known
  | none => modifyGet fun validator =>
    let (violation, resolver) := policy.judgeClass name validator.resolver
    (violation, ⟨resolver, validator.checked.insert name violation⟩)

/-- Finds out what is wrong with a type. An array is what its innermost elements are, and floating
point values are what their wrappers are. -/
def checkType (policy : Policy) (type : FieldType) : Validation (Option TypeViolation) :=
  match type.innermost with
  | .base .float => policy.checkClass BinaryName.float
  | .base .double => policy.checkClass BinaryName.double
  | .ref (.object name) => policy.checkClass name
  | _ => return none

/-- Finds out what is wrong with the class constant at an index. -/
def checkClassConstant (policy : Policy) (pool : Pool) (index : PoolIndex) :
    Validation (Option TypeViolation) := do
  policy.checkType (.ref (← ofExcept (pool.classType index)))

/-! ### Fields and methods -/

/-- Validates a field. -/
def validateField (policy : Policy) (owner : BinaryName) (pool : Pool) (field : Member) :
    Validation (List Problem) := do
  let name ← ofExcept (field.nameIn pool)
  let descriptor ← ofExcept (field.descriptorIn pool)
  let type ← ofExcept (FieldType.ofDescriptor descriptor)
  let violation ← policy.checkType type
  return violation.toList.map (·.problem (.field owner ⟨name, descriptor⟩))

/-- Validates the declaration of a method. Its types are one problem at most: the result is looked
at first, and then the parameters. -/
def validateSignature (policy : Policy) (owner : BinaryName) (member : MemberName)
    (access : AccessFlags) (signature : MethodDescriptor) : Validation (List Problem) := do
  let location := Location.method owner member
  let native := !policy.allowsNative && access.has AccessFlags.native
  let finalizer := !policy.allowsFinalizers && member.name == UnqualifiedName.finalize &&
    signature.parameters.isEmpty
  let types := signature.returnType.toList ++ signature.parameters
  let violation ← types.findSomeM? policy.checkType
  return (if native then [⟨.nativeMethod, location, none⟩] else []) ++
    (if finalizer then [⟨.finalizer, location, none⟩] else []) ++
    violation.toList.map (·.problem location)

/-- Validates a local variable. -/
def validateVariable (policy : Policy) (owner : BinaryName) (member : MemberName) (pool : Pool)
    (range : VariableRange) : Validation (List Problem) := do
  let name ← ofExcept (pool.utf8 range.name)
  let descriptor ← ofExcept (pool.utf8 range.descriptor)
  let type ← ofExcept (FieldType.ofDescriptor descriptor)
  let violation ← policy.checkType type
  return violation.toList.map (·.problem (.localVariable owner member ⟨name, descriptor⟩))

/-- Finds out what is wrong with an operation. New arrays are judged by their elements, and all else
by whether it works on floating-point values. -/
def checkOperation {L : Type} (policy : Policy) (pool : Pool) :
    Operation L → Validation (Option TypeViolation)
  | .step (.newArray element) => return policy.floatingPointViolation element.isFloatingPoint
  | .step (.newRefArray index) => policy.checkClassConstant pool index
  | .step (.newMultiArray index _) => policy.checkClassConstant pool index
  | operation => return policy.floatingPointViolation operation.isFloatingPoint

/-- Validates an operation with a number and a line. -/
def validateOperation (policy : Policy) (owner : BinaryName) (member : MemberName) (pool : Pool)
    (operation : Nat × Option UInt16 × Operation Label) : Validation (List Problem) := do
  let (number, line, operation) := operation
  let violation ← policy.checkOperation pool operation
  return violation.toList.map (·.problem (.instruction owner member number line))

end Policy

/-- The operations with their numbers and the lines in force. Those in `found` come earlier, the
last one first, and so does the line `line`. -/
def Body.linedOperationsFrom (found : List (Nat × Option UInt16 × Operation Label)) (number : Nat)
    (line : Option UInt16) : List Node → List (Nat × Option UInt16 × Operation Label)
  | [] => found.reverse
  | .label _ :: rest => linedOperationsFrom found number line rest
  | .line later :: rest => linedOperationsFrom found number (some later) rest
  | .operation operation :: rest =>
    linedOperationsFrom ((number, line, operation) :: found) (number + 1) line rest

/-- The operations with their numbers and the lines in force. -/
def Body.linedOperations (body : Body) : List (Nat × Option UInt16 × Operation Label) :=
  linedOperationsFrom [] 0 none body.nodes

namespace Policy

/-- Validates the code of a method. -/
def validateBody (policy : Policy) (owner : BinaryName) (member : MemberName) (pool : Pool)
    (body : Body) : Validation (List Problem) := do
  let localVariables ← body.localVariables.mapM (policy.validateVariable owner member pool)
  let operations ← body.linedOperations.mapM (policy.validateOperation owner member pool)
  return localVariables.flatten ++ operations.flatten

/-- Validates a method. -/
def validateMethod (policy : Policy) (owner : BinaryName) (pool : Pool) (method : Member) :
    Validation (List Problem) := do
  let name ← ofExcept (method.nameIn pool)
  let descriptor ← ofExcept (method.descriptorIn pool)
  let signature ← ofExcept (MethodDescriptor.ofDescriptor descriptor)
  let member : MemberName := ⟨name, descriptor⟩
  let problems ← policy.validateSignature owner member method.access signature
  match ← ofExcept (method.code pool) with
  | none => return problems
  | some code =>
    let body ← ofExcept (Body.decode code pool)
    return problems ++ (← policy.validateBody owner member pool body)

end Policy

/-- Lists the problems that a policy has with a class: those of fields first, then those of
methods. -/
def ClassFile.validate (policy : Policy) (classFile : ClassFile) : Validation (List Problem) := do
  let owner ← ofExcept classFile.name
  let fields ← classFile.fields.mapM (policy.validateField owner classFile.constants)
  let methods ← classFile.methods.mapM (policy.validateMethod owner classFile.constants)
  return fields.flatten ++ methods.flatten

end Preverification

import Preverification.Emission
import Preverification.Validation

/-!
# Preverification of classes

A class is read, validated, preverified method by method, and written again. The first step that
fails ends its treatment. What was learned about the class hierarchy is kept for the next class, and
so is the header of each class that was read.
-/

namespace Preverification

open MonadExcept (ofExcept)

/-- The name of the attribute that holds the constant value of a field. -/
def constantValueName : String := "ConstantValue"

/-- Why a method cannot be preverified. -/
inductive MethodError where
  | structural (error : StructuralError)
  | subroutine (error : SubroutineError)
  | analysis (error : AnalysisError)
deriving DecidableEq, Repr

namespace MethodError

/-- The problem that an error in a method is. Types that do not line up are at an operation. -/
def problem (owner : BinaryName) (member : MemberName) (error : MethodError) : Problem :=
  let location := Location.method owner member
  match error with
  | structural error | analysis (.structural error) => ⟨.malformed, location, some error.message⟩
  | subroutine error => ⟨.malformed, location, some error.message⟩
  | analysis (.resolve error) => ⟨.missingType, location, some error.className.text⟩
  | analysis (.type number error) =>
    ⟨.inconsistent, .instruction owner member number none,
      some (AnalysisError.type number error).message⟩
  | analysis .divergent => ⟨.inconsistent, location, some AnalysisError.divergent.message⟩

end MethodError

/-- What changes while a class is preverified, besides the class itself. -/
structure Workspace where
  constants : Pool
  resolver : Resolver

/-- A step in the preverification of a method. -/
abbrev MethodPass := EStateM MethodError Workspace

namespace MethodPass

/-- Lets a check of the form of the class decide whether the pass goes on. -/
def structurally {α : Type} (result : Except StructuralError α) : MethodPass α :=
  ofExcept (result.mapError .structural)

/-- Infers the types of a body. -/
def analyze (body : Body) (entry : TypeState) (context : MethodContext) : MethodPass Analysis :=
  fun workspace =>
    match body.analyze entry context workspace.resolver with
    | .ok analysis resolver => .ok analysis { workspace with resolver }
    | .error error resolver => .error (.analysis error) { workspace with resolver }

/-- Turns a body into code with frames. -/
def emit (body : Body) (analysis : Analysis) (entry : TypeState) (format : FrameFormat) :
    MethodPass Code := fun workspace =>
  match Emission.emit analysis entry format ⟨body, workspace.constants⟩ with
  | .ok code draft => .ok code { workspace with constants := draft.constants }
  | .error error draft => .error (.structural error) { workspace with constants := draft.constants }

/-- Adds constants to the pool. -/
def edit {α : Type} (change : Pool.Edit α) : MethodPass α := fun workspace =>
  match change workspace.constants with
  | .ok value constants => .ok value { workspace with constants }
  | .error error constants => .error (.structural error) { workspace with constants }

end MethodPass

/-! ### Methods -/

/-- Preverifies the code of a method: subroutines are inlined, types are inferred, and frames are
added. -/
def Policy.preverifyCode (policy : Policy) (owner : BinaryName) (method : Member) (code : Code) :
    MethodPass Code := do
  let pool := (← get).constants
  let decoded ← MethodPass.structurally (Body.decode code pool)
  let (_, inlined) ← ofExcept ((decoded.inline policy.inliningLimits).mapError .subroutine)
  let body := inlined.labelAllocations
  let descriptor ← MethodPass.structurally (method.descriptorIn pool)
  let signature ← MethodPass.structurally (MethodDescriptor.ofDescriptor descriptor)
  let name ← MethodPass.structurally (method.nameIn pool)
  let entry := TypeState.methodEntry owner (method.access.has AccessFlags.static)
    (name == UnqualifiedName.init) signature body.maxLocals.toNat
  let analysis ← MethodPass.analyze body entry ⟨pool, owner, signature.returnType⟩
  MethodPass.emit body analysis entry policy.frameFormat

/-- Preverifies a method. One without code stays as it is. -/
def Policy.preverifyMethod (policy : Policy) (owner : BinaryName) (method : Member) :
    MethodPass Member := do
  let pool := (← get).constants
  match ← MethodPass.structurally (method.codePosition pool) with
  | none => return method
  | some position =>
    match method.attributes[position]? with
    | none => return method
    | some attr =>
      let code ← policy.preverifyCode owner method (← MethodPass.structurally (attr.decode Code))
      let preverified ← MethodPass.edit (Pool.addAttribute code)
      return { method with attributes := method.attributes.set position preverified }

/-! ### Classes -/

/-- A problem with the form of a class. -/
def StructuralError.problem (owner : Option BinaryName) (error : StructuralError) : Problem :=
  let location := match owner with
    | some name => Location.classDeclaration name
    | none => .unknown
  ⟨.malformed, location, some error.message⟩

/-- The report on a class whose form is wrong. -/
def ClassReport.malformed (owner : Option BinaryName) (error : StructuralError) : ClassReport :=
  ⟨owner, .error [error.problem owner]⟩

/-- Leaves out the constant value of a field that is not static. -/
def Member.stripConstant (pool : Pool) (field : Member) : Except StructuralError Member :=
  if field.access.has AccessFlags.static then return field
  else return { field with
    attributes := ← field.attributes.filterM fun attr =>
      return (← attr.nameIn pool) != constantValueName }

/-- A step in the preverification of a class. -/
abbrev ClassPass := EStateM Problem Workspace

namespace ClassPass

/-- Lets a check of the form of the class decide whether the pass goes on. -/
def structurally {α : Type} (owner : BinaryName) (result : Except StructuralError α) : ClassPass α :=
  ofExcept (result.mapError (·.problem (some owner)))

/-- Preverifies a method as a part of its class. -/
def method (policy : Policy) (owner : BinaryName) (method : Member) : ClassPass Member := do
  let pool := (← get).constants
  let name ← structurally owner (method.nameIn pool)
  let descriptor ← structurally owner (method.descriptorIn pool)
  fun workspace =>
    match policy.preverifyMethod owner method workspace with
    | .ok preverified workspace => .ok preverified workspace
    | .error error workspace => .error (error.problem owner ⟨name, descriptor⟩) workspace

/-- The class with its fields stripped, where the policy asks for it, and its methods
preverified. -/
def members (policy : Policy) (owner : BinaryName) (classFile : ClassFile) :
    ClassPass ClassFile := do
  let fields ←
    if policy.stripsInstanceConstants then
      structurally owner (classFile.fields.mapM (·.stripConstant classFile.constants))
    else pure classFile.fields
  let methods ← classFile.methods.mapM (method policy owner)
  return { classFile with constants := (← get).constants, fields, methods }

end ClassPass

namespace Policy

/-- Preverifies a class that was validated. -/
def preverifyClass (policy : Policy) (owner : BinaryName) (classFile : ClassFile) :
    StateM Resolver ClassReport := fun resolver =>
  match ClassPass.members policy owner classFile ⟨classFile.constants, resolver⟩ with
  | .ok preverified workspace => (⟨some owner, .ok preverified.write⟩, workspace.resolver)
  | .error problem workspace => (⟨some owner, .error [problem]⟩, workspace.resolver)

/-- Validates a class, and preverifies it if it is without problems. -/
def processClass (policy : Policy) (owner : BinaryName) (classFile : ClassFile) :
    StateM Resolver ClassReport := fun resolver =>
  match classFile.validate policy (.ofResolver resolver) with
  | .ok [] validator => policy.preverifyClass owner classFile validator.resolver
  | .ok problems validator => (⟨some owner, .error problems⟩, validator.resolver)
  | .error error validator => (.malformed (some owner) error, validator.resolver)

/-- Preverifies a class file. The report has either its new bytes or what is wrong with it. -/
def preverify (policy : Policy) (bytes : Bytes) : StateM Resolver ClassReport := do
  match ClassFile.parse bytes with
  | .error error => return .malformed none error
  | .ok classFile =>
    match classFile.name with
    | .error error => return .malformed none error
    | .ok owner =>
      match classFile.header with
      | .error error => return .malformed (some owner) error
      | .ok header =>
        modify (Resolver.register header)
        policy.processClass owner classFile

/-! ### Input that may fail -/

/-- Preverifies a class file, if its bytes could be read. Fails with the report on a class that has
problems. -/
def preverifyInput (policy : Policy) (input : Except StructuralError Bytes) :
    StateM Resolver (Except ClassReport Bytes) := do
  match input with
  | .error error => return .error (.malformed none error)
  | .ok bytes =>
    let report ← policy.preverify bytes
    match report.result with
    | .ok preverified => return .ok preverified
    | .error _ => return .error report

end Policy

/-- The words for the failure of a class that has problems. -/
def ClassReport.failureMessage : String := "Some errors are in preverification"

end Preverification

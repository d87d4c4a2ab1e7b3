import Preverification.Proofs.LaterResolvers

/-!
# Validations that find nothing wrong

A class with which nothing was found to be wrong has only types that the policy admits. The other
way round, nothing is found to be wrong with such a class, by any validator that knows no better.

* `Validation.Finds` and `Validation.Passes`: what a question finds out, and what it answers for
  validators that know no better.
* `Policy.validate_admits`: a class with which nothing was found to be wrong is admitted.
* `Policy.AdmitsClass.passes`: nothing is found to be wrong with a class that is admitted.
-/

namespace Preverification

open MonadExcept (ofExcept)

/-! ### What is admitted -/

/-- The code of a method can be decoded, if there is any. -/
def Member.Decodes (method : Member) (pool : Pool) : Prop :=
  ∃ found, method.code pool = .ok found ∧
    ∀ code, found = some code → ∃ body, Body.decode code pool = .ok body

namespace Policy

variable {policy : Policy} {resolver later : Resolver}

/-- There is nothing wrong with the class of a type, or of its innermost elements. -/
def AdmitsType (policy : Policy) (resolver : Resolver) (type : FieldType) : Prop :=
  match type.innermost with
  | .base .float => policy.Admits resolver BinaryName.float
  | .base .double => policy.Admits resolver BinaryName.double
  | .ref (.object name) => policy.Admits resolver name
  | _ => True

/-- Something is declared with a name and the descriptor of a type that is admitted. -/
def AdmitsDeclaration (policy : Policy) (resolver : Resolver) (pool : Pool)
    (name descriptor : PoolIndex) : Prop :=
  ∃ nameText descriptorText type, pool.utf8 name = .ok nameText ∧
    pool.utf8 descriptor = .ok descriptorText ∧ FieldType.ofDescriptor descriptorText = .ok type ∧
    policy.AdmitsType resolver type

/-- There is nothing wrong with an operation. -/
def AdmitsOperation {L : Type} (policy : Policy) (resolver : Resolver) (pool : Pool) :
    Operation L → Prop
  | .step (.newArray element) => policy.floatingPointViolation element.isFloatingPoint = none
  | .step (.newRefArray index) | .step (.newMultiArray index _) =>
    ∃ type, pool.classType index = .ok type ∧ policy.AdmitsType resolver (.ref type)
  | operation => policy.floatingPointViolation operation.isFloatingPoint = none

/-- There is nothing wrong with the local variables and the operations of a body. -/
structure AdmitsBody (policy : Policy) (resolver : Resolver) (pool : Pool) (body : Body) :
    Prop where
  localVariables : ∀ range ∈ body.localVariables,
    policy.AdmitsDeclaration resolver pool range.name range.descriptor
  operations : ∀ operation, .operation operation ∈ body.nodes →
    policy.AdmitsOperation resolver pool operation

/-- There is nothing wrong with the declaration of a method. -/
structure AdmitsSignature (policy : Policy) (resolver : Resolver) (name : String)
    (access : AccessFlags) (signature : MethodDescriptor) : Prop where
  native : (!policy.allowsNative && access.has AccessFlags.native) = false
  finalizer : (!policy.allowsFinalizers && name == UnqualifiedName.finalize &&
    signature.parameters.isEmpty) = false
  types : ∀ type ∈ signature.returnType.toList ++ signature.parameters,
    policy.AdmitsType resolver type

/-- There is nothing wrong with a method. -/
def AdmitsMethod (policy : Policy) (resolver : Resolver) (pool : Pool) (method : Member) : Prop :=
  ∃ name descriptor signature found, method.nameIn pool = .ok name ∧
    method.descriptorIn pool = .ok descriptor ∧
    MethodDescriptor.ofDescriptor descriptor = .ok signature ∧
    policy.AdmitsSignature resolver name method.access signature ∧ method.code pool = .ok found ∧
    ∀ code, found = some code →
      ∃ body, Body.decode code pool = .ok body ∧ policy.AdmitsBody resolver pool body

/-- The code of a method that is admitted can be decoded. -/
theorem AdmitsMethod.decodes {pool : Pool} {method : Member}
    (h : policy.AdmitsMethod resolver pool method) : method.Decodes pool := by
  rcases h with ⟨_, _, _, found, _, _, _, _, hfound, hbody⟩
  refine ⟨found, hfound, fun code hcode => ?_⟩
  rcases hbody code hcode with ⟨body, hdecode, _⟩
  exact ⟨body, hdecode⟩

/-- There is nothing wrong with a class. -/
structure AdmitsClass (policy : Policy) (resolver : Resolver) (classFile : ClassFile) : Prop where
  name : ∃ owner, classFile.name = .ok owner
  fields : ∀ field ∈ classFile.fields,
    policy.AdmitsDeclaration resolver classFile.constants field.name field.descriptor
  methods : ∀ method ∈ classFile.methods,
    policy.AdmitsMethod resolver classFile.constants method

/-- A type that is admitted stays so, whatever is asked. -/
theorem AdmitsType.mono {type : FieldType} (h : policy.AdmitsType resolver type)
    (hlater : resolver.Later later) : policy.AdmitsType later type := by
  unfold AdmitsType at h ⊢
  split at h
  · exact h.mono hlater
  · exact h.mono hlater
  · exact h.mono hlater
  · trivial

end Policy

/-! ### What validations find out -/

/-- The classes that are known to be right are admitted. -/
def Validator.Sound (policy : Policy) (validator : Validator) : Prop :=
  ∀ name, validator.checked[name]? = some none → policy.Admits validator.resolver name

/-- A validator that has found out nothing is sound. -/
theorem Validator.sound_ofResolver (policy : Policy) (resolver : Resolver) :
    (ofResolver resolver).Sound policy := by
  intro name h
  simp [ofResolver] at h

namespace Validation

/-- What a question to a validator finds out is right, and the answer has a property from then on.
-/
def Finds {α : Type} (policy : Policy) (question : Validation α) (P : Resolver → α → Prop) : Prop :=
  ∀ validator answer validator', validator.Sound policy →
    question validator = .ok answer validator' → validator'.Sound policy ∧
      validator.resolver.Later validator'.resolver ∧
      ∀ later, validator'.resolver.Later later → P later answer

section Finds

variable {policy : Policy} {α β : Type} {question : Validation α} {next : α → Validation β}
  {P : Resolver → α → Prop}

/-- An answer that is always right finds out nothing. -/
theorem finds_pure {answer : α} (h : ∀ resolver, P resolver answer) :
    Finds policy (pure answer) P := by
  intro validator found validator' hsound hrun
  rcases state_pure_ok.1 hrun with ⟨rfl, rfl⟩
  exact ⟨hsound, .refl _, fun later _ => h later⟩

/-- A check that succeeds has an answer, which is found out. -/
theorem finds_ofExcept (result : Except StructuralError α) :
    Finds policy (ofExcept result) fun _ answer => result = .ok answer := by
  intro validator found validator' hsound hrun
  rcases ofExcept_ok.1 hrun with ⟨hresult, rfl⟩
  exact ⟨hsound, .refl _, fun _ _ => hresult⟩

/-- What was found out in front still holds. -/
theorem Finds.bind {Q : Resolver → β → Prop} (h : Finds policy question P)
    (hnext : ∀ answer, Finds policy (next answer) fun resolver found =>
      P resolver answer → Q resolver found) : Finds policy (question >>= next) Q := by
  intro validator found validator'' hsound hrun
  rcases state_bind_ok.1 hrun with ⟨answer, validator', hfirst, hrest⟩
  rcases h validator answer validator' hsound hfirst with ⟨hsound', hlater, hp⟩
  rcases hnext answer validator' found validator'' hsound' hrest with ⟨hsound'', hlater', hq⟩
  refine ⟨hsound'', hlater.trans hlater', fun later hbehind => ?_⟩
  exact hq later hbehind (hp later (hlater'.trans hbehind))

/-- What was found out may be weakened. -/
theorem Finds.mono {P' : Resolver → α → Prop} (h : Finds policy question P)
    (hmono : ∀ resolver answer, P resolver answer → P' resolver answer) :
    Finds policy question P' := by
  intro validator answer validator' hsound hrun
  rcases h validator answer validator' hsound hrun with ⟨hsound', hlater, hp⟩
  exact ⟨hsound', hlater, fun later hbehind => hmono later answer (hp later hbehind)⟩

/-- Questions about the elements of a list find out something about each. -/
theorem finds_mapM {f : α → Validation β} {P : α → Resolver → β → Prop}
    (h : ∀ a, Finds policy (f a) (P a)) (l : List α) : Finds policy (l.mapM f)
      fun resolver bs => List.Forall₂ (fun a b => P a resolver b) l bs := by
  induction l with
  | nil => exact finds_pure fun _ => .nil
  | cons a l ih =>
    rw [List.mapM_cons]
    refine (h a).bind fun b => ih.bind fun bs => finds_pure fun _ hrest hfirst => ?_
    exact .cons hfirst hrest

end Finds

/-- Nothing is found to be wrong with any element when nothing is found to be wrong with a list. -/
theorem forall_of_flatten_nil {α β : Type} {P : α → Prop} {l : List α} {problems : List (List β)}
    (h : List.Forall₂ (fun a found => found = [] → P a) l problems)
    (hnil : problems.flatten = []) : ∀ a ∈ l, P a := by
  intro a ha
  rcases forall₂_exists h ha with ⟨found, hfound, hp⟩
  exact hp (List.flatten_eq_nil_iff.1 hnil found hfound)

/-- One problem at most is listed, and none only if there is none. -/
theorem map_toList_eq_nil {α β : Type} {f : α → β} {found : Option α} :
    found.toList.map f = [] ↔ found = none := by
  cases found with
  | none => exact iff_of_true rfl rfl
  | some _ => exact iff_of_false nofun nofun

end Validation

namespace Body

/-- The operations that are listed with their lines are those of the nodes. -/
theorem mem_linedOperationsFrom {found : List (Nat × Option UInt16 × Operation Label)}
    {number : Nat} {line : Option UInt16} {nodes : List Node} {operation : Operation Label} :
    (∃ number' line', (number', line', operation) ∈ linedOperationsFrom found number line nodes) ↔
      (∃ number' line', (number', line', operation) ∈ found) ∨ .operation operation ∈ nodes := by
  induction nodes generalizing found number line with
  | nil => simp [linedOperationsFrom]
  | cons node nodes ih =>
    cases node with
    | label label => simp [linedOperationsFrom, ih]
    | line later => simp [linedOperationsFrom, ih]
    | operation first =>
      simp only [linedOperationsFrom, ih, List.mem_cons, Node.operation.injEq, Prod.mk.injEq]
      grind

/-- Every operation of a body is listed with the line in force there. -/
theorem mem_linedOperations {body : Body} {operation : Operation Label} :
    .operation operation ∈ body.nodes ↔
      ∃ number line, (number, line, operation) ∈ body.linedOperations := by
  unfold linedOperations
  rw [mem_linedOperationsFrom]
  simp

end Body

/-! ### Finding out what is wrong -/

namespace Policy

open Validation

/-- Validates something that is declared with a name and a descriptor. -/
def validateDeclaration (policy : Policy) (pool : Pool) (name descriptor : PoolIndex)
    (location : MemberName → Location) : Validation (List Problem) := do
  let nameText ← ofExcept (pool.utf8 name)
  let descriptorText ← ofExcept (pool.utf8 descriptor)
  let type ← ofExcept (FieldType.ofDescriptor descriptorText)
  let violation ← policy.checkType type
  return violation.toList.map (·.problem (location ⟨nameText, descriptorText⟩))

/-- Fields and local variables are validated in the same way. -/
theorem validateField_eq (policy : Policy) (owner : BinaryName) (pool : Pool) :
    policy.validateField owner pool = fun field =>
      policy.validateDeclaration pool field.name field.descriptor (.field owner) := rfl

theorem validateVariable_eq (policy : Policy) (owner : BinaryName) (member : MemberName)
    (pool : Pool) : policy.validateVariable owner member pool = fun range =>
      policy.validateDeclaration pool range.name range.descriptor (.localVariable owner member) := rfl

section Sound

variable (policy : Policy)

/-- A class that was found to be right is admitted, whether that was noted before or not. -/
theorem finds_checkClass (name : BinaryName) : Finds policy (policy.checkClass name)
    fun resolver violation => violation = none → policy.Admits resolver name := by
  intro validator violation validator' hsound hrun
  -- a class that was checked before keeps its answer, because headers are only added
  rcases policy.checkClass_cases name validator with ⟨known, hknown, hanswer⟩ | hanswer
  · rw [hanswer] at hrun
    cases hrun
    refine ⟨hsound, .refl _, ?_⟩
    rintro later hlater rfl
    exact (hsound name hknown).mono hlater
  · rw [hanswer] at hrun
    cases hrun
    have hlater := policy.judgeClass_later name validator.resolver
    refine ⟨fun other hother => ?_, hlater, fun later hbehind hnone => ?_⟩
    · rw [Std.HashMap.getElem?_insert] at hother
      split at hother
      · rename_i hsame
        cases eq_of_beq hsame
        exact (admits_of_judgeClass (Option.some.inj hother)).mono hlater
      · exact (hsound other hother).mono hlater
    · exact (admits_of_judgeClass hnone).mono (hlater.trans hbehind)

/-- A type is judged by the class in it. -/
theorem finds_checkType (type : FieldType) : Finds policy (policy.checkType type)
    fun resolver violation => violation = none → policy.AdmitsType resolver type := by
  unfold checkType AdmitsType
  generalize type.innermost = innermost
  cases innermost with
  | base element =>
    cases element with
    | float => exact policy.finds_checkClass _
    | double => exact policy.finds_checkClass _
    | _ => exact finds_pure fun _ _ => trivial
  | ref array =>
    cases array with
    | object name => exact policy.finds_checkClass name
    | _ => exact finds_pure fun _ _ => trivial

/-- Where no type of a list is found wrong, all of them are admitted. -/
theorem finds_checkTypes (types : List FieldType) :
    Finds policy (types.findSomeM? policy.checkType) fun resolver violation =>
      violation = none → ∀ type ∈ types, policy.AdmitsType resolver type := by
  induction types with
  | nil => exact finds_pure fun _ _ => nofun
  | cons type types ih =>
    rw [List.findSomeM?_cons]
    refine (policy.finds_checkType type).bind fun violation => ?_
    cases violation with
    | some violation => exact finds_pure fun _ _ => nofun
    | none =>
      exact ih.mono fun resolver _ hrest hfirst hnone =>
        List.forall_mem_cons.2 ⟨hfirst rfl, hrest hnone⟩

/-- A declaration without problems has a type that is admitted. -/
theorem finds_validateDeclaration (pool : Pool) (name descriptor : PoolIndex)
    (location : MemberName → Location) :
    Finds policy (policy.validateDeclaration pool name descriptor location)
      fun resolver problems => problems = [] →
        policy.AdmitsDeclaration resolver pool name descriptor := by
  unfold validateDeclaration
  refine (finds_ofExcept _).bind fun nameText => (finds_ofExcept _).bind fun descriptorText => ?_
  refine (finds_ofExcept _).bind fun type => (policy.finds_checkType type).bind fun violation => ?_
  refine finds_pure fun resolver htype hof hdescriptor hname hnil => ?_
  exact ⟨nameText, descriptorText, type, hname, hdescriptor, hof, htype (map_toList_eq_nil.1 hnil)⟩

theorem finds_validateSignature (owner : BinaryName) (member : MemberName) (access : AccessFlags)
    (signature : MethodDescriptor) :
    Finds policy (policy.validateSignature owner member access signature)
      fun resolver problems => problems = [] →
        policy.AdmitsSignature resolver member.name access signature := by
  unfold validateSignature
  refine (policy.finds_checkTypes _).bind fun violation => finds_pure fun resolver htypes hnil => ?_
  rcases List.append_eq_nil_iff.1 hnil with ⟨hflags, hviolation⟩
  rcases List.append_eq_nil_iff.1 hflags with ⟨hnative, hfinalizer⟩
  refine ⟨?_, ?_, htypes (map_toList_eq_nil.1 hviolation)⟩
  · simpa using hnative
  · simpa using hfinalizer

/-- An operation is judged by the type that it names. -/
theorem finds_checkOperation {L : Type} (pool : Pool) (operation : Operation L) :
    Finds policy (policy.checkOperation pool operation) fun resolver violation =>
      violation = none → policy.AdmitsOperation resolver pool operation := by
  have hclass : ∀ index, Finds policy (policy.checkClassConstant pool index)
      fun resolver violation => violation = none →
        ∃ type, pool.classType index = .ok type ∧ policy.AdmitsType resolver (.ref type) := by
    intro index
    refine (finds_ofExcept _).bind fun type => (policy.finds_checkType _).mono ?_
    exact fun resolver violation htype hclass hnone => ⟨type, hclass, htype hnone⟩
  unfold checkOperation AdmitsOperation
  cases operation with
  | branch b => exact finds_pure fun _ => id
  | step instruction =>
    -- only two instructions name a class that is checked
    cases instruction with
    | newRefArray index => exact hclass index
    | newMultiArray index _ => exact hclass index
    | _ => exact finds_pure fun _ => id

theorem finds_validateOperation (owner : BinaryName) (member : MemberName) (pool : Pool)
    (lined : Nat × Option UInt16 × Operation Label) :
    Finds policy (policy.validateOperation owner member pool lined) fun resolver problems =>
      problems = [] → policy.AdmitsOperation resolver pool lined.2.2 := by
  refine (policy.finds_checkOperation pool lined.2.2).bind fun violation => finds_pure ?_
  exact fun resolver hoperation hnil => hoperation (map_toList_eq_nil.1 hnil)

/-- A body without problems has none in its variables and none in its operations. -/
theorem finds_validateBody (owner : BinaryName) (member : MemberName) (pool : Pool) (body : Body) :
    Finds policy (policy.validateBody owner member pool body) fun resolver problems =>
      problems = [] → policy.AdmitsBody resolver pool body := by
  unfold validateBody
  rw [validateVariable_eq]
  have hvariables := finds_mapM (fun range : VariableRange => policy.finds_validateDeclaration pool
    range.name range.descriptor (.localVariable owner member)) body.localVariables
  have hoperations := finds_mapM (policy.finds_validateOperation owner member pool)
    body.linedOperations
  refine hvariables.bind fun found => hoperations.bind fun operations => ?_
  refine finds_pure fun resolver hoperations hvariables hnil => ?_
  rcases List.append_eq_nil_iff.1 hnil with ⟨hnone, hnone'⟩
  refine ⟨forall_of_flatten_nil hvariables hnone, fun operation hmem => ?_⟩
  rcases Body.mem_linedOperations.1 hmem with ⟨number, line, hlined⟩
  exact forall_of_flatten_nil hoperations hnone' _ hlined

/-- A method without problems is admitted, with its code if it has any. -/
theorem finds_validateMethod (owner : BinaryName) (pool : Pool) (method : Member) :
    Finds policy (policy.validateMethod owner pool method) fun resolver problems =>
      problems = [] → policy.AdmitsMethod resolver pool method := by
  unfold validateMethod
  refine (finds_ofExcept _).bind fun name => (finds_ofExcept _).bind fun descriptor => ?_
  refine (finds_ofExcept _).bind fun signature => ?_
  refine (policy.finds_validateSignature owner _ _ _).bind fun problems => ?_
  refine (finds_ofExcept _).bind fun found => ?_
  -- a method without code is only checked for its signature
  cases found with
  | none =>
    refine finds_pure fun resolver hcode hsignature hof hdescriptor hname hnil => ?_
    exact ⟨name, descriptor, signature, none, hname, hdescriptor, hof, hsignature hnil, hcode, nofun⟩
  | some code =>
    refine (finds_ofExcept _).bind fun body => (policy.finds_validateBody owner _ pool body).bind ?_
    intro more
    refine finds_pure fun resolver hbody hdecode hcode hsignature hof hdescriptor hname hnil => ?_
    rcases List.append_eq_nil_iff.1 hnil with ⟨hnone, hnone'⟩
    refine ⟨name, descriptor, signature, some code, hname, hdescriptor, hof, hsignature hnone, hcode, ?_⟩
    rintro _ ⟨⟩
    exact ⟨body, hdecode, hbody hnone'⟩

/-- A class without problems is admitted. -/
theorem finds_validate (classFile : ClassFile) :
    Finds policy (classFile.validate policy) fun resolver problems =>
      problems = [] → policy.AdmitsClass resolver classFile := by
  unfold ClassFile.validate
  refine (finds_ofExcept _).bind fun owner => ?_
  rw [validateField_eq]
  have hfields := finds_mapM (fun field : Member => policy.finds_validateDeclaration
    classFile.constants field.name field.descriptor (.field owner)) classFile.fields
  have hmethods := finds_mapM (policy.finds_validateMethod owner classFile.constants)
    classFile.methods
  refine hfields.bind fun fields => hmethods.bind fun methods => ?_
  refine finds_pure fun resolver hmethods hfields hname hnil => ?_
  rcases List.append_eq_nil_iff.1 hnil with ⟨hnone, hnone'⟩
  exact ⟨⟨owner, hname⟩, forall_of_flatten_nil hfields hnone, forall_of_flatten_nil hmethods hnone'⟩

end Sound

/-- A class in which nothing is found to be wrong is admitted from then on. -/
theorem validate_admits {policy : Policy} {resolver : Resolver} {classFile : ClassFile}
    {validator : Validator}
    (h : classFile.validate policy (.ofResolver resolver) = .ok [] validator) :
    policy.AdmitsClass validator.resolver classFile ∧ resolver.Later validator.resolver := by
  rcases policy.finds_validate classFile _ _ _ (Validator.sound_ofResolver policy resolver) h with
    ⟨_, hlater, hadmits⟩
  exact ⟨hadmits _ (.refl _) rfl, hlater⟩

end Policy

/-! ### Finding nothing wrong -/

/-- A validator knows no better than a resolver: it has nothing against the classes that are
admitted for the resolver. -/
structure Validator.Fair (policy : Policy) (base : Resolver) (validator : Validator) : Prop where
  later : base.Later validator.resolver
  checked : ∀ name violation, policy.Admits base name →
    validator.checked[name]? = some violation → violation = none

namespace Validation

/-- All validators that know no better give this answer to a question. -/
def Passes {α : Type} (policy : Policy) (base : Resolver) (question : Validation α) (answer : α) :
    Prop :=
  ∀ validator, validator.Fair policy base →
    ∃ validator', question validator = .ok answer validator' ∧ validator'.Fair policy base

variable {policy : Policy} {base : Resolver} {α β : Type} {question : Validation α} {answer : α}
  {next : α → Validation β} {found : β}

theorem passes_pure (answer : α) : Passes policy base (pure answer) answer :=
  fun validator hfair => ⟨validator, rfl, hfair⟩

/-- A check that succeeds is passed by all of them. -/
theorem passes_ofExcept {result : Except StructuralError α} (h : result = .ok answer) :
    Passes policy base (ofExcept result) answer :=
  fun validator hfair => ⟨validator, ofExcept_ok.2 ⟨h, rfl⟩, hfair⟩

/-- Two questions that are passed are passed together. -/
theorem Passes.bind (h : Passes policy base question answer)
    (hnext : Passes policy base (next answer) found) :
    Passes policy base (question >>= next) found := by
  intro validator hfair
  rcases h validator hfair with ⟨middle, hfirst, hfair'⟩
  rcases hnext middle hfair' with ⟨validator', hrest, hfair''⟩
  exact ⟨validator', state_bind_ok.2 ⟨answer, middle, hfirst, hrest⟩, hfair''⟩

/-- Nothing is found to be wrong with the elements of a list. -/
theorem passes_mapM {f : α → Validation (List β)} {l : List α}
    (h : ∀ a ∈ l, Passes policy base (f a) []) :
    ∃ problems, Passes policy base (l.mapM f) problems ∧ problems.flatten = [] := by
  induction l with
  | nil => exact ⟨[], passes_pure [], rfl⟩
  | cons a l ih =>
    rcases List.forall_mem_cons.1 h with ⟨hfirst, hrest⟩
    rcases ih hrest with ⟨problems, hproblems, hnil⟩
    refine ⟨[] :: problems, ?_, hnil⟩
    rw [List.mapM_cons]
    exact hfirst.bind (hproblems.bind (passes_pure _))

end Validation

namespace Policy

open Validation

variable {policy : Policy} {base : Resolver}

/-- A class that is admitted is noted to be right, or is judged to be. -/
theorem passes_checkClass {name : BinaryName} (h : policy.Admits base name) :
    Passes policy base (policy.checkClass name) none := by
  intro validator hfair
  rcases policy.checkClass_cases name validator with ⟨known, hknown, hanswer⟩ | hanswer
  · cases hfair.checked name known h hknown
    exact ⟨validator, hanswer, hfair⟩
  · have hjudged := h validator.resolver hfair.later
    have hlater := policy.judgeClass_later name validator.resolver
    rw [hjudged] at hanswer
    refine ⟨_, hanswer, hfair.later.trans hlater, fun other violation hother hget => ?_⟩
    rw [Std.HashMap.getElem?_insert] at hget
    split at hget
    · exact (Option.some.inj hget).symm
    · exact hfair.checked other violation hother hget

theorem passes_checkType {type : FieldType} (h : policy.AdmitsType base type) :
    Passes policy base (policy.checkType type) none := by
  unfold checkType
  unfold AdmitsType at h
  -- an array is checked by what it consists of
  generalize type.innermost = innermost at h
  cases innermost with
  | base element =>
    cases element with
    | float => exact passes_checkClass h
    | double => exact passes_checkClass h
    | _ => exact passes_pure none
  | ref array =>
    cases array with
    | object name => exact passes_checkClass h
    | _ => exact passes_pure none

/-- No type of a list is found wrong if each is admitted. -/
theorem passes_checkTypes {types : List FieldType} (h : ∀ type ∈ types, policy.AdmitsType base type) :
    Passes policy base (types.findSomeM? policy.checkType) none := by
  induction types with
  | nil => exact passes_pure none
  | cons type types ih =>
    rcases List.forall_mem_cons.1 h with ⟨hfirst, hrest⟩
    rw [List.findSomeM?_cons]
    exact (passes_checkType hfirst).bind (ih hrest)

theorem passes_validateDeclaration {pool : Pool} {name descriptor : PoolIndex}
    (h : policy.AdmitsDeclaration base pool name descriptor) (location : MemberName → Location) :
    Passes policy base (policy.validateDeclaration pool name descriptor location) [] := by
  rcases h with ⟨nameText, descriptorText, type, hname, hdescriptor, hof, htype⟩
  unfold validateDeclaration
  exact (passes_ofExcept hname).bind ((passes_ofExcept hdescriptor).bind ((passes_ofExcept hof).bind
    ((passes_checkType htype).bind (passes_pure []))))

theorem passes_validateSignature {member : MemberName} {access : AccessFlags}
    {signature : MethodDescriptor} (h : policy.AdmitsSignature base member.name access signature)
    (owner : BinaryName) :
    Passes policy base (policy.validateSignature owner member access signature) [] := by
  unfold validateSignature
  refine (passes_checkTypes h.types).bind ?_
  simp only [h.native, h.finalizer]
  exact passes_pure []

/-- An operation that is admitted passes. -/
theorem passes_checkOperation {L : Type} {pool : Pool} {operation : Operation L}
    (h : policy.AdmitsOperation base pool operation) :
    Passes policy base (policy.checkOperation pool operation) none := by
  have hpure : ∀ {violation : Option TypeViolation}, violation = none →
      Passes policy base (pure violation) none := by
    rintro _ rfl
    exact passes_pure none
  have hclass : ∀ {index}, (∃ type, pool.classType index = .ok type ∧
      policy.AdmitsType base (.ref type)) →
        Passes policy base (policy.checkClassConstant pool index) none := by
    rintro index ⟨type, htype, hadmits⟩
    exact (passes_ofExcept htype).bind (passes_checkType hadmits)
  unfold checkOperation
  unfold AdmitsOperation at h
  cases operation with
  | branch b => exact hpure h
  | step instruction =>
    cases instruction with
    | newRefArray index => exact hclass h
    | newMultiArray index _ => exact hclass h
    | _ => exact hpure h

/-- A body that is admitted has no problems. -/
theorem passes_validateBody {pool : Pool} {body : Body} (h : policy.AdmitsBody base pool body)
    (owner : BinaryName) (member : MemberName) :
    Passes policy base (policy.validateBody owner member pool body) [] := by
  unfold validateBody
  rw [validateVariable_eq]
  -- no declaration and no operation adds a problem
  have hvariables := passes_mapM fun range hrange => passes_validateDeclaration
    (h.localVariables range hrange) (.localVariable owner member)
  have hoperations := passes_mapM (f := policy.validateOperation owner member pool)
    (l := body.linedOperations) fun lined hlined =>
      (passes_checkOperation (h.operations _ (Body.mem_linedOperations.2 ⟨_, _, hlined⟩))).bind
        (passes_pure [])
  rcases hvariables with ⟨problems, hvariables, hnil⟩
  rcases hoperations with ⟨problems', hoperations, hnil'⟩
  refine hvariables.bind (hoperations.bind ?_)
  rw [hnil, hnil']
  exact passes_pure []

/-- Nor has a method that is admitted. -/
theorem passes_validateMethod {pool : Pool} {method : Member}
    (h : policy.AdmitsMethod base pool method) (owner : BinaryName) :
    Passes policy base (policy.validateMethod owner pool method) [] := by
  rcases h with ⟨name, descriptor, signature, found, hname, hdescriptor, hof, hsignature, hcode, hbody⟩
  refine (passes_ofExcept hname).bind ((passes_ofExcept hdescriptor).bind ((passes_ofExcept hof).bind ?_))
  refine (passes_validateSignature hsignature owner).bind ((passes_ofExcept hcode).bind ?_)
  cases found with
  | none => exact passes_pure []
  | some code =>
    rcases hbody code rfl with ⟨body, hdecode, hadmits⟩
    exact (passes_ofExcept hdecode).bind ((passes_validateBody hadmits owner _).bind (passes_pure []))

/-- Nothing is found to be wrong with a class that is admitted. -/
theorem AdmitsClass.passes {classFile : ClassFile} (h : policy.AdmitsClass base classFile) :
    Passes policy base (classFile.validate policy) [] := by
  rcases h.name with ⟨owner, hname⟩
  have hfields := passes_mapM fun field hfield =>
    passes_validateDeclaration (h.fields field hfield) (.field owner)
  have hmethods := passes_mapM (f := policy.validateMethod owner classFile.constants)
    fun method hmethod => passes_validateMethod (h.methods method hmethod) owner
  rcases hfields with ⟨problems, hfields, hnil⟩
  rcases hmethods with ⟨problems', hmethods, hnil'⟩
  unfold ClassFile.validate
  refine (passes_ofExcept hname).bind ?_
  -- fields are declarations like the ones of variables
  rw [validateField_eq]
  refine hfields.bind (hmethods.bind ?_)
  rw [hnil, hnil']
  exact passes_pure []

end Policy

end Preverification

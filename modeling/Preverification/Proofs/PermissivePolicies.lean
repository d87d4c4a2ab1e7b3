import Preverification.Proofs.MemberFindings

/-!
# Policies that allow floating point

A class is validated by a policy and by the same policy with floating point allowed. The second list
of problems is the first one without floating point, but for one thing: the types of a method are
one problem at most, and the first one counts. If that one has to do with floating point, nothing is
said about a later type that is missing. Only when floating point is allowed is that type listed.

* `Problem.Relaxes`: what becomes of a list of problems when floating point is allowed.
* `Policy.beside_validateSignature`: the one place where a problem may be hidden by another one.
* `ClassFile.validate_permissive`: allowing floating point drops the problems with it, and shows
  what they hid.
* `namesMissing_finds_more`: a class for which the list with floating point allowed has something
  new in it.
-/

namespace Preverification

/-! ### Types -/

/-- The class at which the superclasses of a class break off. The root and the wrappers of
floating-point values are not looked up. -/
def Resolver.missing? (resolver : Resolver) (name : BinaryName) : Option BinaryName :=
  if name.isFloatingPointWrapper || name = BinaryName.object then none
  else match ancestorChain name resolver with
    | .ok _ _ => none
    | .error error _ => some error.className

/-- The class that is missing for a type, or for the innermost elements of an array. -/
def FieldType.missing? (resolver : Resolver) (type : FieldType) : Option BinaryName :=
  match type.innermost with
  | .ref (.object name) => resolver.missing? name
  | _ => none

/-- The class that is missing for the first type of a method for which one is. The result comes
first, and then the parameters. -/
def MethodDescriptor.missing? (resolver : Resolver) (signature : MethodDescriptor) :
    Option BinaryName :=
  (signature.returnType.toList ++ signature.parameters).findSome? (·.missing? resolver)

@[simp] theorem FieldType.missing?_base (resolver : Resolver) (element : BaseType) :
    (base element).missing? resolver = none := by
  unfold missing? innermost
  rfl

@[simp] theorem FieldType.missing?_object (resolver : Resolver) (name : BinaryName) :
    (object name).missing? resolver = resolver.missing? name := rfl

/-- The missing class is the one at which the chain of superclasses breaks off. -/
theorem Resolver.missing?_eq_some {resolver : Resolver} {name : BinaryName}
    {looked : List BinaryName} {error : ResolveError} (hwrapper : name.isFloatingPointWrapper = false)
    (hroot : name ≠ .object) (h : Headers.Chain resolver.header? [] name looked (.error error)) :
    resolver.missing? name = some error.className := by
  obtain ⟨looked', answer, hchain, after, hrun, -⟩ := ancestorChain_gives name resolver
  obtain ⟨-, rfl⟩ := hchain.unique h
  unfold missing?
  rw [hwrapper, decide_eq_false hroot, hrun]
  rfl

namespace Policy

open Validator

variable {policy : Policy} {resolver : Resolver}

/-- The policy with floating point allowed. -/
def permissive (policy : Policy) : Policy := { policy with allowsFloatingPoint := true }

/-- What is wrong with a type, by the headers that a resolver has. -/
def judgeType (policy : Policy) (resolver : Resolver) (type : FieldType) : Option TypeViolation :=
  match type.innermost with
  | .base .float => (policy.judgeClass BinaryName.float resolver).1
  | .base .double => (policy.judgeClass BinaryName.double resolver).1
  | .ref (.object name) => (policy.judgeClass name resolver).1
  | _ => none

/-- A violation, unless it is that of floating point. -/
abbrev besidesFloatingPoint (violation : Option TypeViolation) : Option TypeViolation :=
  violation.filter (· ≠ .floatingPoint)

/-- Nothing that has to do with floating point violates a policy that allows it. -/
theorem permissive_floatingPointViolation_eq_none (policy : Policy) (isFloatingPoint : Bool) :
    policy.permissive.floatingPointViolation isFloatingPoint = none := by
  unfold floatingPointViolation permissive
  simp

/-- A policy that allows floating point leaves nothing of a violation by floating point. -/
theorem permissive_floatingPointViolation (policy : Policy) (isFloatingPoint : Bool) :
    policy.permissive.floatingPointViolation isFloatingPoint =
      besidesFloatingPoint (policy.floatingPointViolation isFloatingPoint) := by
  rw [permissive_floatingPointViolation_eq_none]
  unfold floatingPointViolation
  split <;> rfl

/-- Allowing floating point takes that violation away, and no other one. -/
theorem permissive_judgeClass (policy : Policy) (name : BinaryName) (resolver : Resolver) :
    (policy.permissive.judgeClass name resolver).1 =
      besidesFloatingPoint (policy.judgeClass name resolver).1 := by
  unfold judgeClass
  split
  · exact policy.permissive_floatingPointViolation true
  · split
    · rfl
    · split
      · exact policy.permissive_floatingPointViolation _
      · rfl

/-- Types are judged as before, besides floating point. -/
theorem permissive_judgeType (policy : Policy) (resolver : Resolver) (type : FieldType) :
    policy.permissive.judgeType resolver type =
      besidesFloatingPoint (policy.judgeType resolver type) := by
  unfold judgeType
  split
  · exact policy.permissive_judgeClass _ _
  · exact policy.permissive_judgeClass _ _
  · exact policy.permissive_judgeClass _ _
  · rfl

/-- When floating point is allowed, the only thing that can be wrong with a class is that one is
missing. -/
theorem permissive_judgeClass_eq_missing (policy : Policy) (name : BinaryName)
    (resolver : Resolver) :
    (policy.permissive.judgeClass name resolver).1 =
      (resolver.missing? name).map TypeViolation.missing := by
  have hnone := policy.permissive_floatingPointViolation_eq_none
  unfold judgeClass Resolver.missing?
  -- what is left to find are classes that cannot be loaded
  by_cases hwrapper : name.isFloatingPointWrapper = true
  · rw [if_pos hwrapper, hwrapper]
    exact hnone true
  · rw [if_neg hwrapper, Bool.eq_false_iff.2 hwrapper, Bool.false_or]
    by_cases hroot : name = .object
    · rw [if_pos hroot, if_pos (decide_eq_true hroot)]
      rfl
    · rw [if_neg hroot, if_neg (by simpa using hroot)]
      cases Resolver.ancestorChain name resolver with
      | ok chain after => exact hnone _
      | error error after => rfl

/-- When floating point is allowed, the only thing that can be wrong with a type is that a class is
missing. -/
theorem permissive_judgeType_eq_missing (policy : Policy) (resolver : Resolver)
    (type : FieldType) :
    policy.permissive.judgeType resolver type =
      (type.missing? resolver).map TypeViolation.missing := by
  -- wrappers of numbers are not asked for
  have hwrapper : ∀ name : BinaryName, name.isFloatingPointWrapper = true →
      (policy.permissive.judgeClass name resolver).1 = none := by
    intro name h
    rw [permissive_judgeClass_eq_missing]
    unfold Resolver.missing?
    rw [h]
    rfl
  unfold judgeType FieldType.missing?
  generalize type.innermost = innermost
  cases innermost with
  | base element =>
    cases element with
    | float => exact hwrapper _ rfl
    | double => exact hwrapper _ rfl
    | _ => rfl
  | ref array =>
    cases array with
    | object name => exact policy.permissive_judgeClass_eq_missing name resolver
    | _ => rfl

/-! ### Types of methods -/

/-- Of several types it is the first one with a class that is missing. -/
theorem permissive_findSome? (policy : Policy) (resolver : Resolver) (types : List FieldType) :
    types.findSome? (policy.permissive.judgeType resolver) =
      (types.findSome? (·.missing? resolver)).map TypeViolation.missing := by
  induction types with
  | nil => rfl
  | cons type types ih =>
    rw [List.findSome?_cons, List.findSome?_cons, permissive_judgeType_eq_missing, ih]
    cases type.missing? resolver <;> rfl

/-- The first violation is that of floating point, or it is the first one without floating point. -/
theorem findSome?_judgeType (policy : Policy) (resolver : Resolver) (types : List FieldType) :
    types.findSome? (policy.judgeType resolver) = some .floatingPoint ∨
      types.findSome? (policy.judgeType resolver) =
        types.findSome? (policy.permissive.judgeType resolver) := by
  induction types with
  | nil => exact .inr rfl
  | cons type types ih =>
    rw [List.findSome?_cons, List.findSome?_cons, permissive_judgeType]
    -- a type with which nothing is wrong is passed by both; one that is missing stops both
    rcases policy.judgeType resolver type with _ | _ | name
    · exact ih
    · exact .inl rfl
    · exact .inr rfl

/-! ### Answers -/

/-- The answer about a type can be told from the headers. -/
theorem checkType_eq {validator : Validator} (h : validator.Faithful policy resolver.header?)
    (type : FieldType) : ∃ after, after.Faithful policy resolver.header? ∧
      policy.checkType type validator = .ok (policy.judgeType resolver type) after := by
  -- a judgement only depends on the headers
  have hclass : ∀ name, ∃ after, after.Faithful policy resolver.header? ∧
      policy.checkClass name validator = .ok (policy.judgeClass name resolver).1 after := by
    intro name
    rw [← (policy.judgeClass_eq name ⟨h.header?_eq, rfl⟩).1]
    exact checkClass_eq h name
  unfold checkType judgeType
  generalize type.innermost = innermost
  cases innermost with
  | base element =>
    cases element with
    | float => exact hclass _
    | double => exact hclass _
    | _ => exact ⟨validator, h, rfl⟩
  | ref array =>
    cases array with
    | object name => exact hclass name
    | _ => exact ⟨validator, h, rfl⟩

/-- The answer about several types can be told from the headers too. It is the first violation. -/
theorem checkTypes_eq {validator : Validator} (h : validator.Faithful policy resolver.header?)
    (types : List FieldType) : ∃ after, after.Faithful policy resolver.header? ∧
      types.findSomeM? policy.checkType validator =
        .ok (types.findSome? (policy.judgeType resolver)) after := by
  -- a violation that is found ends the search
  induction types generalizing validator with
  | nil => exact ⟨validator, h, rfl⟩
  | cons type types ih =>
    obtain ⟨middle, hmiddle, hfirst⟩ := checkType_eq h type
    rw [List.findSomeM?_cons, List.findSome?_cons]
    cases hjudged : policy.judgeType resolver type with
    | some violation =>
      rw [hjudged] at hfirst
      exact ⟨middle, hmiddle, state_bind_ok.2 ⟨_, middle, hfirst, rfl⟩⟩
    | none =>
      rw [hjudged] at hfirst
      obtain ⟨after, hafter, hrest⟩ := ih hmiddle
      exact ⟨after, hafter, state_bind_ok.2 ⟨_, middle, hfirst, hrest⟩⟩

end Policy

/-! ### Problems -/

namespace Problem

/-- The problem that the declaration of a method does not have because it has another one: that a
class is missing for one of its types. -/
def hidden? (resolver : Resolver) (problem : Problem) : Option Problem :=
  match problem.location with
  | .method _ member =>
    match MethodDescriptor.ofDescriptor member.descriptor with
    | .ok signature => (signature.missing? resolver).map fun name =>
      ⟨.missingType, problem.location, some name.text⟩
    | .error _ => none
  | _ => none

/-- What becomes of a problem when floating point is allowed. -/
def relaxed (resolver : Resolver) (problem : Problem) : List Problem :=
  if problem.kind = .floatingPoint then (problem.hidden? resolver).toList else [problem]

variable {resolver : Resolver}

/-- A problem that has nothing to do with floating point stays. -/
theorem relaxed_of_ne {problem : Problem} (h : problem.kind ≠ .floatingPoint) :
    problem.relaxed resolver = [problem] := if_neg h

/-- What a list of problems becomes when floating point is allowed. -/
def Relaxes (resolver : Resolver) (problems found : List Problem) : Prop :=
  found = problems.flatMap (relaxed resolver)

/-- Lists of problems that are put together are relaxed each on its own. -/
theorem Relaxes.append {problems problems' found found' : List Problem}
    (h : Relaxes resolver problems found) (h' : Relaxes resolver problems' found') :
    Relaxes resolver (problems ++ problems') (found ++ found') := by
  unfold Relaxes
  rw [List.flatMap_append, h, h']

/-- A list without floating point stays as it is. -/
theorem relaxes_of_ne {problems : List Problem}
    (h : ∀ problem ∈ problems, problem.kind ≠ .floatingPoint) :
    Relaxes resolver problems problems := by
  induction problems with
  | nil => rfl
  | cons problem problems ih =>
    obtain ⟨hfirst, hrest⟩ := List.forall_mem_cons.1 h
    unfold Relaxes
    rw [List.flatMap_cons, relaxed_of_ne hfirst, ← ih hrest]
    rfl

theorem relaxes_flatten {parts found : List (List Problem)}
    (h : List.Forall₂ (Relaxes resolver) parts found) :
    Relaxes resolver parts.flatten found.flatten := by
  induction h with
  | nil => rfl
  | cons hfirst _ ih => exact hfirst.append ih

/-- If floating point hides nothing, it is dropped and that is all. -/
theorem Relaxes.eq_filter {problems found : List Problem} (h : Relaxes resolver problems found)
    (hnone : ∀ problem ∈ problems, problem.kind = .floatingPoint →
      problem.hidden? resolver = none) :
    found = problems.filter (·.kind ≠ .floatingPoint) := by
  subst h
  induction problems with
  | nil => rfl
  | cons problem problems ih =>
    obtain ⟨hfirst, hrest⟩ := List.forall_mem_cons.1 hnone
    rw [List.flatMap_cons, ih hrest, List.filter_cons]
    unfold relaxed
    by_cases hkind : problem.kind = .floatingPoint
    · rw [if_pos hkind, hfirst hkind, if_neg (by simpa using hkind)]
      rfl
    · rw [if_neg hkind, if_pos (by simpa using hkind)]
      rfl

/-- Only that a class is missing is hidden, and only at the declaration of a method. -/
theorem eq_of_hidden? {problem found : Problem} (h : problem.hidden? resolver = some found) :
    found.kind = .missingType ∧ found.location = problem.location ∧
      ∃ owner member, problem.location = .method owner member := by
  unfold hidden? at h
  split at h
  · rename_i owner member hlocation
    split at h
    · obtain ⟨name, -, rfl⟩ := Option.map_eq_some_iff.1 h
      exact ⟨rfl, rfl, owner, member, hlocation⟩
    · cases h
  · cases h

/-- Nothing new is found but what was hidden. -/
theorem Relaxes.mem {problems found : List Problem} (h : Relaxes resolver problems found)
    {problem : Problem} (hmem : problem ∈ found) : problem ∈ problems ∨
      problem.kind = .missingType ∧ ∃ owner member, problem.location = .method owner member ∧
        ∃ shown ∈ problems, shown.kind = .floatingPoint ∧ shown.location = problem.location := by
  subst h
  obtain ⟨shown, hshown, hmem⟩ := List.mem_flatMap.1 hmem
  unfold relaxed at hmem
  split at hmem
  · rename_i hkind
    obtain ⟨hmissing, hlocation, owner, member, hmethod⟩ :=
      eq_of_hidden? (Option.mem_toList.1 hmem)
    exact .inr ⟨hmissing, owner, member, hlocation.trans hmethod, shown, hshown, hkind,
      hlocation.symm⟩
  · cases List.mem_singleton.1 hmem
    exact .inl hshown

/-- At a place that is not the declaration of a method, one type is judged. -/
theorem relaxes_problems {location : Location}
    (h : ∀ owner member, location ≠ .method owner member) (violation : Option TypeViolation) :
    Relaxes resolver (location.problems violation)
      (location.problems (Policy.besidesFloatingPoint violation)) := by
  rcases violation with _ | _ | name
  · rfl
  · -- only a signature hides a problem behind another one
    have hnone : hidden? resolver ⟨.floatingPoint, location, none⟩ = none := by
      unfold hidden?
      split
      · rename_i owner member heq
        exact absurd heq (h owner member)
      · rfl
    change [] = relaxed resolver ⟨.floatingPoint, location, none⟩ ++ []
    unfold relaxed
    rw [if_pos rfl, hnone]
    rfl
  · rfl

end Problem

/-! ### Members -/

/-- Two validators know about classes what the headers tell. Floating point is allowed to the second
one. -/
structure Validator.Abreast (policy : Policy) (headers : Headers) (first second : Validator) :
    Prop where
  first : first.Faithful policy headers
  second : second.Faithful policy.permissive headers

namespace Policy

open Validation Validator Problem

variable {policy : Policy} {resolver : Resolver} {owner : BinaryName} {member : MemberName}
  {pool : Pool}

/-- Of one type, the permissive policy sees what the other one sees besides floating point. -/
theorem beside_checkType (type : FieldType) :
    Beside (Abreast policy resolver.header?)
      (fun violation violation' => violation' = besidesFloatingPoint violation)
      (policy.checkType type) (policy.permissive.checkType type) := by
  rintro first second ⟨hfirst, hsecond⟩
  obtain ⟨after, hafter, hrun⟩ := checkType_eq hfirst type
  obtain ⟨after', hafter', hrun'⟩ := checkType_eq hsecond type
  rw [hrun, hrun']
  exact .ok (policy.permissive_judgeType resolver type) ⟨hafter, hafter'⟩

/-- A declaration with one type has nothing to hide. -/
theorem beside_validateDeclaration {name descriptor : PoolIndex} {location : MemberName → Location}
    (hlocation : ∀ declared owner member, location declared ≠ .method owner member) :
    Beside (Abreast policy resolver.header?) (Relaxes resolver)
      (policy.validateDeclaration pool name descriptor location)
      (policy.permissive.validateDeclaration pool name descriptor location) := by
  refine (beside_ofExcept _).bind ?_
  rintro nameText _ ⟨-, rfl⟩
  refine (beside_ofExcept _).bind ?_
  rintro descriptorText _ ⟨-, rfl⟩
  refine (beside_ofExcept _).bind ?_
  rintro type _ ⟨-, rfl⟩
  refine (beside_checkType type).bind ?_
  rintro violation _ rfl
  exact beside_pure (relaxes_problems (hlocation _) violation)

/-- Of several types the permissive policy sees the first one that is missing. The other policy sees
that one, or floating point in front of it. -/
theorem beside_checkTypes (types : List FieldType) :
    Beside (Abreast policy resolver.header?)
      (fun violation violation' =>
        violation' = (types.findSome? (·.missing? resolver)).map TypeViolation.missing ∧
          (violation = some .floatingPoint ∨ violation = violation'))
      (types.findSomeM? policy.checkType) (types.findSomeM? policy.permissive.checkType) := by
  rintro first second ⟨hfirst, hsecond⟩
  obtain ⟨after, hafter, hrun⟩ := checkTypes_eq hfirst types
  obtain ⟨after', hafter', hrun'⟩ := checkTypes_eq hsecond types
  rw [hrun, hrun']
  exact .ok ⟨policy.permissive_findSome? resolver types, policy.findSome?_judgeType resolver types⟩
    ⟨hafter, hafter'⟩

/-- The types of a method are one problem at most, so floating point may hide that one of them is
missing. -/
theorem beside_validateSignature {access : AccessFlags} {signature : MethodDescriptor}
    (hsignature : MethodDescriptor.ofDescriptor member.descriptor = .ok signature) :
    Beside (Abreast policy resolver.header?) (Relaxes resolver)
      (policy.validateSignature owner member access signature)
      (policy.permissive.validateSignature owner member access signature) := by
  refine (beside_checkTypes _).bind ?_
  rintro violation _ ⟨rfl, hviolation⟩
  refine beside_pure (Relaxes.append (relaxes_of_ne ?_) ?_)
  · -- the flags are looked at in the same way
    intro problem hmem
    rcases List.mem_append.1 hmem with hnative | hfinalizer
    · split at hnative
      · cases List.mem_singleton.1 hnative
        nofun
      · cases hnative
    · split at hfinalizer
      · cases List.mem_singleton.1 hfinalizer
        nofun
      · cases hfinalizer
  · change Relaxes resolver _
      ((Location.method owner member).problems ((signature.missing? resolver).map .missing))
    rcases hviolation with rfl | rfl
    · -- floating point came first, and what is behind it becomes visible
      have hhidden : hidden? resolver ⟨.floatingPoint, .method owner member, none⟩ =
          (signature.missing? resolver).map fun name =>
            ⟨.missingType, .method owner member, some name.text⟩ := by
        unfold hidden?
        dsimp only
        rw [hsignature]
      change _ = relaxed resolver ⟨.floatingPoint, .method owner member, none⟩ ++ []
      unfold relaxed
      rw [if_pos rfl, hhidden]
      cases signature.missing? resolver <;> rfl
    · change Relaxes resolver
        ((Location.method owner member).problems ((signature.missing? resolver).map .missing)) _
      cases signature.missing? resolver <;> rfl

/-- An operation names at most one type, so nothing is hidden. -/
theorem beside_checkOperation {L : Type} (operation : Operation L) :
    Beside (Abreast policy resolver.header?)
      (fun violation violation' => violation' = besidesFloatingPoint violation)
      (policy.checkOperation pool operation) (policy.permissive.checkOperation pool operation) := by
  -- both read the same constant
  have hconstant : ∀ index, Beside (Abreast policy resolver.header?)
      (fun violation violation' => violation' = besidesFloatingPoint violation)
      (policy.checkClassConstant pool index)
      (policy.permissive.checkClassConstant pool index) := by
    intro index
    refine (beside_ofExcept _).bind ?_
    rintro type _ ⟨-, rfl⟩
    exact beside_checkType _
  unfold checkOperation
  split
  · exact beside_pure (policy.permissive_floatingPointViolation _)
  · exact hconstant _
  · exact hconstant _
  · exact beside_pure (policy.permissive_floatingPointViolation _)

theorem beside_validateOperation (lined : Nat × Option UInt16 × Operation Label) :
    Beside (Abreast policy resolver.header?) (Relaxes resolver)
      (policy.validateOperation owner member pool lined)
      (policy.permissive.validateOperation owner member pool lined) := by
  have hlocation : ∀ owner' member',
      Location.instruction owner member lined.1 lined.2.1 ≠ .method owner' member' := nofun
  refine (beside_checkOperation lined.2.2).bind ?_
  rintro violation _ rfl
  exact beside_pure (relaxes_problems hlocation violation)

/-- The problems of a body are those of its operations. -/
theorem beside_validateBody (body : Body) :
    Beside (Abreast policy resolver.header?) (Relaxes resolver)
      (policy.validateBody owner member pool body)
      (policy.permissive.validateBody owner member pool body) := by
  have hvariables := beside_mapM (l := body.localVariables) fun range _ =>
    @beside_validateDeclaration policy resolver pool range.name range.descriptor
      (.localVariable owner member) nofun
  have hoperations := beside_mapM (l := body.linedOperations) fun lined _ =>
    @beside_validateOperation policy resolver owner member pool lined
  exact hvariables.bind fun _ _ hfound => hoperations.bind fun _ _ hfound' =>
    beside_pure ((relaxes_flatten hfound).append (relaxes_flatten hfound'))

/-- What a method declares comes before what its body does, and each part is relaxed. -/
theorem beside_validateMethod (method : Member) :
    Beside (Abreast policy resolver.header?) (Relaxes resolver)
      (policy.validateMethod owner pool method)
      (policy.permissive.validateMethod owner pool method) := by
  refine (beside_ofExcept _).bind ?_
  rintro name _ ⟨-, rfl⟩
  refine (beside_ofExcept _).bind ?_
  rintro descriptor _ ⟨-, rfl⟩
  refine (beside_ofExcept _).bind ?_
  rintro signature _ ⟨hsignature, rfl⟩
  have hbeside := @beside_validateSignature policy resolver owner ⟨name, descriptor⟩ method.access
    signature hsignature
  refine hbeside.bind ?_
  intro problems problems' hdeclaration
  refine (beside_ofExcept _).bind ?_
  rintro found _ ⟨-, rfl⟩
  -- the reports of the signature come in front of those of the body
  cases found with
  | none => exact beside_pure hdeclaration
  | some code =>
    refine (beside_ofExcept _).bind ?_
    rintro body _ ⟨-, rfl⟩
    exact (beside_validateBody body).bind fun _ _ hbody => beside_pure (hdeclaration.append hbody)

end Policy

/-- The problems of a class are those of its fields and methods. -/
theorem ClassFile.beside_validate {policy : Policy} {resolver : Resolver} (classFile : ClassFile) :
    Beside (Validator.Abreast policy resolver.header?) (Problem.Relaxes resolver)
      (classFile.validate policy) (classFile.validate policy.permissive) := by
  refine (beside_ofExcept _).bind ?_
  rintro owner _ ⟨-, rfl⟩
  have hfields := beside_mapM (l := classFile.fields) fun field _ =>
    @Policy.beside_validateDeclaration policy resolver classFile.constants field.name
      field.descriptor (.field owner) nofun
  have hmethods := beside_mapM (l := classFile.methods) fun method _ =>
    @Policy.beside_validateMethod policy resolver owner classFile.constants method
  exact hfields.bind fun _ _ hfound => hmethods.bind fun _ _ hfound' =>
    beside_pure ((Problem.relaxes_flatten hfound).append (Problem.relaxes_flatten hfound'))

/-- **Allowing floating point drops the problems with it, and shows what they hid.** Whatever both
validators found out before, they end with the same error, or each with a list. Where a problem with
floating point stands in the first list, there is none in the second one, or there is the one that a
class is missing for the declaration of a method. So all else is found without floating point too:
native methods, finalizers, and the classes that are missing, but for those at such a declaration.
-/
theorem ClassFile.validate_permissive {policy : Policy} {resolver : Resolver}
    {strict permissive : Validator} (hstrict : strict.Reached policy resolver)
    (hpermissive : permissive.Reached policy.permissive resolver) (classFile : ClassFile) :
    (∃ error after after', classFile.validate policy strict = .error error after ∧
        classFile.validate policy.permissive permissive = .error error after') ∨
      ∃ problems found after after', classFile.validate policy strict = .ok problems after ∧
        classFile.validate policy.permissive permissive = .ok found after' ∧
        found = problems.flatMap (Problem.relaxed resolver) ∧
        ((∀ problem ∈ problems, problem.kind = .floatingPoint → problem.hidden? resolver = none) →
          found = problems.filter (·.kind ≠ .floatingPoint)) ∧
        ∀ problem ∈ found, problem ∈ problems ∨
          problem.kind = .missingType ∧ ∃ owner member, problem.location = .method owner member ∧
            ∃ shown ∈ problems, shown.kind = .floatingPoint ∧
              shown.location = problem.location := by
  have hends := classFile.beside_validate _ _ ⟨hstrict.faithful, hpermissive.faithful⟩
  generalize classFile.validate policy strict = ended at hends ⊢
  generalize classFile.validate policy.permissive permissive = ended' at hends ⊢
  cases hends with
  | error error _ => exact .inl ⟨error, _, _, rfl, rfl⟩
  | ok hrelaxes _ =>
    exact .inr ⟨_, _, _, _, rfl, rfl, hrelaxes, hrelaxes.eq_filter, fun _ => hrelaxes.mem⟩

/-! ### A missing class behind a floating-point value -/

/-- The native method m of `namesMissingClass`. -/
def namesMissingMethod : Member := ⟨⟨0x100⟩, 3, 4, []⟩

/-- The class D with a method whose parameters are a `float` and an object of a class that is
missing. -/
def namesMissingClass : ClassFile where
  version := ⟨0, 49⟩
  constants := .ofConstants [.utf8 "java/lang/Object", .classRef 1, .utf8 "m",
    .utf8 "(FLMissing;)V", .utf8 "D", .classRef 5]
  identity := ⟨⟨0x21⟩, 6, some 2, []⟩
  fields := []
  methods := [namesMissingMethod]
  attributes := []

/-- The name of `namesMissingClass`. -/
def namesMissingName : BinaryName := ⟨"D", by decide⟩

/-- The name of the class that is missing. -/
def missingName : BinaryName := ⟨"Missing", by decide⟩

/-- The declaration of `namesMissingMethod`. -/
def namesMissingLocation : Location := .method namesMissingName ⟨"m", "(FLMissing;)V"⟩

/-- The types of `namesMissingMethod`. -/
def namesMissingTypes : List FieldType := [.base .float, .object missingName]

/-- Whatever the policy is, the method is native, and its types are judged in order. -/
theorem namesMissing_validate {policy : Policy} {resolver : Resolver} {validator : Validator}
    (hnative : policy.allowsNative = false)
    (hfaithful : validator.Faithful policy resolver.header?) :
    ∃ after, namesMissingClass.validate policy validator =
      .ok (⟨.nativeMethod, namesMissingLocation, none⟩ ::
        namesMissingLocation.problems (namesMissingTypes.findSome? (policy.judgeType resolver)))
        after := by
  have hname : namesMissingClass.name = .ok namesMissingName := by decide +kernel
  have hmethodName : namesMissingMethod.nameIn namesMissingClass.constants = .ok "m" := by
    decide +kernel
  have hdescriptor : namesMissingMethod.descriptorIn namesMissingClass.constants =
      .ok "(FLMissing;)V" := by
    decide +kernel
  have hsignature : MethodDescriptor.ofDescriptor "(FLMissing;)V" =
      .ok ⟨namesMissingTypes, none⟩ := by
    decide +kernel
  have hcode : namesMissingMethod.code namesMissingClass.constants = .ok none := by decide +kernel
  have hfinalizer : ("m" == UnqualifiedName.finalize) = false := by decide +kernel
  -- what is found about types does not depend on what was asked before
  obtain ⟨after, -, htypes⟩ := Policy.checkTypes_eq hfaithful namesMissingTypes
  have hdeclaration : policy.validateSignature namesMissingName ⟨"m", "(FLMissing;)V"⟩
      namesMissingMethod.access ⟨namesMissingTypes, none⟩ validator =
        .ok (⟨.nativeMethod, namesMissingLocation, none⟩ :: namesMissingLocation.problems
          (namesMissingTypes.findSome? (policy.judgeType resolver))) after := by
    refine state_bind_ok.2 ⟨_, after, htypes, ?_⟩
    simp only [hnative, hfinalizer]
    simp
    rfl
  have hmethod : policy.validateMethod namesMissingName namesMissingClass.constants
      namesMissingMethod validator =
        .ok (⟨.nativeMethod, namesMissingLocation, none⟩ :: namesMissingLocation.problems
          (namesMissingTypes.findSome? (policy.judgeType resolver))) after := by
    refine state_bind_ok.2 ⟨_, _, ofExcept_ok.2 ⟨hmethodName, rfl⟩, ?_⟩
    refine state_bind_ok.2 ⟨_, _, ofExcept_ok.2 ⟨hdescriptor, rfl⟩, ?_⟩
    refine state_bind_ok.2 ⟨_, _, ofExcept_ok.2 ⟨hsignature, rfl⟩, ?_⟩
    refine state_bind_ok.2 ⟨_, after, hdeclaration, ?_⟩
    exact state_bind_ok.2 ⟨none, after, ofExcept_ok.2 ⟨hcode, rfl⟩, rfl⟩
  refine ⟨after, ?_⟩
  unfold ClassFile.validate
  -- there are no fields, and this is the only method
  refine state_bind_ok.2 ⟨_, _, ofExcept_ok.2 ⟨hname, rfl⟩, ?_⟩
  refine state_bind_ok.2 ⟨[], _, rfl, ?_⟩
  refine state_bind_ok.2 ⟨[_], after, state_bind_ok.2 ⟨_, _, hmethod, rfl⟩, ?_⟩
  rw [List.flatten_nil, List.flatten_singleton, List.nil_append]
  rfl

/-- What the first configuration has against `namesMissingClass`. -/
def namesMissingProblems : List Problem :=
  [⟨.nativeMethod, namesMissingLocation, none⟩, ⟨.floatingPoint, namesMissingLocation, none⟩]

/-- The first configuration stops at the `float`. -/
theorem namesMissing_cldc10 {validator : Validator}
    (hfaithful : validator.Faithful .cldc10 (Resolver.ofClassPath ∅).header?) :
    ∃ after, namesMissingClass.validate .cldc10 validator = .ok namesMissingProblems after := by
  have hfloat : namesMissingTypes.findSome? (Policy.cldc10.judgeType (.ofClassPath ∅)) =
      some .floatingPoint := rfl
  have hrun := namesMissing_validate rfl hfaithful
  rw [hfloat] at hrun
  exact hrun

/-- The first configuration validates the class for the second time, and the second one for the
first time. -/
theorem namesMissing_permissive :
    let strict := resultState (namesMissingClass.validate .cldc10 (.ofResolver (.ofClassPath ∅)))
    (∃ after, namesMissingClass.validate .cldc10 strict = .ok namesMissingProblems after) ∧
      ∃ after, namesMissingClass.validate .cldc11 (.ofResolver (.ofClassPath ∅)) =
        .ok (namesMissingProblems.flatMap (Problem.relaxed (.ofClassPath ∅))) after := by
  intro strict
  have hreached : strict.Reached .cldc10 (.ofClassPath ∅) := .validated .start namesMissingClass
  obtain ⟨after, hrun⟩ := namesMissing_cldc10 hreached.faithful
  refine ⟨⟨after, hrun⟩, ?_⟩
  rcases ClassFile.validate_permissive hreached .start namesMissingClass with
    ⟨error, _, _, hfails, -⟩ | ⟨problems, found, _, after', hlists, hpermissive, rfl, -⟩
  · cases hrun.symm.trans hfails
  · cases hrun.symm.trans hlists
    exact ⟨after', hpermissive⟩

/-- The class is missing, if there is nothing on the class path. -/
theorem missing?_missingName :
    (Resolver.ofClassPath ∅).missing? missingName = some missingName := by
  have hheader : (Resolver.ofClassPath ∅).header? missingName = none := by
    rw [Resolver.header?_of_empty]
    decide +kernel
  exact Resolver.missing?_eq_some (by decide +kernel) (by decide +kernel)
    (.missing List.not_mem_nil hheader)

/-- The second configuration finds something new, and not only less than the first one. -/
theorem namesMissing_finds_more :
    ∃ found after after',
      namesMissingClass.validate .cldc10 (.ofResolver (.ofClassPath ∅)) =
        .ok namesMissingProblems after ∧
      namesMissingClass.validate .cldc11 (.ofResolver (.ofClassPath ∅)) = .ok found after' ∧
      found ≠ namesMissingProblems.filter (·.kind ≠ .floatingPoint) ∧
      ∃ problem ∈ found, problem.kind = .missingType ∧ problem ∉ namesMissingProblems := by
  have hmissing : namesMissingTypes.findSome? (Policy.cldc11.judgeType (.ofClassPath ∅)) =
      some (.missing missingName) := by
    change namesMissingTypes.findSome? (Policy.cldc10.permissive.judgeType _) = _
    rw [Policy.permissive_findSome?]
    simp [namesMissingTypes, missing?_missingName]
  obtain ⟨after, hstrict⟩ := namesMissing_cldc10 (Validator.faithful_ofResolver rfl)
  obtain ⟨after', hpermissive⟩ := @namesMissing_validate .cldc11 (.ofClassPath ∅)
    (.ofResolver (.ofClassPath ∅)) rfl (Validator.faithful_ofResolver rfl)
  rw [hmissing] at hpermissive
  refine ⟨_, after, after', hstrict, hpermissive, by decide +kernel, ?_⟩
  refine ⟨⟨.missingType, namesMissingLocation, some "Missing"⟩, ?_, rfl, by decide +kernel⟩
  decide +kernel

end Preverification

import Preverification.Preverifier
import Preverification.Proofs.ResolverCalls
import Preverification.Proofs.SameAnswers

/-!
# Reports that do not depend on what a resolver keeps

Validation and the passes over the methods of a class ask a resolver, and change nothing else that
the next class sees. So the report on a class is the same from all resolvers that have the same
headers. A class makes its own header known when it is read; if that is the header that its name has
anyway, the headers stay as they are.

* `ClassFile.blind_validate`: validation does not tell validators apart that know nothing wrong.
* `ClassPass.blind_members`: nor do the passes over the methods of a class.
* `Policy.uniform_preverify`: so the report on a class depends on headers alone.
-/

namespace Preverification

open Resolver

/-! ### Validation -/

namespace Policy

/-- How a class is judged depends on headers alone. -/
theorem judgeClass_eq {headers : Headers} (policy : Policy) (name : BinaryName)
    {first second : Resolver} (h : ShareHeaders headers first second) :
    (policy.judgeClass name first).1 = (policy.judgeClass name second).1 ∧
      ShareHeaders headers (policy.judgeClass name first).2 (policy.judgeClass name second).2 := by
  unfold judgeClass
  split
  · exact ⟨rfl, h⟩
  · split
    · exact ⟨rfl, h⟩
    · have hends := blind_ancestorChain name first second h
      generalize ancestorChain name first = ended at hends
      generalize ancestorChain name second = ended' at hends
      cases hends with
      | ok chain h' => exact ⟨rfl, h'⟩
      | error error h' => exact ⟨rfl, h'⟩

end Policy

namespace Validator

/-- A validator knows about classes only how a policy judges them by the headers that its resolver
has. -/
structure Faithful (policy : Policy) (headers : Headers) (validator : Validator) : Prop where
  header?_eq : validator.resolver.header? = headers
  checked : ∀ name violation, validator.checked[name]? = some violation →
    (policy.judgeClass name validator.resolver).1 = violation

/-- Two validators have resolvers with the same headers. They may have found out different things,
but nothing that is wrong. -/
structure Alike (policy : Policy) (headers : Headers) (first second : Validator) : Prop where
  first : first.Faithful policy headers
  second : second.Faithful policy headers

variable {policy : Policy} {headers : Headers}

/-- A validator that has found out nothing yet knows nothing wrong. -/
theorem faithful_ofResolver {resolver : Resolver} (h : resolver.header? = headers) :
    (ofResolver resolver).Faithful policy headers where
  header?_eq := h
  checked := by
    intro name violation hknown
    simp [ofResolver] at hknown

/-- How classes are judged may be noted. -/
theorem Faithful.insert {validator : Validator} (h : validator.Faithful policy headers)
    (name : BinaryName) :
    (Validator.mk (policy.judgeClass name validator.resolver).2
      (validator.checked.insert name (policy.judgeClass name validator.resolver).1)).Faithful policy
        headers := by
  obtain ⟨-, hkeeps⟩ := policy.judgeClass_eq name ⟨h.header?_eq, h.header?_eq⟩
  have hsame := fun other => (policy.judgeClass_eq other ⟨hkeeps.first_eq, h.header?_eq⟩).1
  refine ⟨hkeeps.first_eq, fun other violation hknown => ?_⟩
  dsimp only at hknown ⊢
  rw [hsame]
  rw [Std.HashMap.getElem?_insert] at hknown
  split at hknown
  · rename_i heq
    cases eq_of_beq heq
    exact Option.some.inj hknown
  · exact h.checked other violation hknown

end Validator

namespace Policy

open Validator

variable {headers : Headers}

/-- A class is judged as its headers ask for, whether that was noted before or not. -/
theorem checkClass_eq {policy : Policy} {validator : Validator}
    (h : validator.Faithful policy headers) (name : BinaryName) :
    ∃ validator', validator'.Faithful policy headers ∧ policy.checkClass name validator =
      .ok (policy.judgeClass name validator.resolver).1 validator' := by
  rcases policy.checkClass_cases name validator with ⟨known, hknown, hanswer⟩ | hanswer
  · rw [h.checked name known hknown]
    exact ⟨validator, h, hanswer⟩
  · exact ⟨_, h.insert name, hanswer⟩

/-- What was noted does not show in the answer about a class. -/
theorem blind_checkClass (policy : Policy) (name : BinaryName) :
    Blind (Alike policy headers) (policy.checkClass name) := by
  rintro first second ⟨hfirst, hsecond⟩
  obtain ⟨first', hfirst', hrun⟩ := checkClass_eq hfirst name
  obtain ⟨second', hsecond', hrun'⟩ := checkClass_eq hsecond name
  rw [hrun, hrun', (policy.judgeClass_eq name ⟨hfirst.header?_eq, hsecond.header?_eq⟩).1]
  exact .ok _ ⟨hfirst', hsecond'⟩

/-- A type is asked about by the class in it, if there is one. -/
theorem blind_checkType (policy : Policy) (type : FieldType) :
    Blind (Alike policy headers) (policy.checkType type) := by
  unfold checkType
  split
  · exact policy.blind_checkClass _
  · exact policy.blind_checkClass _
  · exact policy.blind_checkClass _
  · exact blind_pure none

theorem blind_checkClassConstant (policy : Policy) (pool : Pool) (index : PoolIndex) :
    Blind (Alike policy headers) (policy.checkClassConstant pool index) :=
  (blind_ofExcept _).bind fun _ => policy.blind_checkType _

theorem blind_validateField (policy : Policy) (owner : BinaryName) (pool : Pool) (field : Member) :
    Blind (Alike policy headers) (policy.validateField owner pool field) :=
  (blind_ofExcept _).bind fun _ => (blind_ofExcept _).bind fun _ => (blind_ofExcept _).bind fun _ =>
    (policy.blind_checkType _).bind fun _ => blind_pure _

/-- The first type of a signature that is found wrong is the same one. -/
theorem blind_validateSignature (policy : Policy) (owner : BinaryName) (member : MemberName)
    (access : AccessFlags) (signature : MethodDescriptor) :
    Blind (Alike policy headers) (policy.validateSignature owner member access signature) :=
  (blind_findSomeM? policy.blind_checkType _).bind fun _ => blind_pure _

theorem blind_validateVariable (policy : Policy) (owner : BinaryName) (member : MemberName)
    (pool : Pool) (range : VariableRange) :
    Blind (Alike policy headers) (policy.validateVariable owner member pool range) :=
  (blind_ofExcept _).bind fun _ => (blind_ofExcept _).bind fun _ => (blind_ofExcept _).bind fun _ =>
    (policy.blind_checkType _).bind fun _ => blind_pure _

/-- An operation is asked about by the class or the type that it names. -/
theorem blind_checkOperation {L : Type} (policy : Policy) (pool : Pool) (operation : Operation L) :
    Blind (Alike policy headers) (policy.checkOperation pool operation) := by
  unfold checkOperation
  split
  · exact blind_pure _
  · exact policy.blind_checkClassConstant pool _
  · exact policy.blind_checkClassConstant pool _
  · exact blind_pure _

theorem blind_validateOperation (policy : Policy) (owner : BinaryName) (member : MemberName)
    (pool : Pool) (operation : Nat × Option UInt16 × Operation Label) :
    Blind (Alike policy headers) (policy.validateOperation owner member pool operation) :=
  (policy.blind_checkOperation pool _).bind fun _ => blind_pure _

/-- The problems of a body are those of its variables and of its operations. -/
theorem blind_validateBody (policy : Policy) (owner : BinaryName) (member : MemberName)
    (pool : Pool) (body : Body) :
    Blind (Alike policy headers) (policy.validateBody owner member pool body) :=
  (blind_mapM (policy.blind_validateVariable owner member pool) _).bind fun _ =>
    (blind_mapM (policy.blind_validateOperation owner member pool) _).bind fun _ => blind_pure _

/-- A method is looked up, its signature is checked, and then its body if there is one. -/
theorem blind_validateMethod (policy : Policy) (owner : BinaryName) (pool : Pool)
    (method : Member) : Blind (Alike policy headers) (policy.validateMethod owner pool method) := by
  refine (blind_ofExcept _).bind fun name => (blind_ofExcept _).bind fun descriptor => ?_
  refine (blind_ofExcept _).bind fun signature => ?_
  refine (policy.blind_validateSignature owner _ _ signature).bind fun problems => ?_
  refine (blind_ofExcept _).bind fun found => ?_
  cases found with
  | none => exact blind_pure _
  | some code =>
    exact (blind_ofExcept _).bind fun body =>
      (policy.blind_validateBody owner _ pool body).bind fun _ => blind_pure _

end Policy

/-- Validation does not tell validators apart that know nothing wrong. -/
theorem ClassFile.blind_validate {headers : Headers} (policy : Policy) (classFile : ClassFile) :
    Blind (Validator.Alike policy headers) (classFile.validate policy) :=
  (blind_ofExcept _).bind fun owner =>
    (blind_mapM (policy.blind_validateField owner _) _).bind fun _ =>
      (blind_mapM (policy.blind_validateMethod owner _) _).bind fun _ => blind_pure _

/-! ### Passes -/

namespace Workspace

/-- Two workspaces differ in nothing but what their resolvers keep. -/
inductive Alike (headers : Headers) : Workspace → Workspace → Prop where
  | mk (constants : Pool) {resolver resolver' : Resolver}
    (h : ShareHeaders headers resolver resolver') :
    Alike headers ⟨constants, resolver⟩ ⟨constants, resolver'⟩

end Workspace

namespace MethodPass

open Workspace

variable {headers : Headers} {ε α : Type}

/-- Types are inferred with the same result from resolvers that have the same headers. -/
theorem blind_analyze (hroot : (headers .object).bind (·.superclass) = none) (body : Body)
    (entry : TypeState) (context : MethodContext) :
    Blind (Alike headers) (analyze body entry context) := by
  -- workspaces that are alike have the same pool
  rintro _ _ ⟨constants, hshare⟩
  have hends := Body.blind_analyze hroot body entry context _ _ hshare
  unfold analyze
  dsimp only
  generalize body.analyze entry context _ = ended at hends
  generalize body.analyze entry context _ = ended' at hends
  cases hends with
  | ok analysis hshare' => exact .ok analysis (.mk constants hshare')
  | error error hshare' => exact .error (MethodError.analysis error) (.mk constants hshare')

/-- Emission asks nothing. -/
theorem blind_emit (body : Body) (analysis : Analysis) (entry : TypeState) (format : FrameFormat) :
    Blind (Alike headers) (emit body analysis entry format) := by
  rintro _ _ ⟨constants, hshare⟩
  unfold emit
  dsimp only
  cases Emission.emit analysis entry format ⟨body, constants⟩ with
  | ok code draft => exact .ok code (.mk draft.constants hshare)
  | error error draft => exact .error _ (.mk draft.constants hshare)

theorem blind_edit (change : Pool.Edit α) : Blind (Alike headers) (edit change) := by
  rintro _ _ ⟨constants, hshare⟩
  unfold edit
  dsimp only
  cases change constants with
  | ok value constants' => exact .ok value (.mk constants' hshare)
  | error error constants' => exact .error _ (.mk constants' hshare)

/-- The pool is the same in workspaces that are alike. -/
theorem blind_constants {ε : Type} {next : Workspace → EStateM ε Workspace α}
    (hsame : ∀ constants resolver resolver',
      next ⟨constants, resolver⟩ = next ⟨constants, resolver'⟩)
    (h : ∀ workspace, Blind (Alike headers) (next workspace)) :
    Blind (Alike headers) (get >>= next) := by
  refine blind_get_bind ?_ h
  rintro _ _ ⟨constants, hshare⟩
  exact hsame constants _ _

end MethodPass

namespace Policy

open MethodPass Workspace

variable {headers : Headers}

/-- The stages of a method are blind one by one. -/
theorem blind_preverifyCode (hroot : (headers .object).bind (·.superclass) = none)
    (policy : Policy) (owner : BinaryName) (method : Member) (code : Code) :
    Blind (Alike headers) (policy.preverifyCode owner method code) := by
  refine blind_constants (fun _ _ _ => rfl) fun workspace => ?_
  refine (blind_ofExcept _).bind fun decoded => (blind_ofExcept _).bind fun inlined => ?_
  refine (blind_ofExcept _).bind fun descriptor => ?_
  refine (blind_ofExcept _).bind fun signature => (blind_ofExcept _).bind fun name => ?_
  exact (blind_analyze hroot _ _ _).bind fun analysis => blind_emit _ _ _ _

/-- A method without code asks nothing. -/
theorem blind_preverifyMethod (hroot : (headers .object).bind (·.superclass) = none)
    (policy : Policy) (owner : BinaryName) (method : Member) :
    Blind (Alike headers) (policy.preverifyMethod owner method) := by
  refine blind_constants (fun _ _ _ => rfl) fun workspace => ?_
  refine (blind_ofExcept _).bind fun found => ?_
  cases found with
  | none => exact blind_pure method
  | some position =>
    dsimp only
    cases method.attributes[position]? with
    | none => exact blind_pure method
    | some attr =>
      exact (blind_ofExcept _).bind fun code =>
        (policy.blind_preverifyCode hroot owner method code).bind fun _ =>
          (blind_edit _).bind fun _ => blind_pure _

end Policy

namespace ClassPass

open MethodPass Workspace

variable {headers : Headers} {α : Type}

/-- A method fails with the same problem, which names its member. -/
theorem blind_method (hroot : (headers .object).bind (·.superclass) = none) (policy : Policy)
    (owner : BinaryName) (member : Member) :
    Blind (Alike headers) (method policy owner member) := by
  refine blind_constants (fun _ _ _ => rfl) fun workspace => ?_
  refine (blind_ofExcept _).bind fun name => (blind_ofExcept _).bind fun descriptor => ?_
  intro first second halike
  have hends := policy.blind_preverifyMethod hroot owner member first second halike
  dsimp only
  -- both runs end in the same way, so that the match on one is the match on the other
  generalize policy.preverifyMethod owner member first = ended at hends
  generalize policy.preverifyMethod owner member second = ended' at hends
  cases hends with
  | ok preverified halike' => exact .ok preverified halike'
  | error error halike' => exact .error _ halike'

/-- The methods of a class are preverified one behind the other. -/
theorem blind_members (hroot : (headers .object).bind (·.superclass) = none) (policy : Policy)
    (owner : BinaryName) (classFile : ClassFile) :
    Blind (Alike headers) (members policy owner classFile) := by
  have hmethods : ∀ fields, Blind (Alike headers) (do
      let methods ← classFile.methods.mapM (method policy owner)
      return { classFile with constants := (← get).constants, fields, methods }) := fun fields =>
    (blind_mapM (blind_method hroot policy owner) _).bind fun _ =>
      blind_constants (fun _ _ _ => rfl) fun _ => blind_pure _
  unfold members
  split
  · exact (blind_ofExcept _).bind hmethods
  · exact hmethods classFile.fields

end ClassPass

/-! ### Classes -/

/-- A run reports the same from all resolvers with the same headers, which they keep. -/
def Resolver.Uniform {α : Type} (headers : Headers) (run : StateM Resolver α) : Prop :=
  ∀ first second, ShareHeaders headers first second →
    (run first).1 = (run second).1 ∧ ShareHeaders headers (run first).2 (run second).2

namespace Policy

open Validator

variable {headers : Headers}

/-- What is reported on a class is its bytes or its first problem, and both are the same. -/
theorem uniform_preverifyClass (hroot : (headers .object).bind (·.superclass) = none)
    (policy : Policy) (owner : BinaryName) (classFile : ClassFile) :
    Uniform headers (policy.preverifyClass owner classFile) := by
  intro first second hshare
  have hends := ClassPass.blind_members hroot policy owner classFile _ _
    (.mk classFile.constants hshare)
  unfold preverifyClass
  generalize ClassPass.members policy owner classFile ⟨classFile.constants, first⟩ = ended at hends
  generalize ClassPass.members policy owner classFile ⟨classFile.constants, second⟩ = ended'
    at hends
  cases hends with
  | ok preverified halike =>
    cases halike with
    | mk constants hshare' => exact ⟨rfl, hshare'⟩
  | error problem halike =>
    cases halike with
    | mk constants hshare' => exact ⟨rfl, hshare'⟩

/-- A class with problems is not preverified. -/
theorem uniform_processClass (hroot : (headers .object).bind (·.superclass) = none)
    (policy : Policy) (owner : BinaryName) (classFile : ClassFile) :
    Uniform headers (policy.processClass owner classFile) := by
  intro first second hshare
  have hends := classFile.blind_validate policy _ _
    ⟨faithful_ofResolver hshare.first_eq, faithful_ofResolver hshare.second_eq⟩
  unfold processClass
  change EndAlike _ (classFile.validate policy (.ofResolver first))
    (classFile.validate policy (.ofResolver second)) at hends
  generalize classFile.validate policy (.ofResolver first) = ended at hends
  generalize classFile.validate policy (.ofResolver second) = ended' at hends
  cases hends with
  | ok problems halike =>
    have hshare' : ShareHeaders headers _ _ := ⟨halike.first.header?_eq, halike.second.header?_eq⟩
    -- only a class without problems goes on to the passes
    cases problems with
    | nil => exact policy.uniform_preverifyClass hroot owner classFile _ _ hshare'
    | cons problem problems => exact ⟨rfl, hshare'⟩
  | error error halike => exact ⟨rfl, halike.first.header?_eq, halike.second.header?_eq⟩

end Policy

/-- A header that is told changes nothing if its class has it. -/
theorem Resolver.header?_register {resolver : Resolver} {header : ClassHeader}
    (h : resolver.header? header.name = some header) :
    (resolver.register header).header? = resolver.header? := by
  by_cases hfound : ∃ found, resolver.headers[header.name]? = some (some found)
  · obtain ⟨found, hfound⟩ := hfound
    rw [register_of_found hfound]
  · rw [register_of_not_found (not_exists.1 hfound), header?_insert, ← h, Function.update_eq_self]

/-- The report on a class does not depend on what a resolver keeps, if the class has the header that
it makes known. -/
theorem Policy.uniform_preverify {headers : Headers}
    (hroot : (headers .object).bind (·.superclass) = none) (policy : Policy) {bytes : Bytes}
    (hknown : ∀ classFile header, ClassFile.parse bytes = .ok classFile →
      classFile.header = .ok header → headers header.name = some header) :
    Uniform headers (policy.preverify bytes) := by
  intro first second hshare
  unfold preverify
  cases hparse : ClassFile.parse bytes with
  | error error => exact ⟨rfl, hshare⟩
  | ok classFile =>
    dsimp only
    cases classFile.name with
    | error error => exact ⟨rfl, hshare⟩
    | ok owner =>
      dsimp only
      cases hheader : classFile.header with
      | error error => exact ⟨rfl, hshare⟩
      | ok header =>
        have hname := hknown classFile header hparse hheader
        have hregistered :
            ShareHeaders headers (first.register header) (second.register header) := by
          constructor
          · rw [header?_register (by rw [hshare.first_eq, hname]), hshare.first_eq]
          · rw [header?_register (by rw [hshare.second_eq, hname]), hshare.second_eq]
        exact policy.uniform_processClass hroot owner classFile _ _ hregistered

end Preverification

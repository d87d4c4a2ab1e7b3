import Preverification.Proofs.Hierarchy
import Preverification.Typing.Merge
import Preverification.Validation

/-!
# What a resolver goes on to answer

A resolver that was asked something has the headers that it had, and it keeps more of them. So a
class that was found to be in order once is found to be in order ever after, whatever was asked in
between, and whether the questions had answers or not.

* `Resolver.advances_ancestorChain`, `Resolver.advances_commonRefTypeUnder` and
  `Merge.advances_states`: questions and merges leave later resolvers.
* `Resolver.Later.ancestorChain_ok`: a chain that was found is found by every later resolver.
* `Policy.admits_of_judgeClass`: what a policy admits once it admits from then on.
-/

namespace Preverification

/-- The state that a run leaves behind. -/
def resultState {ε σ α : Type} : EStateM.Result ε σ α → σ
  | .ok _ state | .error _ state => state

namespace Resolver

/-- A resolver comes after another one: it has the same headers, and it keeps no fewer of them. -/
structure Later (old new : Resolver) : Prop where
  header?_eq : new.header? = old.header?
  bound_le : old.classBound ≤ new.classBound

theorem Later.refl (resolver : Resolver) : Later resolver resolver := ⟨rfl, Nat.le_refl _⟩

/-- What comes after a later resolver comes after the first one. -/
theorem Later.trans {first second third : Resolver} (h : Later first second)
    (h' : Later second third) : Later first third :=
  ⟨h'.header?_eq.trans h.header?_eq, Nat.le_trans h.bound_le h'.bound_le⟩

/-! ### Questions -/

/-- Whatever comes of a question, the resolver that is left comes after the one that was asked. -/
def Advances {ε α : Type} (question : EStateM ε Resolver α) : Prop :=
  ∀ resolver, Later resolver (resultState (question resolver))

section Advances

variable {ε α β : Type} {question : EStateM ε Resolver α} {resolver resolver' : Resolver}

/-- In particular that holds of a question with an answer. -/
theorem Advances.ok (h : Advances question) {answer : α}
    (hrun : question resolver = .ok answer resolver') : Later resolver resolver' := by
  have hlater := h resolver
  rw [hrun] at hlater
  exact hlater

theorem advances_pure (answer : α) : Advances (pure answer : EStateM ε Resolver α) := Later.refl

theorem advances_throw (error : ε) : Advances (throw error : EStateM ε Resolver α) := Later.refl

/-- A second question is asked of the resolver that the first one left. -/
theorem Advances.bind (h : Advances question) {next : α → EStateM ε Resolver β}
    (hnext : ∀ answer, Advances (next answer)) : Advances (question >>= next) := by
  intro resolver
  have hlater := h resolver
  change Later resolver (resultState (EStateM.bind question next resolver))
  unfold EStateM.bind
  cases hrun : question resolver with
  | ok answer middle =>
    rw [hrun] at hlater
    exact hlater.trans (hnext answer middle)
  | error error middle =>
    rw [hrun] at hlater
    exact hlater

/-- A question behind a check. -/
theorem Advances.checked (h : Advances question) (fails : Prop) [Decidable fails] (error : ε) :
    Advances (if fails then (do let _ ← (throw error : EStateM ε Resolver β); question)
      else question) := by
  split
  · exact (advances_throw error).bind fun _ => h
  · exact h

/-- Questions about the elements of a list are asked one behind the other. -/
theorem advances_mapM {f : α → EStateM ε Resolver β} (h : ∀ a, Advances (f a)) (l : List α) :
    Advances (l.mapM f) := by
  induction l with
  | nil => exact advances_pure []
  | cons a l ih =>
    rw [List.mapM_cons]
    exact (h a).bind fun _ => ih.bind fun _ => advances_pure _

end Advances

/-- A header that is looked up was told by the class path before, and is kept now. -/
theorem load_later (name : BinaryName) {resolver : Resolver}
    (h : resolver.headers[name]? = none) : Later resolver (load name resolver).2 := by
  refine ⟨header?_load name h, ?_⟩
  have hbound : ∀ header, (resolver.headers.insert name header).size = resolver.headers.size + 1 := by
    intro header
    rw [Std.HashMap.size_insert, if_neg]
    rw [← Std.HashMap.isSome_getElem?_iff_mem, h]
    nofun
  unfold load classBound
  split <;> dsimp only <;> rw [hbound] <;> omega

/-- A header is kept already, or looked up. -/
theorem advances_header (name : BinaryName) : Advances (header name) := by
  intro resolver
  unfold header
  cases hknown : resolver.headers[name]? with
  | some known => cases known <;> exact .refl resolver
  | none =>
    have hlater := load_later name hknown
    dsimp only
    generalize load name resolver = loaded at hlater
    rcases loaded with ⟨_ | found, resolver'⟩ <;> exact hlater

/-- Each round of a chain asks for one header. -/
theorem advances_chainFrom (seen : Std.HashSet BinaryName) (chain : List BinaryName)
    (name : BinaryName) (rounds : Nat) : Advances (chainFrom seen chain name rounds) := by
  induction rounds generalizing seen chain name with
  | zero => exact advances_throw _
  | succ rounds ih =>
    unfold chainFrom
    apply Advances.checked
    apply (advances_header name).bind
    intro found
    cases found.superclass with
    | none => exact advances_pure _
    | some superclass => exact ih _ _ _

theorem advances_ancestorChain (name : BinaryName) : Advances (ancestorChain name) :=
  fun resolver => advances_chainFrom ∅ [] name (resolver.classBound + 1) resolver

/-- Two chains are asked for. -/
theorem advances_commonSuperclass (first second : BinaryName) :
    Advances (commonSuperclass first second) := by
  unfold commonSuperclass
  split
  · exact advances_pure _
  · exact (advances_ancestorChain second).bind fun _ =>
      (advances_ancestorChain first).bind fun _ => advances_pure _

/-- The closest type of two types is that of their elements, of their classes, or needs no question.
-/
theorem advances_commonRefTypeUnder (layers : Nat) (first second : RefType) :
    Advances (commonRefTypeUnder layers first second) := by
  induction layers, first, second using commonRefTypeUnder.induct with
  | case1 layers type =>
    rw [commonRefTypeUnder.eq_def, if_pos rfl]
    exact advances_pure _
  | case2 layers name other hne =>
    rw [commonRefTypeUnder.eq_def, if_neg hne]
    exact (advances_commonSuperclass name other).bind fun _ => advances_pure _
  | case3 layers second name hnot hne =>
    rw [commonRefTypeUnder.eq_def, if_neg hne]
    cases second with
    | object other => exact absurd rfl (hnot other)
    | objectArray | primitiveArray => exact advances_pure _
  | case4 layers first name hnot hne =>
    rw [commonRefTypeUnder.eq_def, if_neg hne]
    cases first with
    | object other => exact absurd rfl (hnot other)
    | objectArray | primitiveArray => exact advances_pure _
  -- arrays of references ask about what is in them
  | case5 layers first second hne element other hfirst hsecond _ hnot hnot' _ ih =>
    rw [commonRefTypeUnder_of_elements layers hne hnot hnot' hfirst hsecond]
    exact ih
  | case6 layers first second hne hnot hnot' _ helements =>
    rw [commonRefTypeUnder_of_no_elements layers hne hnot hnot' helements]
    exact advances_pure _

end Resolver

/-! ### Merging types -/

namespace Merge

open Resolver

/-- A merge asks a question, and only changes its error. -/
theorem advances_query {α : Type} {question : Query α} (h : Advances question) :
    Advances (query question) := by
  intro resolver
  have hlater := h resolver
  unfold query
  cases hrun : question resolver <;> rw [hrun] at hlater <;> exact hlater

/-- Only objects of two classes need a question. -/
theorem advances_types (first second : InferredType) : Advances (types first second) := by
  unfold types
  split
  · exact advances_pure _
  · split
    case h_3 =>
      exact (advances_query (advances_commonRefTypeUnder 0 _ _)).bind fun _ => advances_pure _
    all_goals exact advances_pure _

theorem advances_stackTypes (first second : InferredType) : Advances (stackTypes first second) := by
  unfold stackTypes
  refine (advances_types first second).bind fun found => ?_
  cases found with
  | some type => exact advances_pure _
  | none => exact advances_throw _

/-- Stacks of different heights need none. -/
theorem advances_operandStacks (first second : OperandStack) :
    Advances (operandStacks first second) := by
  unfold operandStacks
  apply Advances.checked
  apply (advances_mapM (fun pair : InferredType × InferredType => advances_stackTypes pair.1 pair.2)
    _).bind
  exact fun _ => advances_pure _

theorem advances_locals (first second : List InferredType) : Advances (locals first second) := by
  unfold locals
  exact (advances_mapM (fun pair : InferredType × InferredType =>
    (advances_types pair.1 pair.2).bind fun _ => advances_pure _) _).bind fun _ => advances_pure _

/-- A merge of type states leaves a later resolver. -/
theorem advances_states (first second : TypeState) : Advances (states first second) := by
  unfold states
  exact (advances_operandStacks first.stack second.stack).bind fun _ =>
    (advances_locals first.locals second.locals).bind fun _ => advances_pure _

end Merge

/-! ### Judging classes -/

namespace Resolver

variable {resolver resolver' later : Resolver} {name : BinaryName}

/-- A class has a header for every resolver that has the same headers. -/
theorem header_ok_of_eq (h : later.header? = resolver.header?) {found : ClassHeader}
    (hrun : header name resolver = .ok found resolver') :
    ∃ later', header name later = .ok found later' ∧ later'.header? = resolver'.header? := by
  obtain ⟨hsame, hname⟩ := header_answers name resolver found resolver' hrun
  rw [← h] at hname
  -- what is kept and what is looked up are both told by `header?`
  have hexists : ∃ later', header name later = .ok found later' := by
    unfold header
    unfold header? at hname
    cases hknown : later.headers[name]? with
    | some known =>
      rw [hknown] at hname
      cases known with
      | none => cases hname
      | some known =>
        obtain rfl := Option.some.inj hname
        exact ⟨later, rfl⟩
    | none =>
      rw [hknown] at hname
      dsimp only at hname ⊢
      rw [hname]
      exact ⟨_, rfl⟩
  obtain ⟨later', hlater⟩ := hexists
  obtain ⟨hsame', -⟩ := header_answers name later found later' hlater
  exact ⟨later', hlater, by rw [hsame', hsame, h]⟩

/-- A chain of superclasses is found again, in as many rounds or more. -/
theorem chainFrom_ok_of_eq {seen : Std.HashSet BinaryName} {chain found : List BinaryName}
    {rounds rounds' : Nat} (hle : rounds ≤ rounds') (h : later.header? = resolver.header?)
    (hrun : chainFrom seen chain name rounds resolver = .ok found resolver') :
    ∃ later', chainFrom seen chain name rounds' later = .ok found later' := by
  -- on the rounds of the chain that is known; a later resolver has the same headers at each step
  induction rounds generalizing seen chain name resolver later rounds' with
  | zero => exact absurd hrun state_throw_ok
  | succ rounds ih =>
    obtain ⟨more, rfl⟩ : ∃ more, rounds' = more + 1 := ⟨rounds' - 1, by omega⟩
    unfold chainFrom at hrun ⊢
    split at hrun
    · obtain ⟨_, _, hthrow, -⟩ := state_bind_ok.1 hrun
      exact absurd hthrow state_throw_ok
    · obtain ⟨header, middle, hheader, hrest⟩ := state_bind_ok.1 hrun
      obtain ⟨middle', hheader', hsame⟩ := header_ok_of_eq h hheader
      rename_i hnew
      rw [if_neg hnew]
      cases hparent : header.superclass with
      | none =>
        rw [hparent] at hrest
        obtain ⟨rfl, -⟩ := state_pure_ok.1 hrest
        refine ⟨middle', state_bind_ok.2 ⟨header, middle', hheader', ?_⟩⟩
        rw [hparent]
        rfl
      -- the same header leads on to the same superclass
      | some parent =>
        rw [hparent] at hrest
        obtain ⟨later', hlater⟩ := ih (Nat.le_of_succ_le_succ hle) hsame hrest
        refine ⟨later', state_bind_ok.2 ⟨header, middle', hheader', ?_⟩⟩
        rw [hparent]
        exact hlater

/-- A chain of superclasses that was found is found by every later resolver. -/
theorem Later.ancestorChain_ok (h : Later resolver later) {chain : List BinaryName}
    (hrun : ancestorChain name resolver = .ok chain resolver') :
    ∃ later', ancestorChain name later = .ok chain later' := by
  obtain ⟨got, _, hget, hrun⟩ := state_bind_ok.1 hrun
  cases hget
  obtain ⟨later', hlater⟩ :=
    chainFrom_ok_of_eq (Nat.succ_le_succ h.bound_le) h.header?_eq hrun
  exact ⟨later', state_bind_ok.2 ⟨later, later, rfl, hlater⟩⟩

end Resolver

namespace Policy

variable {policy : Policy} {resolver : Resolver} {name : BinaryName}

/-- A policy has nothing against a class, whatever else is asked. -/
def Admits (policy : Policy) (resolver : Resolver) (name : BinaryName) : Prop :=
  ∀ later, resolver.Later later → (policy.judgeClass name later).1 = none

/-- What a policy admits it goes on to admit. -/
theorem Admits.mono (h : policy.Admits resolver name) {later : Resolver}
    (hlater : resolver.Later later) : policy.Admits later name :=
  fun _ hlater' => h _ (hlater.trans hlater')

/-- What is known about a class is told again, and everything else is found out and noted. -/
theorem checkClass_cases (policy : Policy) (name : BinaryName) (validator : Validator) :
    (∃ known, validator.checked[name]? = some known ∧
      policy.checkClass name validator = .ok known validator) ∨
    policy.checkClass name validator = .ok (policy.judgeClass name validator.resolver).1
      ⟨(policy.judgeClass name validator.resolver).2,
        validator.checked.insert name (policy.judgeClass name validator.resolver).1⟩ := by
  unfold checkClass
  cases hknown : validator.checked[name]? with
  | some known =>
    refine .inl ⟨known, rfl, state_bind_ok.2 ⟨validator, validator, rfl, ?_⟩⟩
    simp only [hknown]
    rfl
  | none =>
    refine .inr (state_bind_ok.2 ⟨validator, validator, rfl, ?_⟩)
    simp only [hknown]
    rfl

/-- Judging a class asks for its chain, and leaves a later resolver. -/
theorem judgeClass_later (policy : Policy) (name : BinaryName) (resolver : Resolver) :
    resolver.Later (policy.judgeClass name resolver).2 := by
  unfold judgeClass
  split
  · exact .refl resolver
  · split
    · exact .refl resolver
    · have hlater := Resolver.advances_ancestorChain name resolver
      cases hrun : Resolver.ancestorChain name resolver <;> rw [hrun] at hlater <;> exact hlater

/-- A class that a policy has nothing against is admitted from then on. -/
theorem admits_of_judgeClass (h : (policy.judgeClass name resolver).1 = none) :
    policy.Admits resolver name := by
  intro later hlater
  unfold judgeClass at h ⊢
  split at h
  · rename_i hwrapper
    rw [if_pos hwrapper]
    exact h
  · rename_i hwrapper
    rw [if_neg hwrapper]
    split at h
    · rename_i hroot
      rw [if_pos hroot]
    · rename_i hroot
      rw [if_neg hroot]
      cases hrun : Resolver.ancestorChain name resolver with
      -- a class whose chain breaks off is not admitted
      | error error resolver' =>
        rw [hrun] at h
        cases h
      | ok chain resolver' =>
        rw [hrun] at h
        obtain ⟨later', hchain⟩ := hlater.ancestorChain_ok hrun
        rw [hchain]
        exact h

end Policy

end Preverification

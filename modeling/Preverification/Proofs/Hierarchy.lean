import Preverification.Proofs.Effects
import Preverification.Proofs.TypeOrder

/-!
# Answers about classes

What a resolver keeps does not change what it answers: the headers of a resolver are a function of
names that stays the same through all questions. The closest type that two types have in common is
above both of them, in the order that these headers give.

* `Resolver.header?_load`: keeping what was found for a class does not change any header.
* `Resolver.Answers`: what is said of an answer, whatever the resolver keeps.
* `Resolver.commonRefTypeUnder_answers`: the closest type is above both types.
-/

namespace Preverification

namespace Resolver

/-- The header that is known for a class, or would be found. -/
def header? (resolver : Resolver) (name : BinaryName) : Option ClassHeader :=
  match resolver.headers[name]? with
  | some known => known
  | none => (load name resolver).1

/-- The superclass of a class, if it has one. -/
def superclass? (resolver : Resolver) : Superclasses :=
  fun name => (resolver.header? name).bind (·.superclass)

/-- The superclasses are told by the headers. -/
theorem superclass?_congr {resolver resolver' : Resolver}
    (h : resolver'.header? = resolver.header?) : resolver'.superclass? = resolver.superclass? := by
  funext name
  simp only [superclass?, h]

/-- What is found for a class depends on the class path alone. -/
theorem load_fst {resolver resolver' : Resolver} (h : resolver'.classPath = resolver.classPath)
    (name : BinaryName) : (load name resolver').1 = (load name resolver).1 := by
  unfold load
  split
  · rfl
  · simp only [h]

theorem load_classPath (name : BinaryName) (resolver : Resolver) :
    (load name resolver).2.classPath = resolver.classPath := by
  unfold load
  split <;> rfl

/-- Keeping what was found for a class does not change any header. -/
theorem header?_load (name : BinaryName) {resolver : Resolver}
    (h : resolver.headers[name]? = none) : (load name resolver).2.header? = resolver.header? := by
  have hheaders : (load name resolver).2.headers =
      resolver.headers.insert name (load name resolver).1 := by
    unfold load
    split <;> rfl
  funext other
  -- only the class that was asked for is kept anew
  unfold header?
  rw [hheaders, Std.HashMap.getElem?_insert]
  by_cases hn : name = other
  · subst hn
    simp [h]
  · simp only [beq_iff_eq, hn, if_false]
    cases resolver.headers[other]? with
    | some known => rfl
    | none => exact load_fst (load_classPath name resolver) other

/-- The answer to a question is right if no header has changed and the answer has a property. -/
def Answers {ε α : Type} (question : EStateM ε Resolver α) (resolver : Resolver)
    (P : α → Prop) : Prop :=
  ∀ answer resolver', question resolver = .ok answer resolver' →
    resolver'.header? = resolver.header? ∧ P answer

section Answers

variable {ε α β : Type} {resolver : Resolver}

theorem Answers.pure {P : α → Prop} {a : α} (h : P a) :
    Answers (pure a : EStateM ε Resolver α) resolver P := by
  intro answer resolver' hrun
  rcases state_pure_ok.1 hrun with ⟨rfl, rfl⟩
  exact ⟨rfl, h⟩

/-- A question that needs another one is right if it is so for every right answer to that one. -/
theorem Answers.bind {question : EStateM ε Resolver α} {next : α → EStateM ε Resolver β}
    {P : α → Prop} {Q : β → Prop}
    (h : Answers question resolver P)
    (hnext : ∀ a resolver', P a → resolver'.header? = resolver.header? →
      Answers (next a) resolver' Q) :
    Answers (question >>= next) resolver Q := by
  intro answer resolver'' hrun
  rcases state_bind_ok.1 hrun with ⟨a, resolver', ha, hrest⟩
  rcases h a resolver' ha with ⟨hsame, hp⟩
  rcases hnext a resolver' hp hsame answer resolver'' hrest with ⟨hsame', hq⟩
  exact ⟨hsame'.trans hsame, hq⟩

theorem Answers.throw {P : α → Prop} {error : ε} :
    Answers (throw error : EStateM ε Resolver α) resolver P := by
  intro answer resolver' hrun
  exact absurd hrun state_throw_ok

/-- Questions for all elements of a list are answered rightly if each of them is, whatever the
resolver keeps by then. -/
theorem Answers.mapM {question : α → EStateM ε Resolver β} {l : List α} {P : α → β → Prop}
    (h : ∀ a ∈ l, ∀ resolver', resolver'.header? = resolver.header? →
      Answers (question a) resolver' (P a)) :
    Answers (l.mapM question) resolver (List.Forall₂ P l) := by
  intro answers resolver' hrun
  refine state_mapM_ok (fun r => r.header? = resolver.header?) P ?_ rfl hrun
  intro a ha resolver₁ b resolver₂ hsame hb
  rcases h a ha resolver₁ hsame b resolver₂ hb with ⟨hsame', hp⟩
  exact ⟨hsame'.trans hsame, hp⟩

end Answers

/-- A header that is answered is the one that is known or found. -/
theorem header_answers (name : BinaryName) (resolver : Resolver) :
    Answers (header name) resolver (fun found => resolver.header? name = some found) := by
  intro found resolver' hrun
  unfold header at hrun
  cases hknown : resolver.headers[name]? with
  | some known =>
    have hname : resolver.header? name = known := by simp [header?, hknown]
    simp only [hknown] at hrun
    cases known with
    | none => cases hrun
    | some known =>
      cases hrun
      exact ⟨rfl, hname⟩
  | none =>
    -- a class that is not known is looked up and kept
    have hname : resolver.header? name = (load name resolver).1 := by simp [header?, hknown]
    have hsame := header?_load name hknown
    simp only [hknown] at hrun
    generalize load name resolver = loaded at hrun hname hsame
    rcases loaded with ⟨header, resolver₁⟩
    cases header with
    | none => cases hrun
    | some known =>
      cases hrun
      exact ⟨hsame, hname⟩

/-- Every class of a chain that is passed from a class on is one that the class extends. -/
theorem chainFrom_answers (start : BinaryName) (rounds : Nat) {seen : Std.HashSet BinaryName}
    {chain : List BinaryName} {name : BinaryName} {resolver : Resolver}
    (hchain : ∀ passed ∈ chain, resolver.superclass?.Extends start passed)
    (hname : resolver.superclass?.Extends start name) :
    Answers (chainFrom seen chain name rounds) resolver
      (∀ passed ∈ ·, resolver.superclass?.Extends start passed) := by
  induction rounds generalizing seen chain name resolver with
  | zero => exact .throw
  | succ rounds ih =>
    unfold chainFrom
    split
    · -- a class that was passed before stands above itself
      exact .bind (P := fun _ => False) .throw fun _ _ h => h.elim
    · refine .bind (header_answers name resolver) ?_
      intro found resolver₁ hfound hsame
      have hheaders := superclass?_congr hsame
      have hlonger : ∀ passed ∈ name :: chain, resolver.superclass?.Extends start passed :=
        List.forall_mem_cons.2 ⟨hname, hchain⟩
      split
      · -- the chain ends here
        exact .pure fun passed h => hlonger passed (List.mem_reverse.1 h)
      · -- it goes on with a superclass
        rename_i parent hparent
        have hstep : resolver.superclass? name = some parent := by
          simp [superclass?, hfound, hparent]
        rw [← hheaders] at hlonger hname hstep ⊢
        exact ih hlonger (hname.tail hstep)

/-- A class extends all classes of its chain. -/
theorem ancestorChain_answers (name : BinaryName) (resolver : Resolver) :
    Answers (ancestorChain name) resolver
      (∀ passed ∈ ·, resolver.superclass?.Extends name passed) := by
  intro chain resolver' hrun
  rcases state_bind_ok.1 hrun with ⟨got, resolver₁, hget, hrun⟩
  cases hget
  exact chainFrom_answers name _ (by simp) .refl chain resolver' hrun

/-- What two classes have in common is above both. -/
theorem commonSuperclass_answers (first second : BinaryName) (resolver : Resolver) :
    Answers (commonSuperclass first second) resolver (fun common =>
      RefType.Below resolver.superclass? (.object first) (.object common) ∧
        RefType.Below resolver.superclass? (.object second) (.object common)) := by
  unfold commonSuperclass
  split
  · rename_i heq
    subst heq
    exact .pure ⟨.refl _, .refl _⟩
  · refine .bind (ancestorChain_answers second resolver) ?_
    intro others resolver₁ hothers hsame₁
    refine .bind (ancestorChain_answers first resolver₁) fun chain resolver₂ hchain _ => .pure ?_
    rw [superclass?_congr hsame₁] at hchain
    -- without a class in both chains the root is left
    cases hfind : chain.find? (Std.HashSet.ofList others).contains with
    | none => exact ⟨.root _, .root _⟩
    | some common =>
      have hmem : common ∈ others := by simpa using List.find?_some hfind
      exact ⟨.extends (hchain common (List.mem_of_find?_eq_some hfind)),
        .extends (hothers common hmem)⟩

/-- A class or the root stands above a class and an array. -/
theorem below_of_array (superclass : Superclasses) {type : RefType} (ha : type.IsArray)
    (name : BinaryName) :
    let common := RefType.object (if name.isArraySupertype then name else .object)
    RefType.Below superclass (.object name) common ∧ RefType.Below superclass type common := by
  intro common
  by_cases hn : name.isArraySupertype
  · have hcommon : common = .object name := by simp [common, hn]
    rw [hcommon]
    refine ⟨.refl _, ?_⟩
    have hcases : (name = .object ∨ name = .cloneable) ∨ name = .serializable := by
      simpa [BinaryName.isArraySupertype] using hn
    rcases hcases with (rfl | rfl) | rfl
    · exact .root _
    · exact .cloneable ha
    · exact .serializable ha
  · have hcommon : common = .object .object := by simp [common, hn]
    rw [hcommon]
    exact ⟨.root _, .root _⟩

/-- What is no class is an array. -/
theorem isArray_of_ne {type : RefType} (h : ∀ name, type ≠ .object name) : type.IsArray := by
  cases type with
  | object name => exact absurd rfl (h name)
  | objectArray extra => cases extra <;> rfl
  | primitiveArray extra => cases extra <;> rfl

section Arrays

variable (layers : Nat) {first second : RefType}

/-- Of two arrays only the elements matter. -/
theorem commonRefTypeUnder_of_arrays (hne : ¬ first = second)
    (hnot : ∀ name, first ≠ .object name) (hnot' : ∀ name, second ≠ .object name) :
    (∃ element other, first.element? = some (.ref element) ∧
      second.element? = some (.ref other) ∧
      commonRefTypeUnder layers first second = commonRefTypeUnder (layers + 1) element other) ∨
    (∀ element other, first.element? = some (.ref element) →
      second.element? = some (.ref other) → False) ∧
      commonRefTypeUnder layers first second =
        pure ((RefType.object .object).addDimensions layers) := by
  rw [commonRefTypeUnder.eq_def, if_neg hne]
  cases first with
  | object name => exact absurd rfl (hnot name)
  | objectArray | primitiveArray =>
    cases second with
    | object name => exact absurd rfl (hnot' name)
    | objectArray | primitiveArray =>
      dsimp only
      split
      · rename_i element other h h'
        exact .inl ⟨element, other, h, h', rfl⟩
      · rename_i hnone
        exact .inr ⟨hnone, rfl⟩

/-- The search goes on inside of two arrays of references. -/
theorem commonRefTypeUnder_of_elements (hne : ¬ first = second)
    (hnot : ∀ name, first ≠ .object name) (hnot' : ∀ name, second ≠ .object name)
    {element other : RefType} (hfirst : first.element? = some (.ref element))
    (hsecond : second.element? = some (.ref other)) :
    commonRefTypeUnder layers first second = commonRefTypeUnder (layers + 1) element other := by
  rcases commonRefTypeUnder_of_arrays layers hne hnot hnot' with
    ⟨_, _, h, h', hsame⟩ | ⟨hnone, _⟩
  · cases hfirst.symm.trans h
    cases hsecond.symm.trans h'
    exact hsame
  · exact (hnone element other hfirst hsecond).elim

/-- Two arrays that are not both of references have the root in common. -/
theorem commonRefTypeUnder_of_no_elements (hne : ¬ first = second)
    (hnot : ∀ name, first ≠ .object name) (hnot' : ∀ name, second ≠ .object name)
    (helements : ∀ element other, first.element? = some (.ref element) →
      second.element? = some (.ref other) → False) :
    commonRefTypeUnder layers first second =
      pure ((RefType.object .object).addDimensions layers) := by
  rcases commonRefTypeUnder_of_arrays layers hne hnot hnot' with ⟨_, _, h, h', _⟩ | ⟨_, hroot⟩
  · exact (helements _ _ h h').elim
  · exact hroot

end Arrays

/-- The closest type is above both types, under any number of dimensions. -/
theorem commonRefTypeUnder_answers (layers : Nat) (first second : RefType) (resolver : Resolver) :
    Answers (commonRefTypeUnder layers first second) resolver (fun common =>
      RefType.Below resolver.superclass? (first.addDimensions layers) common ∧
        RefType.Below resolver.superclass? (second.addDimensions layers) common) := by
  induction layers, first, second using commonRefTypeUnder.induct generalizing resolver with
  | case1 layers type =>
    -- the same type twice
    rw [commonRefTypeUnder.eq_def, if_pos rfl]
    exact .pure ⟨.refl _, .refl _⟩
  | case2 layers name other hne =>
    -- two classes
    rw [commonRefTypeUnder.eq_def, if_neg hne]
    refine .bind (commonSuperclass_answers name other resolver) ?_
    intro common _ hcommon _
    exact .pure ⟨hcommon.1.addDimensions layers, hcommon.2.addDimensions layers⟩
  | case3 layers second name hnot hne =>
    -- a class and an array, in either order
    rw [commonRefTypeUnder.eq_def, if_neg hne]
    have hbelow := below_of_array resolver.superclass? (isArray_of_ne hnot) name
    cases second with
    | object other => exact absurd rfl (hnot other)
    | objectArray | primitiveArray =>
      exact .pure ⟨hbelow.1.addDimensions layers, hbelow.2.addDimensions layers⟩
  | case4 layers first name hnot hne =>
    rw [commonRefTypeUnder.eq_def, if_neg hne]
    have hbelow := below_of_array resolver.superclass? (isArray_of_ne hnot) name
    cases first with
    | object other => exact absurd rfl (hnot other)
    | objectArray | primitiveArray =>
      exact .pure ⟨hbelow.2.addDimensions layers, hbelow.1.addDimensions layers⟩
  | case5 layers first second hne element other hfirst hsecond _ hnot hnot' _ ih =>
    -- arrays of references, one dimension further inside
    have hrun := commonRefTypeUnder_of_elements layers hne hnot hnot' hfirst hsecond
    rw [hrun, ← RefType.addDimensions_of_element? hfirst,
      ← RefType.addDimensions_of_element? hsecond]
    exact ih resolver
  | case6 layers first second hne hnot hnot' _ helements =>
    -- arrays whose elements have nothing in common
    have hrun := commonRefTypeUnder_of_no_elements layers hne hnot hnot' helements
    rw [hrun]
    exact .pure ⟨(RefType.Below.root first).addDimensions layers,
      (RefType.Below.root second).addDimensions layers⟩

/-- Without files there is no class but the root, so nothing is above the interfaces of arrays. -/
theorem rooted_of_empty : (ofClassPath ∅).superclass?.Rooted := by
  -- what is not found has no superclass
  have hnone : ∀ name, name ≠ BinaryName.object → (ofClassPath ∅).superclass? name = none := by
    intro name hname
    simp [superclass?, header?, ofClassPath, load, hname, readHeader?, ClassPath.find?,
      EmptyCollection.emptyCollection]
  refine ⟨?_, ?_, ?_⟩
  · simp [superclass?, header?, ofClassPath, load, ClassHeader.object]
  · intro name h
    rw [hnone _ (by decide)] at h
    cases h
  · intro name h
    rw [hnone _ (by decide)] at h
    cases h

end Resolver

end Preverification

import Preverification.Proofs.Hierarchy
import Preverification.Typing.Merge

/-!
# Merging as an upper bound

What two ways have in common is above what is known on each of them, and its values of two slots are
whole. Nothing is said about there being no closer bound.

* `Merge.types_answers`: what two types have in common is above both.
* `Merge.states_answers`: what is known on both of two ways is above what is known on each of them.
-/

namespace Preverification.Merge

open Resolver

variable {resolver : Resolver}

/-- A question that is answered during a merge is answered as at any other time. -/
theorem query_answers {α : Type} {question : Query α} {P : α → Prop}
    (h : Answers question resolver P) : Answers (query question) resolver P := by
  intro answer resolver' hrun
  unfold query at hrun
  cases hquestion : question resolver with
  | error error resolver₁ => simp [hquestion] at hrun
  | ok found resolver₁ =>
    simp only [hquestion, EStateM.Result.ok.injEq] at hrun
    rcases hrun with ⟨rfl, rfl⟩
    exact h found resolver₁ hquestion

/-- What two types have in common is above both. -/
theorem types_answers (first second : InferredType) (resolver : Resolver) :
    Answers (types first second) resolver (fun common => ∀ type, common = some type →
      InferredType.Below resolver.superclass? first type ∧
        InferredType.Below resolver.superclass? second type) := by
  unfold types
  split
  · rename_i heq
    subst heq
    refine .pure ?_
    rintro _ ⟨⟩
    exact ⟨.refl _, .refl _⟩
  · split
    · -- null and an object
      refine .pure ?_
      rintro _ ⟨⟩
      exact ⟨.null _, .refl _⟩
    · -- an object and null
      refine .pure ?_
      rintro _ ⟨⟩
      exact ⟨.refl _, .null _⟩
    · -- two objects
      rename_i type other _
      refine .bind (query_answers (commonRefTypeUnder_answers 0 type other resolver))
        fun common _ hcommon _ => .pure ?_
      rintro _ ⟨⟩
      exact ⟨.object hcommon.1, .object hcommon.2⟩
    · exact .pure nofun

theorem stackTypes_answers (first second : InferredType) (resolver : Resolver) :
    Answers (stackTypes first second) resolver (fun common =>
      InferredType.Below resolver.superclass? first common ∧
        InferredType.Below resolver.superclass? second common) := by
  unfold stackTypes
  refine .bind (types_answers first second resolver) ?_
  intro common _ hcommon _
  cases common with
  | none => exact .throw
  | some type => exact .pure (hcommon type rfl)

/-- Of a list of results, one for each pair of two lists, each one is related to both sides. -/
theorem forall₂_of_zip {α β γ : Type} {R : α → γ → Prop} {S : β → γ → Prop}
    {firsts : List α} {seconds : List β} {results : List γ}
    (h : List.Forall₂ (fun (pair : α × β) c => R pair.1 c ∧ S pair.2 c)
      (firsts.zip seconds) results) (hlen : firsts.length = seconds.length) :
    List.Forall₂ R firsts results ∧ List.Forall₂ S seconds results := by
  induction firsts generalizing seconds results with
  | nil =>
    cases seconds with
    | nil => cases h; exact ⟨.nil, .nil⟩
    | cons => simp at hlen
  | cons first firsts ih =>
    cases seconds with
    | nil => simp at hlen
    | cons second seconds =>
      cases h with
      | cons hhead htail =>
        rcases ih htail (by simpa using hlen) with ⟨hr, hs⟩
        exact ⟨.cons hhead.1 hr, .cons hhead.2 hs⟩

/-- Stacks of as many values are merged value by value, from the bottom up. -/
theorem operandStacks_pairwise {first second : OperandStack}
    {R : InferredType × InferredType → InferredType → Prop}
    (h : ∀ pair ∈ first.toList.zip second.toList, ∀ resolver',
      resolver'.header? = resolver.header? →
        Answers (stackTypes pair.1 pair.2) resolver' (R pair)) :
    Answers (operandStacks first second) resolver fun common =>
      first.toList.length = second.toList.length ∧
        List.Forall₂ R (first.toList.zip second.toList) common.toList := by
  unfold operandStacks
  split
  · -- stacks of different heights do not merge
    exact .bind (P := fun _ => False) .throw fun _ _ h => h.elim
  · rename_i hsize
    have hlen : first.toList.length = second.toList.length := by
      simpa [OperandStack.length_toList] using hsize
    refine .bind (.mapM h) fun values _ hvalues _ => .pure ⟨hlen, ?_⟩
    rw [OperandStack.toList_ofList]
    exact hvalues

/-- What two stacks have in common is above both, value by value. -/
theorem operandStacks_answers (first second : OperandStack) (resolver : Resolver) :
    Answers (operandStacks first second) resolver (fun common =>
      List.Forall₂ (InferredType.Below resolver.superclass?) first.values common.values ∧
        List.Forall₂ (InferredType.Below resolver.superclass?) second.values common.values) := by
  have hpairs : ∀ pair ∈ first.toList.zip second.toList, ∀ resolver',
      resolver'.header? = resolver.header? →
        Answers (stackTypes pair.1 pair.2) resolver' fun common =>
          InferredType.Below resolver.superclass? pair.1 common ∧
            InferredType.Below resolver.superclass? pair.2 common := by
    intro pair _ resolver' hsame
    rw [← superclass?_congr hsame]
    exact stackTypes_answers pair.1 pair.2 resolver'
  intro common resolver' hrun
  obtain ⟨hsame, hlen, hvalues⟩ := operandStacks_pairwise hpairs common resolver' hrun
  obtain ⟨hfirst, hsecond⟩ := forall₂_of_zip hvalues hlen
  exact ⟨hsame, List.rel_reverse hfirst, List.rel_reverse hsecond⟩

/-- What holds of types slot by slot, and of unusable ones, still holds when locals are filled up
and values that were cut become unusable. -/
theorem keepPaired_slots {R : InferredType × InferredType → InferredType → Prop}
    (htop : ∀ pair, R pair .top) {first second commons : List InferredType}
    (h : List.Forall₂ R (first.zip second) commons) (missing slot : Nat) :
    R (localAt first slot, localAt second slot)
      (localAt (keepPaired (commons ++ List.replicate missing .top)) slot) := by
  rw [localAt_keepPaired, localAt_append_top]
  split
  · exact htop _
  · have hlen := h.length_eq
    rw [List.length_zip] at hlen
    rcases Nat.lt_or_ge slot commons.length with hlt | hge
    · -- both lists reach as far as what they have in common
      have hpair : (first.zip second)[slot]? = some (localAt first slot, localAt second slot) :=
        List.getElem?_zip_eq_some.2 ⟨localAt_of_lt (by omega), localAt_of_lt (by omega)⟩
      exact forall₂_getElem? h hpair (localAt_of_lt hlt)
    · rw [localAt_of_le hge]
      exact htop _

/-- Local variables are merged slot by slot, and cut values become unusable. -/
theorem locals_answers (first second : List InferredType) (resolver : Resolver) :
    Answers (locals first second) resolver (fun common => Paired common ∧ ∀ slot,
      InferredType.LocalBelow resolver.superclass? (localAt first slot) (localAt common slot) ∧
        InferredType.LocalBelow resolver.superclass? (localAt second slot)
          (localAt common slot)) := by
  unfold locals
  refine .bind (P := List.Forall₂ (fun pair common =>
    InferredType.LocalBelow resolver.superclass? pair.1 common ∧
      InferredType.LocalBelow resolver.superclass? pair.2 common) (first.zip second))
    (.mapM fun pair _ resolver' hsame => ?_) fun commons _ hcommons _ => .pure ?_
  · -- slots that have nothing in common become unusable
    rw [← superclass?_congr hsame]
    refine .bind (types_answers pair.1 pair.2 resolver') fun common _ hcommon _ => .pure ?_
    cases common with
    | none => exact ⟨.inl rfl, .inl rfl⟩
    | some type => exact ⟨.inr (hcommon type rfl).1, .inr (hcommon type rfl).2⟩
  · -- so do values that were cut
    exact ⟨paired_keepPaired _,
      fun slot => keepPaired_slots (fun _ => ⟨.inl rfl, .inl rfl⟩) hcommons _ slot⟩

/-- What is known on both of two ways is above what is known on each of them. -/
theorem states_answers (first second : TypeState) (resolver : Resolver) :
    Answers (states first second) resolver (fun common => Paired common.locals ∧
      TypeState.Below resolver.superclass? first common ∧
        TypeState.Below resolver.superclass? second common) := by
  unfold states
  refine .bind (operandStacks_answers first.stack second.stack resolver)
    fun stack resolver' hstack hsame => ?_
  refine .bind (locals_answers first.locals second.locals resolver')
    fun locals _ hlocals _ => .pure ?_
  rw [superclass?_congr hsame] at hlocals
  rcases hlocals with ⟨hpaired, hlocals⟩
  exact ⟨hpaired, ⟨fun slot => (hlocals slot).1, hstack.1⟩,
    ⟨fun slot => (hlocals slot).2, hstack.2⟩⟩

end Preverification.Merge

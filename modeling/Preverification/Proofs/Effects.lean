import Mathlib.Data.List.Forall2

/-!
# Runs that succeed

What is known about the parts of a computation whose run succeeds. A computation with a state keeps
an invariant through a list of steps if every step keeps it.

* `except_bind_ok` and `state_bind_ok`: what succeeds consists of parts that succeed.
* `ofExcept_ok`: a check that decides whether a computation goes on leaves the state as it is.
* `except_foldlM_keeps` and `state_mapM_ok`: what each step keeps is kept by a run.
-/

namespace Preverification

section Except

variable {ε α β : Type}

/-- A check that succeeds consists of two parts that succeed. -/
theorem except_bind_ok {x : Except ε α} {f : α → Except ε β} {b : β} :
    (x >>= f) = .ok b ↔ ∃ a, x = .ok a ∧ f a = .ok b := by
  cases x with
  | error e =>
    constructor
    · nofun
    · rintro ⟨_, h, _⟩
      cases h
  | ok a =>
    constructor
    · intro h
      exact ⟨a, rfl, h⟩
    · rintro ⟨_, h, h'⟩
      cases h
      exact h'

/-- Changing the result of a check does not change when it succeeds. -/
theorem except_map_ok {x : Except ε α} {f : α → β} {b : β} :
    x.map f = .ok b ↔ ∃ a, x = .ok a ∧ f a = b := by
  cases x <;> simp [Except.map]

/-- A check whose result does not matter succeeds if it has one. -/
theorem except_discard_ok {x : Except ε α} {u : Unit} :
    discard x = .ok u ↔ ∃ a, x = .ok a := by
  cases x with
  | error e => exact ⟨nofun, nofun⟩
  | ok a => exact ⟨fun _ => ⟨a, rfl⟩, fun _ => rfl⟩

/-- Changing the error of a check does not change when it succeeds. -/
theorem except_mapError_ok {ε' : Type} {x : Except ε α} {f : ε → ε'} {a : α} :
    x.mapError f = .ok a ↔ x = .ok a := by
  cases x <;> simp [Except.mapError]

/-- Checks of all elements of a list that succeed give one result for each. -/
theorem except_mapM_ok {f : α → Except ε β} {l : List α} {bs : List β}
    (h : l.mapM f = .ok bs) : List.Forall₂ (fun a b => f a = .ok b) l bs := by
  induction l generalizing bs with
  | nil =>
    cases h
    exact .nil
  | cons a l ih =>
    rw [List.mapM_cons] at h
    rcases except_bind_ok.1 h with ⟨b, hb, h⟩
    rcases except_bind_ok.1 h with ⟨rest, hrest, h⟩
    cases h
    exact .cons hb (ih hrest)

/-- A check of all elements of a list that fails does so at one of them. -/
theorem except_mapM_error {f : α → Except ε β} {l : List α} {e : ε}
    (h : l.mapM f = .error e) : ∃ a ∈ l, f a = .error e := by
  induction l with
  | nil => cases h
  -- either the first element fails, or it succeeds and a later one does
  | cons a l ih =>
    rw [List.mapM_cons] at h
    cases hfirst : f a with
    | error found =>
      rw [hfirst] at h
      cases h
      exact ⟨a, List.mem_cons_self, hfirst⟩
    | ok b =>
      rw [hfirst] at h
      cases hrest : l.mapM f with
      | error found =>
        rw [hrest] at h
        cases h
        rcases ih hrest with ⟨a', hmem, ha'⟩
        exact ⟨a', List.mem_cons_of_mem a hmem, ha'⟩
      | ok bs =>
        rw [hrest] at h
        cases h

/-- If all elements of a list have a result, these are the results of the list. -/
theorem except_mapM_eq_map {f : α → Except ε β} {g : α → β} {l : List α}
    (h : ∀ a ∈ l, f a = .ok (g a)) : l.mapM f = .ok (l.map g) := by
  induction l with
  | nil => rfl
  | cons a l ih =>
    obtain ⟨ha, hl⟩ := List.forall_mem_cons.1 h
    rw [List.mapM_cons, ha, ih hl]
    rfl

/-- A look-up that cannot fail and may leave elements out is a `filterMap`. -/
theorem except_filterMapM_eq {f : α → Except ε (Option β)} {g : α → Option β} {l : List α}
    (h : ∀ a ∈ l, f a = .ok (g a)) : l.filterMapM f = .ok (l.filterMap g) := by
  induction l with
  | nil => rfl
  | cons a l ih =>
    obtain ⟨ha, hl⟩ := List.forall_mem_cons.1 h
    rw [List.filterMapM_cons, ha, List.filterMap_cons]
    refine except_bind_ok.2 ⟨g a, rfl, ?_⟩
    rcases g a with _ | b
    · exact ih hl
    · exact except_bind_ok.2 ⟨_, ih hl, rfl⟩

/-- The elements that a check picks, if the check has an answer for each. -/
theorem except_filterM_eq {f : α → Except ε Bool} {g : α → Bool} {l : List α}
    (h : ∀ a ∈ l, f a = .ok (g a)) : l.filterM f = .ok (l.filter g) := by
  -- what was found is kept the other way round while the list is gone through
  have hfrom : ∀ found, l.filterAuxM f found = .ok ((l.filter g).reverse ++ found) := by
    induction l with
    | nil => exact fun _ => rfl
    | cons a l ih =>
      intro found
      rcases List.forall_mem_cons.1 h with ⟨ha, hl⟩
      refine except_bind_ok.2 ⟨g a, ha, ?_⟩
      rw [ih hl]
      cases hpicked : g a with
      | true => simp [hpicked]
      | false => simp [hpicked]
  unfold List.filterM
  refine except_bind_ok.2 ⟨_, hfrom [], ?_⟩
  rw [List.append_nil, List.reverse_reverse]
  rfl

/-- What a check of a list keeps has passed the check. -/
theorem except_filterM_ok {f : α → Except ε Bool} {l kept : List α}
    (h : l.filterM f = .ok kept) : ∀ a ∈ kept, a ∈ l ∧ f a = .ok true := by
  -- behind what was found before
  have hfrom : ∀ (l found all : List α), l.filterAuxM f found = .ok all →
      ∀ a ∈ all, a ∈ found ∨ a ∈ l ∧ f a = .ok true := by
    intro l
    induction l with
    | nil =>
      rintro found all ⟨⟩ a ha
      exact .inl ha
    | cons first l ih =>
      intro found all hall a ha
      rcases except_bind_ok.1 hall with ⟨answer, hanswer, hrest⟩
      rcases ih _ all hrest a ha with hfound | ⟨hmem, hpassed⟩
      · cases answer with
        | false => exact .inl hfound
        | true =>
          rcases List.mem_cons.1 hfound with rfl | hfound
          · exact .inr ⟨List.mem_cons_self, hanswer⟩
          · exact .inl hfound
      · exact .inr ⟨List.mem_cons_of_mem first hmem, hpassed⟩
  unfold List.filterM at h
  rcases except_bind_ok.1 h with ⟨all, hall, hreverse⟩
  cases hreverse
  intro a ha
  exact (hfrom l [] all hall a (List.mem_reverse.1 ha)).resolve_left List.not_mem_nil

/-- If no step fails, going through a list does not. -/
theorem except_foldlM_eq {f : β → α → Except ε β} {g : β → α → β} {l : List α} {b : β}
    (h : ∀ b, ∀ a ∈ l, f b a = .ok (g b a)) : l.foldlM f b = .ok (l.foldl g b) := by
  induction l generalizing b with
  | nil => rfl
  | cons a l ih =>
    obtain ⟨hfirst, hrest⟩ := List.forall_mem_cons.1 (fun a hmem => fun b => h b a hmem)
    rw [List.foldlM_cons, hfirst]
    exact ih fun b a hmem => hrest a hmem b

/-- What each step keeps is kept when a list is gone through. -/
theorem except_foldlM_keeps {P : β → Prop} {f : β → α → Except ε β} {l : List α} {b b' : β}
    (hstep : ∀ a ∈ l, ∀ b b', P b → f b a = .ok b' → P b') (hb : P b)
    (h : l.foldlM f b = .ok b') : P b' := by
  induction l generalizing b with
  | nil =>
    cases h
    exact hb
  | cons a l ih =>
    rw [List.foldlM_cons] at h
    obtain ⟨middle, hfirst, hrest⟩ := except_bind_ok.1 h
    obtain ⟨ha, hl⟩ := List.forall_mem_cons.1 hstep
    exact ih hl (ha b middle hb hfirst) hrest

/-- When going through a list does not fail, no step does. -/
theorem except_foldlM_step {f : β → α → Except ε β} {l : List α} {b b' : β}
    (h : l.foldlM f b = .ok b') {a : α} (hmem : a ∈ l) : ∃ c c', f c a = .ok c' := by
  induction l generalizing b with
  | nil => cases hmem
  | cons first l ih =>
    rw [List.foldlM_cons] at h
    obtain ⟨middle, hfirst, hrest⟩ := except_bind_ok.1 h
    rcases List.mem_cons.1 hmem with rfl | hmem
    · exact ⟨b, middle, hfirst⟩
    · exact ih hrest hmem

/-- Checks without results of all elements of a list succeed one by one. -/
theorem except_forM_ok {f : α → Except ε Unit} {l : List α} :
    l.forM f = .ok () ↔ ∀ a ∈ l, f a = .ok () := by
  induction l with
  | nil => simp [List.forM_nil, pure, Except.pure]
  | cons a l ih =>
    rw [List.forM_eq_forM] at ih ⊢
    rw [List.forM_cons, except_bind_ok]
    constructor
    · rintro ⟨_, ha, hl⟩
      exact List.forall_mem_cons.2 ⟨ha, ih.1 hl⟩
    · intro h
      rcases List.forall_mem_cons.1 h with ⟨ha, hl⟩
      exact ⟨(), ha, ih.2 hl⟩

end Except

section State

variable {ε σ α β : Type}

/-- A run that succeeds consists of two runs that succeed. -/
theorem state_bind_ok {x : EStateM ε σ α} {f : α → EStateM ε σ β} {s s'' : σ} {b : β} :
    (x >>= f) s = .ok b s'' ↔ ∃ a s', x s = .ok a s' ∧ f a s' = .ok b s'' := by
  change EStateM.bind x f s = _ ↔ _
  unfold EStateM.bind
  cases x s with
  | error e s' =>
    constructor
    · nofun
    · rintro ⟨_, _, h, _⟩
      cases h
  | ok a s' =>
    constructor
    · intro h
      exact ⟨a, s', rfl, h⟩
    · rintro ⟨_, _, h, h'⟩
      cases h
      exact h'

/-- A run that fails does so in its first part, or behind a first part that succeeds. -/
theorem state_bind_error {x : EStateM ε σ α} {f : α → EStateM ε σ β} {s s'' : σ} {e : ε} :
    (x >>= f) s = .error e s'' ↔
      x s = .error e s'' ∨ ∃ a s', x s = .ok a s' ∧ f a s' = .error e s'' := by
  change EStateM.bind x f s = _ ↔ _
  unfold EStateM.bind
  cases x s with
  | error e s' => simp
  | ok a s' => simp

/-- A computation that only answers leaves the state as it is. -/
theorem state_pure_ok {a b : α} {s s' : σ} :
    (pure a : EStateM ε σ α) s = .ok b s' ↔ a = b ∧ s = s' := by
  change EStateM.Result.ok a s = _ ↔ _
  simp

/-- A check in a computation leaves the state as it is. -/
theorem ofExcept_ok {result : Except ε α} {a : α} {s s' : σ} :
    (MonadExcept.ofExcept result : EStateM ε σ α) s = .ok a s' ↔ result = .ok a ∧ s = s' := by
  cases result with
  | ok found => exact state_pure_ok.trans (by rw [Except.ok.injEq])
  | error error => exact ⟨nofun, nofun⟩

/-- A check succeeds in a monad with states, whatever error it would be turned into. -/
theorem ofExcept_mapError_ok {ε' : Type} {result : Except ε' α} {f : ε' → ε} {a : α} {s s' : σ} :
    (MonadExcept.ofExcept (result.mapError f) : EStateM ε σ α) s = .ok a s' ↔
      result = .ok a ∧ s = s' := by
  rw [ofExcept_ok, except_mapError_ok]

/-- A computation that fails does not succeed. -/
theorem state_throw_ok {e : ε} {a : α} {s s' : σ} :
    ¬ (throw e : EStateM ε σ α) s = .ok a s' := nofun

/-- What every step keeps is kept by a run over a list, and each element has a result of its own. -/
theorem state_mapM_ok {f : α → EStateM ε σ β} {l : List α} {bs : List β} {s s' : σ}
    (I : σ → Prop) (P : α → β → Prop)
    (hstep : ∀ a ∈ l, ∀ s b s', I s → f a s = .ok b s' → I s' ∧ P a b)
    (hs : I s) (h : l.mapM f s = .ok bs s') : I s' ∧ List.Forall₂ P l bs := by
  induction l generalizing bs s with
  | nil =>
    cases h
    exact ⟨hs, .nil⟩
  | cons a l ih =>
    rw [List.mapM_cons] at h
    rcases state_bind_ok.1 h with ⟨b, s₁, hb, h⟩
    rcases state_bind_ok.1 h with ⟨rest, s₂, hrest, h⟩
    rcases state_pure_ok.1 h with ⟨rfl, rfl⟩
    rcases hstep a (by simp) s b s₁ hs hb with ⟨hs₁, hab⟩
    rcases ih (fun c hc => hstep c (by simp [hc])) hs₁ hrest with ⟨hs₂, htail⟩
    exact ⟨hs₂, .cons hab htail⟩

/-- A run over a list comes to an element in a state: the elements in front of it were dealt with.
-/
def ComesTo (f : α → EStateM ε σ β) (l : List α) (s : σ) (a : α) (t : σ) : Prop :=
  ∃ front back bs, l = front ++ a :: back ∧ front.mapM f s = .ok bs t

/-- A run comes to what it comes to behind its first step. -/
theorem ComesTo.cons {f : α → EStateM ε σ β} {l : List α} {s middle t : σ} {a c : α} {b : β}
    (hb : f a s = .ok b middle) (h : ComesTo f l middle c t) : ComesTo f (a :: l) s c t := by
  rcases h with ⟨front, back, bs, rfl, hfront⟩
  refine ⟨a :: front, back, b :: bs, rfl, ?_⟩
  rw [List.mapM_cons]
  exact state_bind_ok.2 ⟨b, middle, hb, state_bind_ok.2 ⟨bs, t, hfront, rfl⟩⟩

/-- Steps that each lead on lead on all together, and each element has a result of its own step. -/
theorem state_mapM_steps {R : σ → σ → Prop} (hrefl : ∀ s, R s s)
    (htrans : ∀ s t u, R s t → R t u → R s u) {f : α → EStateM ε σ β} {l : List α} {bs : List β}
    {s s' : σ} (hstep : ∀ a ∈ l, ∀ t b t', f a t = .ok b t' → R t t')
    (h : l.mapM f s = .ok bs s') :
    R s s' ∧ List.Forall₂ (fun a b => ∃ t t', ComesTo f l s a t ∧ R s t ∧ f a t = .ok b t' ∧
      R t' s') l bs := by
  induction l generalizing bs s with
  | nil =>
    cases h
    exact ⟨hrefl _, .nil⟩
  | cons a l ih =>
    rw [List.mapM_cons] at h
    rcases state_bind_ok.1 h with ⟨b, middle, hb, h⟩
    rcases state_bind_ok.1 h with ⟨rest, last, hrest, h⟩
    rcases state_pure_ok.1 h with ⟨rfl, rfl⟩
    have hfirst := hstep a (by simp) s b middle hb
    rcases ih (fun c hc => hstep c (by simp [hc])) hrest with ⟨hlater, htail⟩
    -- the first element is come to at once, the others behind its step
    have hhead : ComesTo f (a :: l) s a s := ⟨[], l, [], rfl, rfl⟩
    refine ⟨htrans _ _ _ hfirst hlater, .cons ⟨s, middle, hhead, hrefl s, hb, hlater⟩ (htail.imp ?_)⟩
    rintro c d ⟨t, t', hcomes, ht, hrun, ht'⟩
    exact ⟨t, t', hcomes.cons hb, htrans _ _ _ hfirst ht, hrun, ht'⟩

end State

/-- Of lists that are related one by one, what stands at one place is related. -/
theorem forall₂_getElem? {α β : Type} {P : α → β → Prop} {l : List α} {l' : List β}
    (h : List.Forall₂ P l l') {place : Nat} {a : α} {b : β} (ha : l[place]? = some a)
    (hb : l'[place]? = some b) : P a b := by
  induction h generalizing place with
  | nil => simp at ha
  | cons hhead _ ih =>
    cases place with
    | zero =>
      cases ha
      cases hb
      exact hhead
    | succ place => exact ih ha hb

/-- Of lists that are related one by one, an element of the first one is related to one of the
second one. -/
theorem forall₂_exists {α β : Type} {P : α → β → Prop} {l : List α} {l' : List β}
    (h : List.Forall₂ P l l') {a : α} (ha : a ∈ l) : ∃ b ∈ l', P a b := by
  rcases List.getElem_of_mem ha with ⟨place, hlt, rfl⟩
  have hlt' : place < l'.length := h.length_eq ▸ hlt
  exact ⟨l'[place], List.getElem_mem hlt', forall₂_getElem? h (List.getElem?_eq_getElem hlt)
    (List.getElem?_eq_getElem hlt')⟩

/-- Of a list in which one element is replaced, all others stay. -/
theorem forall₂_set {α : Type} {R : α → α → Prop} (hrefl : ∀ a, R a a) {l : List α} {place : Nat}
    {a a' : α} (ha : l[place]? = some a) (h : R a a') : List.Forall₂ R l (l.set place a') := by
  induction l generalizing place with
  | nil => cases ha
  | cons b l ih =>
    cases place with
    | zero =>
      cases ha
      exact .cons h (List.forall₂_same.2 fun c _ => hrefl c)
    | succ place => exact .cons (hrefl b) (ih ha)

end Preverification

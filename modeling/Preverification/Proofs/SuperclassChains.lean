import Preverification.Proofs.ResolverCalls

/-!
# Following superclasses

Whoever follows the superclasses of a class comes to a class without one, to a class that was passed
before, or to a class that is not found. Which of these it is, and after which classes, is the
answer of a resolver for the chain of the class.

Superclasses lead only one way. So the classes that are passed until a class without superclass
differ, and of two such ways that share a class the rest is the same.

* `Superclasses.Walk`: following superclasses from class to class.
* `Headers.EndsIn`: what following superclasses comes to.
* `Headers.EndsIn.unique`: it comes to one thing.
* `Resolver.answer_ancestorChain`: the chain of a class is what following its superclasses comes to.
-/

namespace Preverification

namespace Superclasses

/-- The classes that are passed on the way from a class to one that it extends. -/
inductive Walk (superclass : Superclasses) : BinaryName → List BinaryName → BinaryName → Prop where
  | stop (name : BinaryName) : Walk superclass name [name] name
  | climb {name parent last : BinaryName} {walk : List BinaryName}
    (hparent : superclass name = some parent) (hrest : Walk superclass parent walk last) :
    Walk superclass name (name :: walk) last

namespace Walk

variable {superclass : Superclasses} {name name' last last' parent : BinaryName}
  {walk walk' : List BinaryName}

/-- The class that was begun with is the first one. -/
theorem head?_eq (h : superclass.Walk name walk last) : walk.head? = some name := by
  cases h with
  | stop | climb => rfl

/-- The class that was come to is the last one. -/
theorem getLast?_eq (h : superclass.Walk name walk last) : walk.getLast? = some last := by
  induction h with
  | stop => rfl
  | climb _ hrest ih =>
    rw [List.getLast?_cons, ih, Option.getD_some]

/-- One more superclass is followed. -/
theorem snoc (h : superclass.Walk name walk last) (hparent : superclass last = some parent) :
    superclass.Walk name (walk ++ [parent]) parent := by
  induction h with
  | stop name => exact .climb hparent (.stop parent)
  | climb hfirst _ ih => exact .climb hfirst (ih hparent)

/-- The way to a class leads on from every class that is passed. -/
theorem from_mem (h : superclass.Walk name walk last) (hmem : name' ∈ walk) :
    ∃ before after, walk = before ++ after ∧ superclass.Walk name' after last ∧
      name' ∉ before := by
  induction h with
  | stop name =>
    obtain rfl := List.mem_singleton.1 hmem
    exact ⟨[], _, rfl, .stop name', List.not_mem_nil⟩
  | @climb name parent last walk hparent hrest ih =>
    by_cases hfirst : name' = name
    · subst hfirst
      exact ⟨[], _, rfl, .climb hparent hrest, List.not_mem_nil⟩
    · obtain ⟨before, after, rfl, hafter, hnot⟩ := ih (List.mem_of_ne_of_mem hfirst hmem)
      exact ⟨name :: before, after, rfl, hafter, List.not_mem_cons_of_ne_of_not_mem hfirst hnot⟩

/-- Behind every class that is passed the rest of the way is one from that class. -/
theorem of_append {before after : List BinaryName} {other : BinaryName}
    (h : superclass.Walk name (before ++ other :: after) last) :
    superclass.Walk other (other :: after) last := by
  induction before generalizing name with
  | nil =>
    obtain rfl := Option.some.inj h.head?_eq
    exact h
  | cons first before ih =>
    generalize hwalk : first :: before ++ other :: after = walk at h
    cases h with
    | stop => simp at hwalk
    | climb _ hrest =>
      cases hwalk
      exact ih hrest

/-- Of two ways from a class one goes on where the other one stops. -/
theorem comparable (h : superclass.Walk name walk last) (h' : superclass.Walk name walk' last') :
    walk <+: walk' ∨ walk' <+: walk := by
  induction h generalizing walk' with
  | stop name => exact .inl (List.singleton_prefix_iff_head?_eq_some.2 h'.head?_eq)
  | @climb name parent last walk hparent hrest ih =>
    cases h' with
    | stop => exact .inr (List.cons_prefix_cons.2 ⟨rfl, List.nil_prefix⟩)
    | climb hparent' hrest' =>
      obtain rfl := Option.some.inj (hparent.symm.trans hparent')
      exact (ih hrest').imp (List.cons_prefix_cons.2 ⟨rfl, ·⟩) (List.cons_prefix_cons.2 ⟨rfl, ·⟩)

/-- Until a class without superclass every other way from the same class is the same one. -/
theorem within (h : superclass.Walk name walk last) (hroot : superclass last = none)
    (h' : superclass.Walk name walk' last') : walk' <+: walk := by
  induction h generalizing walk' with
  | stop name =>
    cases h' with
    | stop => exact List.prefix_rfl
    | climb hparent => exact absurd (hroot.symm.trans hparent) nofun
  | @climb name parent last walk hparent hrest ih =>
    cases h' with
    | stop => exact List.prefix_iff_eq_append.2 rfl
    | climb hparent' hrest' =>
      obtain rfl := Option.some.inj (hparent.symm.trans hparent')
      exact List.cons_prefix_cons.2 ⟨rfl, ih hroot hrest'⟩

/-- Only one way leads from a class to one without superclass. -/
theorem unique (h : superclass.Walk name walk last) (hroot : superclass last = none)
    (h' : superclass.Walk name walk' last') (hroot' : superclass last' = none) :
    walk = walk' ∧ last = last' := by
  have heq : walk = walk' := (h'.within hroot' h).eq_of_length_le (h.within hroot h').length_le
  subst heq
  exact ⟨rfl, Option.some.inj (h.getLast?_eq.symm.trans h'.getLast?_eq)⟩

/-- No class is passed twice on the way to one without superclass. -/
theorem nodup (h : superclass.Walk name walk last) (hroot : superclass last = none) :
    walk.Nodup := by
  induction h with
  | stop name => exact List.nodup_singleton name
  | @climb name parent last walk hparent hrest ih =>
    refine List.nodup_cons.2 ⟨fun hmem => ?_, ih hroot⟩
    -- the rest of the way would be as long as the whole of it
    obtain ⟨before, after, rfl, hafter, -⟩ := hrest.from_mem hmem
    have hlength := congrArg List.length
      ((Walk.climb hparent hrest).unique hroot hafter hroot).1
    rw [List.length_cons, List.length_append] at hlength
    omega

/-- What is passed is what a class extends. -/
theorem mem_iff (h : superclass.Walk name walk last) (hroot : superclass last = none) :
    name' ∈ walk ↔ superclass.Extends name name' := by
  induction h with
  | stop name =>
    rw [List.mem_singleton]
    refine ⟨fun heq => heq ▸ .refl, fun hextends => ?_⟩
    rcases Relation.ReflTransGen.cases_head hextends with heq | ⟨parent, hparent, -⟩
    · exact heq.symm
    · exact absurd (hroot.symm.trans hparent) nofun
  | @climb name parent last walk hparent hrest ih =>
    rw [List.mem_cons, ih hroot]
    constructor
    · rintro (rfl | hextends)
      · exact .refl
      · exact .head hparent hextends
    · intro hextends
      rcases Relation.ReflTransGen.cases_head hextends with heq | ⟨parent', hparent', hrest'⟩
      · exact .inl heq.symm
      · obtain rfl := Option.some.inj (hparent.symm.trans hparent')
        exact .inr hrest'

/-- Two classes that extend each other are the same one, if a way leads to a class without
superclass. -/
theorem extends_antisymm (h : superclass.Walk name walk last) (hroot : superclass last = none)
    (hextends : superclass.Extends name name') (hback : superclass.Extends name' name) :
    name = name' := by
  obtain ⟨before, after, rfl, hafter, -⟩ := h.from_mem ((h.mem_iff hroot).2 hextends)
  obtain ⟨before', after', rfl, hafter', -⟩ := hafter.from_mem ((hafter.mem_iff hroot).2 hback)
  -- the second way from the class is the first one, so nothing was passed in between
  have hlength := congrArg List.length (h.unique hroot hafter' hroot).1
  simp only [List.length_append] at hlength
  have hnone : before = [] := List.eq_nil_of_length_eq_zero (by omega)
  subst hnone
  exact Option.some.inj (h.head?_eq.symm.trans hafter.head?_eq)

end Walk

end Superclasses

namespace Headers

/-- The superclass of each class whose header is found. -/
def superclass (headers : Headers) : Superclasses := fun name => (headers name).bind (·.superclass)

/-- What following the superclasses of a class comes to. -/
inductive EndsIn (headers : Headers) (name : BinaryName) :
    Except ResolveError (List BinaryName) → Prop where
  -- a class without superclass, after the classes that are passed
  | root {chain : List BinaryName} {last : BinaryName} {header : ClassHeader}
    (h : headers.superclass.Walk name chain last) (hfound : headers last = some header)
    (hroot : header.superclass = none) : EndsIn headers name (.ok chain)
  -- a class that was passed, while those before it differ
  | circular {passed : List BinaryName} {again : BinaryName}
    (h : headers.superclass.Walk name (passed ++ [again]) again) (hnodup : passed.Nodup)
    (hagain : again ∈ passed) : EndsIn headers name (.error (.circular again))
  -- a class that is not found
  | missing {passed : List BinaryName} {absent : BinaryName}
    (h : headers.superclass.Walk name passed absent) (hnone : headers absent = none) :
    EndsIn headers name (.error (.notFound absent))

variable {headers : Headers} {name : BinaryName}

theorem superclass_eq_some {parent : BinaryName} {header : ClassHeader}
    (hfound : headers name = some header) (hparent : header.superclass = some parent) :
    headers.superclass name = some parent := by
  rw [superclass, hfound, Option.bind_some, hparent]

theorem superclass_eq_none {header : ClassHeader} (hfound : headers name = some header)
    (hroot : header.superclass = none) : headers.superclass name = none := by
  rw [superclass, hfound, Option.bind_some, hroot]

theorem superclass_of_missing (hnone : headers name = none) : headers.superclass name = none := by
  rw [superclass, hnone, Option.bind_none]

/-- A complete chain is the only way to a class without superclass. -/
theorem endsIn_ok {chain : List BinaryName} :
    headers.EndsIn name (.ok chain) ↔ ∃ last header, headers.superclass.Walk name chain last ∧
      headers last = some header ∧ header.superclass = none :=
  ⟨fun | .root h hfound hroot => ⟨_, _, h, hfound, hroot⟩,
    fun ⟨_, _, h, hfound, hroot⟩ => .root h hfound hroot⟩

/-- A class is passed twice on no way to a class without superclass. -/
theorem not_circular {walk passed : List BinaryName} {last again : BinaryName}
    (h : headers.superclass.Walk name walk last) (hroot : headers.superclass last = none)
    (h' : headers.superclass.Walk name (passed ++ [again]) again) (hagain : again ∈ passed) :
    False := by
  have hnodup : (passed ++ [again]).Nodup := (h.nodup hroot).sublist (h.within hroot h').sublist
  exact (List.nodup_append.1 hnodup).2.2 again hagain again (List.mem_singleton_self again) rfl

/-- If no class is passed twice before, no longer way comes to another class that was passed. -/
theorem circular_within {passed passed' : List BinaryName} {again again' : BinaryName}
    (hnodup : passed'.Nodup) (hagain : again ∈ passed)
    (h : passed ++ [again] <+: passed' ++ [again']) : again = again' := by
  rcases List.prefix_concat_iff.1 h with heq | hwithin
  · simpa using (List.append_inj' heq rfl).2
  · have hnodup := hnodup.sublist hwithin.sublist
    exact ((List.nodup_append.1 hnodup).2.2 again hagain again (List.mem_singleton_self again)
      rfl).elim

/-- What it comes to is one thing. -/
theorem EndsIn.unique {answer answer' : Except ResolveError (List BinaryName)}
    (h : headers.EndsIn name answer) (h' : headers.EndsIn name answer') : answer = answer' := by
  cases h with
  | root h hfound hroot =>
    -- a chain that has a last class is not circular
    have hlast := superclass_eq_none hfound hroot
    cases h' with
    | root h' hfound' hroot' =>
      rw [(h.unique hlast h' (superclass_eq_none hfound' hroot')).1]
    | circular h' _ hagain => exact (not_circular h hlast h' hagain).elim
    | missing h' hnone =>
      obtain ⟨-, rfl⟩ := h.unique hlast h' (superclass_of_missing hnone)
      exact absurd (hnone.symm.trans hfound) nofun
  | circular h hnodup hagain =>
    cases h' with
    | root h' hfound' hroot' =>
      exact (not_circular h' (superclass_eq_none hfound' hroot') h hagain).elim
    | circular h' hnodup' hagain' =>
      rcases h.comparable h' with hwithin | hwithin
      · rw [circular_within hnodup' hagain hwithin]
      · rw [circular_within hnodup hagain' hwithin]
    | missing h' hnone => exact (not_circular h' (superclass_of_missing hnone) h hagain).elim
  | missing h hnone =>
    have hlast := superclass_of_missing hnone
    cases h' with
    | root h' hfound' hroot' =>
      obtain ⟨-, rfl⟩ := h.unique hlast h' (superclass_eq_none hfound' hroot')
      exact absurd (hnone.symm.trans hfound') nofun
    | circular h' _ hagain => exact (not_circular h hlast h' hagain).elim
    | missing h' hnone' =>
      obtain ⟨-, rfl⟩ := h.unique hlast h' (superclass_of_missing hnone')
      rfl

/-- The chain of a class goes on as the way from the class that was begun with. -/
theorem Chain.endsIn_of_passed {first : BinaryName} {passed looked : List BinaryName}
    {answer : Except ResolveError (List BinaryName)} (h : headers.Chain passed name looked answer)
    (hwalk : headers.superclass.Walk first (passed.reverse ++ [name]) name)
    (hnodup : passed.Nodup) : headers.EndsIn first (answer.map (passed.reverse ++ ·)) := by
  induction h with
  | circular hagain =>
    exact .circular hwalk (List.nodup_reverse.2 hnodup) (List.mem_reverse.2 hagain)
  | missing _ hnone => exact .missing hwalk hnone
  | root _ hfound hroot => exact .root hwalk hfound hroot
  | @«extends» passed _ name parent _ answer hnew hfound hparent _ ih =>
    have hlonger := ih (by
      rw [List.reverse_cons]
      exact hwalk.snoc (superclass_eq_some hfound hparent)) (List.nodup_cons.2 ⟨hnew, hnodup⟩)
    cases answer with
    | error error => exact hlonger
    | ok chain => simpa [Except.map] using hlonger

/-- What the rules answer for a chain is what the way comes to. -/
theorem Chain.endsIn {looked : List BinaryName}
    {answer : Except ResolveError (List BinaryName)} (h : headers.Chain [] name looked answer) :
    headers.EndsIn name answer := by
  have hanswer : answer.map (([] : List BinaryName).reverse ++ ·) = answer := by
    cases answer <;> rfl
  rw [← hanswer]
  exact h.endsIn_of_passed (.stop name) List.nodup_nil

end Headers

namespace Resolver

/-- The answer to a question, without what is known afterwards. -/
def answer {α : Type} (question : Query α) (resolver : Resolver) : Except ResolveError α :=
  match question resolver with
  | .ok value _ => .ok value
  | .error error _ => .error error

/-- A question that has an answer by the rules has that answer. -/
theorem Gives.answer_eq {α : Type} {question : Query α} {resolver : Resolver}
    {looked : List BinaryName} {found : Except ResolveError α}
    (h : Gives question resolver looked found) : answer question resolver = found := by
  obtain ⟨resolver', hrun, -⟩ := h
  rw [answer, hrun]
  cases found <;> rfl

theorem superclass?_eq (resolver : Resolver) :
    resolver.superclass? = Headers.superclass resolver.header? := rfl

/-- The chain of a class is what following its superclasses comes to. -/
theorem answer_ancestorChain {resolver : Resolver} {name : BinaryName}
    {found : Except ResolveError (List BinaryName)} :
    answer (ancestorChain name) resolver = found ↔
      Headers.EndsIn resolver.header? name found := by
  obtain ⟨looked, answer, hchain, hgives⟩ := ancestorChain_gives name resolver
  rw [hgives.answer_eq]
  exact ⟨fun heq => heq ▸ hchain.endsIn, hchain.endsIn.unique⟩

end Resolver

end Preverification

import Preverification.Proofs.MergeBound
import Preverification.Proofs.Monotone
import Preverification.Proofs.Problem

/-!
# Steps of type inference

What is known in front of an operation only rises while an inference is under way, and an operation
is pending when it has risen there. A visit of an operation makes what is known behind it arrive
everywhere where control may go from there.

* `Inference.Grows`: what is known only rises.
* `Inference.Delivers`: states arrive where they go, and an operation is pending where anything
  rises.
* `AnalysisProblem.visit_cases`, `AnalysisProblem.visit_ok`: what a visit does.
* `AnalysisProblem.solve_keeps`: what every visit keeps holds at the end, where nothing is pending.
* `Body.analyze_solves`, `Body.analyze_error`: when an analysis succeeds, and why it fails.
-/

namespace Preverification

variable {superclass : Superclasses}

namespace Inference

/-- What is known in front of an operation covers a state. -/
def Receives (superclass : Superclasses) (inference : Inference) (position : Nat)
    (state : TypeState) : Prop :=
  ∃ known, inference.analysis.state? position = some known ∧ TypeState.Under superclass state known

/-- States only rise, and an operation whose state has changed is pending. -/
structure Grows (superclass : Superclasses) (old new : Inference) : Prop where
  header : new.resolver.header? = old.resolver.header?
  size : new.analysis.states.size = old.analysis.states.size
  rises : ∀ position state, old.analysis.state? position = some state →
    Receives superclass new position state
  keeps : ∀ position, position ∉ new.pending →
    new.analysis.state? position = old.analysis.state? position
  pending : ∀ position ∈ old.pending, position ∈ new.pending

/-- The resolver answers as it did at the start, and each node has a place for a state. -/
structure Sized (superclass : Superclasses) (count : Nat) (inference : Inference) : Prop where
  superclass_eq : inference.resolver.superclass? = superclass
  size_eq : inference.analysis.states.size = count

/-- Values of two slots are whole everywhere. -/
def AllPaired (inference : Inference) : Prop :=
  ∀ position state, inference.analysis.state? position = some state → Paired state.locals

/-- Only certain operations have a state. -/
def Within (allowed : Nat → Prop) (inference : Inference) : Prop :=
  ∀ position state, inference.analysis.state? position = some state → allowed position

section Grows

variable {old middle new : Inference} {position : Nat} {state : TypeState}

theorem Grows.refl (inference : Inference) : Grows superclass inference inference :=
  ⟨rfl, rfl, fun _ state h => ⟨state, h, .refl state⟩, fun _ _ => rfl, fun _ h => h⟩

/-- What was received stays covered. -/
theorem Receives.grow (h : Receives superclass old position state)
    (hg : Grows superclass old new) : Receives superclass new position state := by
  rcases h with ⟨known, hknown, hunder⟩
  rcases hg.rises position known hknown with ⟨later, hlater, hunder'⟩
  exact ⟨later, hlater, hunder.trans hunder'⟩

/-- Inferences grow step by step. -/
theorem Grows.trans (h : Grows superclass old middle) (h' : Grows superclass middle new) :
    Grows superclass old new where
  header := h'.header.trans h.header
  size := h'.size.trans h.size
  rises position state hs := (h.rises position state hs).grow h'
  keeps position hp := by
    have hp' : position ∉ middle.pending := fun hmem => hp (h'.pending position hmem)
    rw [h'.keeps position hp, h.keeps position hp']
  pending position hp := h'.pending position (h.pending position hp)

theorem Sized.grow {count : Nat} (h : Sized superclass count old)
    (hg : Grows superclass old new) : Sized superclass count new :=
  ⟨(Resolver.superclass?_congr hg.header).trans h.superclass_eq, hg.size.trans h.size_eq⟩

end Grows

/-! ## Merging states into an inference -/

/-- One number is inserted, and the others stay. -/
theorem mem_insertAscending {number other : Nat} {numbers : List Nat} :
    other ∈ insertAscending number numbers ↔ other = number ∨ other ∈ numbers := by
  induction numbers with
  | nil => simp [insertAscending]
  | cons first rest ih =>
    unfold insertAscending
    split
    · simp
    · split
      · rename_i heq
        simp [heq]
      · simp only [List.mem_cons, ih]
        exact or_left_comm

/-- Only operations have states. -/
theorem lt_size_of_state? {inference : Inference} {position : Nat} {state : TypeState}
    (h : inference.analysis.state? position = some state) :
    position < inference.analysis.states.size := by
  by_contra hge
  simp [Analysis.state?, Array.getElem?_eq_none (Nat.not_lt.1 hge)] at h

/-- A state is noted for one operation, and no other state changes. -/
theorem state?_note {inference : Inference} {noted : Nat}
    (h : noted < inference.analysis.states.size) (state : TypeState) (position : Nat) :
    (inference.note noted state).analysis.state? position =
      if position = noted then some state else inference.analysis.state? position := by
  simp only [note, Analysis.state?, Array.set!_eq_setIfInBounds, Array.getElem?_setIfInBounds]
  by_cases hp : noted = position
  · subst hp
    simp [h]
  · simp [hp, Ne.symm hp]

/-- An inference at its start: only the first operation has a state, and it is pending. -/
def start (count first : Nat) (entry : TypeState) (resolver : Resolver) : Inference :=
  note first entry ⟨⟨Array.replicate count none, 0, 0⟩, [], resolver⟩

theorem state?_replicate (count maxStack maxLocals position : Nat) :
    (Analysis.mk (Array.replicate count none) maxStack maxLocals).state? position = none := by
  unfold Analysis.state?
  rw [Array.getElem?_replicate]
  split <;> rfl

theorem size_start (count first : Nat) (entry : TypeState) (resolver : Resolver) :
    (start count first entry resolver).analysis.states.size = count := by
  simp [start, note]

/-- At the start, only the entry is known. -/
theorem state?_start {count first : Nat} (h : first < count) (entry : TypeState)
    (resolver : Resolver) (position : Nat) :
    (start count first entry resolver).analysis.state? position =
      if position = first then some entry else none := by
  unfold start
  rw [state?_note (by simpa using h), state?_replicate]

/-- Only the first operation has a state at the start. -/
theorem eq_of_state?_start {count first position : Nat} (h : first < count) {entry : TypeState}
    {resolver : Resolver} {state : TypeState}
    (hstate : (start count first entry resolver).analysis.state? position = some state) :
    position = first ∧ state = entry := by
  rw [state?_start h] at hstate
  rcases Option.ite_none_right_eq_some.1 hstate with ⟨hposition, hsame⟩
  exact ⟨hposition, (Option.some.inj hsame).symm⟩

theorem mem_pending_start (count first : Nat) (entry : TypeState) (resolver : Resolver) :
    first ∈ (start count first entry resolver).pending :=
  mem_insertAscending.2 (.inl rfl)

/-- Noting a state that covers what was known lets the inference grow. -/
theorem grows_note {inference : Inference} {noted : Nat} {state : TypeState}
    (h : noted < inference.analysis.states.size)
    (hcover : ∀ known, inference.analysis.state? noted = some known →
      TypeState.Below superclass known state) :
    Grows superclass inference (inference.note noted state) where
  header := rfl
  size := by simp [note]
  -- the noted position rises to what covers it, and others keep their states
  rises position known hknown := by
    unfold Receives
    rw [state?_note h]
    by_cases hp : position = noted
    · subst hp
      exact ⟨state, if_pos rfl, (hcover known hknown).under⟩
    · exact ⟨known, by rw [if_neg hp, hknown], .refl known⟩
  keeps position hp := by
    have hne : position ≠ noted := fun heq => hp (mem_insertAscending.2 (.inl heq))
    rw [state?_note h, if_neg hne]
  pending position hp := mem_insertAscending.2 (.inr hp)

/-- Values of two slots are whole in what is noted, so they are everywhere. -/
theorem AllPaired.note {inference : Inference} {noted : Nat} {state : TypeState}
    (h : inference.AllPaired) (hnoted : noted < inference.analysis.states.size)
    (hstate : Paired state.locals) : (inference.note noted state).AllPaired := by
  intro position found hfound
  rw [state?_note hnoted] at hfound
  split at hfound
  · cases hfound
    exact hstate
  · exact h position found hfound

/-- What merging some states into an inference does: each of them is covered where it goes, and
nothing else has changed. Values of two slots stay whole. -/
structure Delivers (superclass : Superclasses) (merges : List (Nat × TypeState))
    (old new : Inference) : Prop where
  grows : Grows superclass old new
  receives : ∀ merge ∈ merges, Receives superclass new merge.1 merge.2
  others : ∀ position, (∀ merge ∈ merges, merge.1 ≠ position) →
    new.analysis.state? position = old.analysis.state? position
  paired : old.AllPaired → (∀ merge ∈ merges, Paired merge.2.locals) → new.AllPaired

/-- Noting a state that covers what was known delivers all states that it covers. -/
theorem delivers_note {inference : Inference} {target : Nat} {incoming noted : TypeState}
    (ht : target < inference.analysis.states.size)
    (hcover : ∀ known, inference.analysis.state? target = some known →
      TypeState.Below superclass known noted)
    (hincoming : TypeState.Below superclass incoming noted)
    (hpaired : Paired incoming.locals → Paired noted.locals) :
    Delivers superclass [(target, incoming)] inference (inference.note target noted) where
  grows := grows_note ht hcover
  receives merge hmerge := by
    cases List.mem_singleton.1 hmerge
    exact ⟨noted, by rw [state?_note ht, if_pos rfl], hincoming.under⟩
  others position hp := by
    have hne : position ≠ target := Ne.symm (hp _ (List.mem_singleton_self _))
    rw [state?_note ht, if_neg hne]
  paired hp hmerges := hp.note ht (hpaired (hmerges _ (List.mem_singleton_self _)))

/-- What comes first to an operation is noted there. What comes later is merged with what is known
there, and noted if that has changed. -/
theorem mergeInto_cases {flow : Flow} {target : Nat} {incoming : TypeState} {old new : Inference}
    (h : mergeInto flow target incoming old = .ok () new) :
    (old.analysis.state? target = none ∧ new = old.note target incoming) ∨
      ∃ known merged resolver, old.analysis.state? target = some known ∧
        Merge.states known incoming old.resolver = .ok merged resolver ∧
        (merged = known ∧ new = { old with resolver } ∨
          merged ≠ known ∧ new = note target merged { old with resolver }) := by
  unfold mergeInto at h
  -- the first state is taken as it is
  cases hknown : old.analysis.state? target with
  | none =>
    simp only [hknown, EStateM.Result.ok.injEq, true_and] at h
    exact .inl ⟨rfl, h.symm⟩
  | some known =>
    simp only [hknown] at h
    cases hmerge : Merge.states known incoming old.resolver with
    | error error resolver => cases error <;> simp [hmerge] at h
    | ok merged resolver =>
      simp only [hmerge, EStateM.Result.ok.injEq, true_and] at h
      refine .inr ⟨known, merged, resolver, rfl, hmerge, ?_⟩
      split at h
      · rename_i hsame
        exact .inl ⟨hsame, h.symm⟩
      · rename_i hchanged
        exact .inr ⟨hchanged, h.symm⟩

/-- Only a merge of two states fails. What is wrong with types is wrong where they arrive. -/
theorem mergeInto_error {flow : Flow} {target : Nat} {incoming : TypeState}
    {error : AnalysisError} {old new : Inference}
    (h : mergeInto flow target incoming old = .error error new) :
    ∃ known resolver, old.analysis.state? target = some known ∧
      ((∃ cause, Merge.states known incoming old.resolver = .error (.type cause) resolver ∧
          error = .type (flow.number target) cause) ∨
        ∃ cause, Merge.states known incoming old.resolver = .error (.resolve cause) resolver ∧
          error = .resolve cause) := by
  unfold mergeInto at h
  cases hknown : old.analysis.state? target with
  | none => simp [hknown] at h
  | some known =>
    simp only [hknown] at h
    cases hmerge : Merge.states known incoming old.resolver with
    | ok merged resolver => simp [hmerge] at h
    | error found resolver =>
      refine ⟨known, resolver, rfl, ?_⟩
      cases found with
      | type cause =>
        simp only [hmerge, EStateM.Result.error.injEq] at h
        exact .inl ⟨cause, hmerge, h.1.symm⟩
      | resolve cause =>
        simp only [hmerge, EStateM.Result.error.injEq] at h
        exact .inr ⟨cause, hmerge, h.1.symm⟩

/-- A merge that succeeds delivers the state that came in. -/
theorem mergeInto_ok {flow : Flow} {target : Nat} {incoming : TypeState} {old new : Inference}
    (hsuper : old.resolver.superclass? = superclass) (ht : target < old.analysis.states.size)
    (h : mergeInto flow target incoming old = .ok () new) :
    Delivers superclass [(target, incoming)] old new := by
  rcases mergeInto_cases h with
    ⟨hnone, rfl⟩ | ⟨known, merged, resolver, hknown, hmerge, hcases⟩
  · -- what comes first is noted as it is
    refine delivers_note ht ?_ (.refl incoming) id
    intro known hk
    cases hnone.symm.trans hk
  · rcases Merge.states_answers known incoming old.resolver merged resolver hmerge with
      ⟨hheader, hpaired, hcurrent, hincoming⟩
    rw [hsuper] at hcurrent hincoming
    rcases hcases with ⟨rfl, rfl⟩ | ⟨-, rfl⟩
    · -- nothing new has come in
      refine ⟨⟨hheader, rfl, fun _ state hs => ⟨state, hs, .refl state⟩, fun _ _ => rfl,
        fun _ hp => hp⟩, ?_, fun _ _ => rfl, fun hp _ => hp⟩
      rintro merge hmem
      cases List.mem_singleton.1 hmem
      exact ⟨merged, hknown, hincoming.under⟩
    · -- more is known now, and so the operation is visited again
      have hcover : ∀ current, old.analysis.state? target = some current →
          TypeState.Below superclass current merged := by
        intro current hk
        cases hk.symm.trans hknown
        exact hcurrent
      have hdelivers : Delivers superclass [(target, incoming)] { old with resolver }
          (({ old with resolver } : Inference).note target merged) :=
        delivers_note ht hcover hincoming fun _ => hpaired
      have hgrows := hdelivers.grows
      exact ⟨⟨hheader, hgrows.size, hgrows.rises, hgrows.keeps, hgrows.pending⟩,
        hdelivers.receives, hdelivers.others, hdelivers.paired⟩

namespace Delivers

variable {merges merges' : List (Nat × TypeState)} {old middle new : Inference}

theorem nil (inference : Inference) : Delivers superclass [] inference inference :=
  ⟨.refl inference, nofun, fun _ _ => rfl, fun hp _ => hp⟩

/-- States are delivered one after the other. -/
theorem append (h : Delivers superclass merges old middle)
    (h' : Delivers superclass merges' middle new) :
    Delivers superclass (merges ++ merges') old new where
  grows := h.grows.trans h'.grows
  receives merge hmerge := by
    rcases List.mem_append.1 hmerge with hmem | hmem
    · exact (h.receives merge hmem).grow h'.grows
    · exact h'.receives merge hmem
  others position hp := by
    rw [h'.others position fun merge hmem => hp merge (List.mem_append_right _ hmem),
      h.others position fun merge hmem => hp merge (List.mem_append_left _ hmem)]
  paired hp hmerges :=
    h'.paired (h.paired hp fun merge hmem => hmerges merge (List.mem_append_left _ hmem))
      fun merge hmem => hmerges merge (List.mem_append_right _ hmem)

/-- Where states go only to operations that are allowed, nothing is known elsewhere. -/
theorem within {allowed : Nat → Prop} (h : Delivers superclass merges old new)
    (hall : ∀ merge ∈ merges, allowed merge.1) (hw : Within allowed old) : Within allowed new := by
  intro position state hs
  by_cases hp : ∃ merge ∈ merges, merge.1 = position
  · rcases hp with ⟨merge, hmem, rfl⟩
    exact hall merge hmem
  · have hother : ∀ merge ∈ merges, merge.1 ≠ position := fun merge hmem heq =>
      hp ⟨merge, hmem, heq⟩
    rw [h.others position hother] at hs
    exact hw position state hs

end Delivers

/-- Merges states into an inference, one after the other. -/
def mergeAll (flow : Flow) (merges : List (Nat × TypeState)) : Step Unit :=
  merges.forM fun merge => mergeInto flow merge.1 merge.2

theorem mergeAll_append (flow : Flow) (merges merges' : List (Nat × TypeState)) :
    mergeAll flow (merges ++ merges') = (do mergeAll flow merges; mergeAll flow merges') :=
  List.forM_append

/-- Merging the states of each element in turn merges all of them. -/
theorem forM_mergeAll {α : Type} (flow : Flow) (merges : α → List (Nat × TypeState)) (l : List α) :
    l.forM (fun a => mergeAll flow (merges a)) = mergeAll flow (l.flatMap merges) := by
  induction l with
  | nil => rfl
  | cons a l ih =>
    rw [List.flatMap_cons, mergeAll_append, ← ih]
    rfl

theorem mergeAll_singleton (flow : Flow) (target : Nat) (incoming : TypeState) :
    mergeAll flow [(target, incoming)] = mergeInto flow target incoming :=
  bind_pure_unit

/-- What is known of each merge adds up to what is known of all of them, as long as each of them
keeps what the next one needs. -/
theorem mergeAll_run {flow : Flow} {P : Inference → Prop}
    {R : List (Nat × TypeState) → Inference → Inference → Prop}
    (hnil : ∀ inference, R [] inference inference)
    (happend : ∀ {first second old middle new}, R first old middle → R second middle new →
      R (first ++ second) old new)
    {merges : List (Nat × TypeState)}
    (hmerge : ∀ merge ∈ merges, ∀ old new, P old →
      mergeInto flow merge.1 merge.2 old = .ok () new → R [merge] old new ∧ P new)
    {old new : Inference} (hold : P old) (h : mergeAll flow merges old = .ok () new) :
    R merges old new := by
  induction merges generalizing old with
  | nil =>
    cases h
    exact hnil _
  | cons merge merges ih =>
    rcases state_bind_ok.1 h with ⟨_, middle, hfirst, hrest⟩
    rcases hmerge merge List.mem_cons_self old middle hold hfirst with ⟨hhead, hmiddle⟩
    exact happend hhead
      (ih (fun other hmem => hmerge other (List.mem_cons_of_mem merge hmem)) hmiddle hrest)

/-- All states are delivered if every merge succeeds. -/
theorem mergeAll_delivers {flow : Flow} {count : Nat} {merges : List (Nat × TypeState)}
    (hmerges : ∀ merge ∈ merges, merge.1 < count) {old new : Inference}
    (hold : Sized superclass count old) (h : mergeAll flow merges old = .ok () new) :
    Delivers superclass merges old new := by
  refine mergeAll_run .nil .append (P := Sized superclass count) ?_ hold h
  intro merge hmem old new hs hmerge
  have hdelivers := mergeInto_ok hs.superclass_eq (hs.size_eq ▸ hmerges merge hmem) hmerge
  exact ⟨hdelivers, hs.grow hdelivers.grows⟩

/-- Counting slots changes no state. -/
theorem delivers_observe (state : TypeState) (inference : Inference) :
    Delivers superclass [] inference
      { inference with analysis := inference.analysis.observe state } :=
  ⟨⟨rfl, rfl, fun _ state h => ⟨state, h, .refl state⟩, fun _ _ => rfl, fun _ h => h⟩, nofun,
    fun _ _ => rfl, fun hp _ => hp⟩

end Inference

namespace AnalysisProblem

variable {problem : AnalysisProblem} {position : Nat} {before after : TypeState}

/-- What flows from an operation to the handlers around it, and to those that may come next. -/
def flows (problem : AnalysisProblem) (position : Nat) (successors : List Nat)
    (before after : TypeState) : List (Nat × TypeState) :=
  (problem.handlersAt position).flatMap (fun handler =>
      [(handler.target, before.handlerEntry handler.caught)] ++
        [(handler.target, after.handlerEntry handler.caught)]) ++
    successors.flatMap fun successor => [(successor, after)]

/-- What flows from an operation arrives at handlers and at operations that may come next. -/
theorem forall_mem_flows {P : Nat → Prop} {successors : List Nat}
    (hhandlers : ∀ handler ∈ problem.handlersAt position, P handler.target)
    (hsuccessors : ∀ successor ∈ successors, P successor) :
    ∀ merge ∈ problem.flows position successors before after, P merge.1 := by
  intro merge hmem
  rcases List.mem_append.1 hmem with hmem | hmem
  · rcases List.mem_flatMap.1 hmem with ⟨handler, hhandler, hmem⟩
    rcases List.mem_pair.1 hmem with rfl | rfl
    · exact hhandlers handler hhandler
    · exact hhandlers handler hhandler
  · rcases List.mem_flatMap.1 hmem with ⟨successor, hsuccessor, hmem⟩
    cases List.mem_singleton.1 hmem
    exact hsuccessors successor hsuccessor

/-- What flows from an operation is merged handler by handler first, and then at the operations that
may come next. -/
theorem mergeAll_flows (problem : AnalysisProblem) (position : Nat) (successors : List Nat)
    (before after : TypeState) :
    Inference.mergeAll problem.flow (problem.flows position successors before after) = (do
      (problem.handlersAt position).forM fun handler => do
        Inference.mergeInto problem.flow handler.target (before.handlerEntry handler.caught)
        Inference.mergeInto problem.flow handler.target (after.handlerEntry handler.caught)
      successors.forM fun successor => Inference.mergeInto problem.flow successor after) := by
  unfold flows
  rw [Inference.mergeAll_append, ← Inference.forM_mergeAll, ← Inference.forM_mergeAll]
  simp only [Inference.mergeAll_append, Inference.mergeAll_singleton]

/-- A visit of an operation of which something is known counts slots, and merges what flows from the
operation. Where there is no operation, or where nothing is known, it does nothing. -/
theorem visit_cases {old new : Inference} (h : problem.visit position old = .ok () new) :
    (∃ before operation after successors, old.analysis.state? position = some before ∧
      problem.flow.nodes[position]? = some (.operation operation) ∧
      problem.execute position operation before = .ok after ∧
      problem.successors position operation = .ok successors ∧
      Inference.mergeAll problem.flow (problem.flows position successors before after)
        { old with analysis := (old.analysis.observe before).observe after } = .ok () new) ∨
    ((∀ before operation, old.analysis.state? position = some before →
        problem.flow.nodes[position]? ≠ some (.operation operation)) ∧ new = old) := by
  unfold visit at h
  rcases state_bind_ok.1 h with ⟨_, _, ⟨⟩, h⟩
  cases hbefore : old.analysis.state? position with
  | none =>
    simp only [hbefore] at h
    exact .inr ⟨nofun, (state_pure_ok.1 h).2.symm⟩
  | some before =>
    rcases ho : problem.flow.nodes[position]? with _ | _ | _ | operation
    case some.operation =>
      simp only [hbefore, ho] at h
      rcases state_bind_ok.1 h with ⟨_, _, ⟨⟩, h⟩
      rcases state_bind_ok.1 h with ⟨after, _, hcheck, h⟩
      rcases ofExcept_ok.1 hcheck with ⟨hafter, rfl⟩
      rcases state_bind_ok.1 h with ⟨successors, _, hcheck', h⟩
      rcases ofExcept_ok.1 hcheck' with ⟨hsuccessors, rfl⟩
      rcases state_bind_ok.1 h with ⟨_, _, ⟨⟩, hmerges⟩
      refine .inl ⟨before, operation, after, successors, rfl, rfl, hafter, hsuccessors, ?_⟩
      rw [mergeAll_flows]
      exact hmerges
    -- only an operation is visited
    all_goals
      simp only [hbefore, ho] at h
      exact .inr ⟨fun _ _ _ => nofun, (state_pure_ok.1 h).2.symm⟩

/-- Where nothing is known, a visit does nothing. -/
theorem visit_of_none {old new : Inference}
    (hbefore : old.analysis.state? position = none)
    (h : problem.visit position old = .ok () new) : new = old := by
  rcases visit_cases h with ⟨_, _, _, _, hknown, _⟩ | ⟨_, hsame⟩
  · cases hbefore.symm.trans hknown
  · exact hsame

/-- A visit does nothing else, so that it succeeds where all that does. -/
theorem visit_of_merges (operation : Operation Label) (before after : TypeState)
    (successors : List Nat) {old new : Inference}
    (hbefore : old.analysis.state? position = some before)
    (ho : problem.flow.nodes[position]? = some (.operation operation))
    (hafter : problem.execute position operation before = .ok after)
    (hsuccessors : problem.successors position operation = .ok successors)
    (hmerges : Inference.mergeAll problem.flow (problem.flows position successors before after)
      { old with analysis := (old.analysis.observe before).observe after } = .ok () new) :
    problem.visit position old = .ok () new := by
  rw [mergeAll_flows] at hmerges
  unfold visit
  refine state_bind_ok.2 ⟨_, _, rfl, ?_⟩
  simp only [hbefore, ho]
  refine state_bind_ok.2 ⟨_, _, rfl, ?_⟩
  refine state_bind_ok.2 ⟨_, _, ofExcept_ok.2 ⟨hafter, rfl⟩, ?_⟩
  refine state_bind_ok.2 ⟨_, _, ofExcept_ok.2 ⟨hsuccessors, rfl⟩, ?_⟩
  exact state_bind_ok.2 ⟨_, _, rfl, hmerges⟩

/-- A visit that succeeds runs the operation, and merges what is known behind it everywhere where
control may go. -/
theorem visit_ok {operation : Operation Label} {old new : Inference} {count : Nat}
    (hsized : Inference.Sized superclass count old)
    (hbefore : old.analysis.state? position = some before)
    (ho : problem.flow.nodes[position]? = some (.operation operation))
    (hhandlers : ∀ handler ∈ problem.handlersAt position, handler.target < count)
    (hsuccessors : ∀ successors, problem.successors position operation = .ok successors →
      ∀ successor ∈ successors, successor < count)
    (h : problem.visit position old = .ok () new) :
    ∃ after successors, problem.execute position operation before = .ok after ∧
      problem.successors position operation = .ok successors ∧
      Inference.Delivers superclass (problem.flows position successors before after) old new := by
  rcases visit_cases h with
    ⟨_, _, after, successors, hbefore', ho', hafter, hs, hmerges⟩ | ⟨hnone, -⟩
  · cases hbefore.symm.trans hbefore'
    cases ho.symm.trans ho'
    have hobserve : Inference.Delivers superclass [] old
        { old with analysis := (old.analysis.observe before).observe after } :=
      (Inference.delivers_observe before old).append (Inference.delivers_observe after _)
    have hdelivers := Inference.mergeAll_delivers (forall_mem_flows hhandlers (hsuccessors _ hs))
      (hsized.grow hobserve.grows) hmerges
    exact ⟨after, successors, hafter, hs, hobserve.append hdelivers⟩
  · exact absurd ho (hnone before operation hbefore)

/-- The first pending operation is visited, and then the others. -/
theorem solve_cons {old : Inference} {pending : List Nat}
    (hpending : old.pending = position :: pending) (visits : Nat) : problem.solve (visits + 1) old =
      (problem.visit position >>= fun _ => problem.solve visits) { old with pending } := by
  rcases old with ⟨analysis, waiting, resolver⟩
  cases hpending
  rfl

/-- An inference with a pending operation goes on from a visit of it. -/
theorem solve_of_visit {old new : Inference} (middle : Inference) {pending : List Nat}
    {visits : Nat}
    (hpending : old.pending = position :: pending)
    (hvisit : problem.visit position { old with pending } = .ok () middle)
    (hrest : problem.solve visits middle = .ok () new) :
    problem.solve (visits + 1) old = .ok () new := by
  rw [solve_cons hpending]
  exact state_bind_ok.2 ⟨(), middle, hvisit, hrest⟩

/-- An inference in which nothing is pending ends. -/
theorem solve_done {old : Inference} (hpending : old.pending = []) (visits : Nat) :
    problem.solve visits old = .ok () old := by
  cases visits with
  | zero | succ visits =>
    unfold solve
    refine state_bind_ok.2 ⟨_, _, rfl, ?_⟩
    simp only [hpending]
    rfl

/-- An inference in which something is pending cannot end without a visit. -/
theorem solve_zero_of_cons {old : Inference} {pending : List Nat}
    (hpending : old.pending = position :: pending) :
    problem.solve 0 old = .error .divergent old := by
  rcases old with ⟨analysis, waiting, resolver⟩
  cases hpending
  rfl

/-- What every visit keeps holds at the end of an inference, where nothing is pending. -/
theorem solve_keeps {I : Inference → Prop}
    (hvisit : ∀ {position : Nat} {pending : List Nat} {old new : Inference},
      old.pending = position :: pending → I old →
      problem.visit position { old with pending } = .ok () new → I new)
    {old new : Inference} (hold : I old) (visits : Nat)
    (h : problem.solve visits old = .ok () new) : I new ∧ new.pending = [] := by
  -- one more visit is a step in front of those that are left
  induction visits generalizing old with
  | zero =>
    cases hpending : old.pending with
    | nil =>
      cases (solve_done hpending 0).symm.trans h
      exact ⟨hold, hpending⟩
    | cons position pending => cases (solve_zero_of_cons hpending).symm.trans h
  | succ visits ih =>
    cases hpending : old.pending with
    | nil =>
      cases (solve_done hpending _).symm.trans h
      exact ⟨hold, hpending⟩
    | cons position pending =>
      rw [solve_cons hpending] at h
      obtain ⟨_, middle, hfirst, hrest⟩ := state_bind_ok.1 h
      exact ih (hvisit hpending hold hfirst) hrest

end AnalysisProblem

namespace Body

variable {body : Body} {context : MethodContext} {entry : TypeState}
  {resolver resolver' : Resolver} {analysis : Analysis}

/-- Each operation may be visited once at least. -/
theorem length_le_visitBound (body : Body) (entry : TypeState) (pool : Pool)
    (resolver : Resolver) : body.nodes.length ≤ body.visitBound entry pool resolver :=
  Nat.le_mul_of_pos_right _ (by omega)

/-- An analysis succeeds if as many visits as there are nodes are enough for the inference. -/
theorem analyze_of_solve {problem : AnalysisProblem} {first : Nat} (inference : Inference)
    (hproblem : AnalysisProblem.ofBody body context = .ok problem)
    (hfirst : problem.flow.operationFrom 0 = some first)
    (hsolve : ∀ visits, body.nodes.length ≤ visits →
      problem.solve visits (.start body.nodes.length first entry resolver) = .ok () inference) :
    body.analyze entry context resolver = .ok inference.analysis inference.resolver := by
  have hsolved := hsolve (body.visitBound entry context.constants resolver)
    (length_le_visitBound ..)
  unfold Inference.start at hsolved
  unfold analyze
  simp only [hproblem, hfirst, hsolved]

/-- An analysis that succeeds has solved the problem that the body poses, from where only the entry
is known. -/
theorem analyze_solves (h : body.analyze entry context resolver = .ok analysis resolver') :
    ∃ problem first inference, AnalysisProblem.ofBody body context = .ok problem ∧
      Arrives body.nodes 0 first ∧ inference.analysis = analysis ∧
      inference.resolver = resolver' ∧
      problem.solve (body.visitBound entry context.constants resolver)
        (.start body.nodes.length first entry resolver) = .ok () inference := by
  unfold analyze at h
  cases hproblem : AnalysisProblem.ofBody body context with
  | error error => simp [hproblem] at h
  | ok problem =>
    have hp := AnalysisProblem.ofBody_ok hproblem
    cases hfirst : problem.flow.operationFrom 0 with
    | none => simp [hproblem, hfirst] at h
    | some first =>
      simp only [hproblem, hfirst] at h
      split at h
      · rename_i inference hsolve
        cases h
        exact ⟨problem, first, inference, rfl, (hp.flow.operationFrom_eq 0 first).1 hfirst, rfl,
          rfl, hsolve⟩
      · cases h

/-- An analysis fails if the body poses no problem, if there is no operation to start with, or if
the inference fails. -/
theorem analyze_error {error : AnalysisError}
    (h : body.analyze entry context resolver = .error error resolver') :
    AnalysisProblem.ofBody body context = .error error ∨
      ∃ problem, AnalysisProblem.ofBody body context = .ok problem ∧
        (error = problem.failure 0 .fallsOffEnd ∨
          ∃ first inference, problem.flow.operationFrom 0 = some first ∧
            problem.solve (body.visitBound entry context.constants resolver)
              (.start body.nodes.length first entry resolver) = .error error inference) := by
  unfold analyze at h
  -- by the stage at which it fails
  cases hproblem : AnalysisProblem.ofBody body context with
  | error found =>
    simp only [hproblem] at h
    cases h
    exact .inl rfl
  | ok problem =>
    refine .inr ⟨problem, rfl, ?_⟩
    cases hfirst : problem.flow.operationFrom 0 with
    | none =>
      simp only [hproblem, hfirst] at h
      cases h
      exact .inl rfl
    | some first =>
      simp only [hproblem, hfirst] at h
      split at h
      · cases h
      · rename_i found inference hsolve
        cases h
        exact .inr ⟨first, inference, rfl, hsolve⟩

end Body

end Preverification

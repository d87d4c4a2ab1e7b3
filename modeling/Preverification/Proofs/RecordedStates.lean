import Preverification.Proofs.Coverage

/-!
# What is recorded while types are inferred

Type inference records what is known in front of an operation. What holds of the state at the entry,
and is kept by operations, handlers and merges, holds of all that is recorded. Each state that is
recorded at the end was counted when its operation was visited for the last time, and so was what is
known behind the operation.

* `TypeState.Invariant`: what is kept by operations, handlers and merges.
* `AnalysisProblem.visit_absorbs`: what one visit does to all that was recorded.
* `Body.analyze_records`: an invariant holds of all that is recorded.
* `Body.analyze_measures`: the numbers of slots are enough for all of that.
-/

namespace Preverification

/-- Something that holds of states is kept by operations, handlers and merges. -/
structure TypeState.Invariant (context : MethodContext) (I : TypeState → Prop) : Prop where
  behind : ∀ (allocation : Option Label) (operation : Operation Label) (before after : TypeState),
    I before → Transfer.operation context allocation operation before = .ok () after → I after
  caught : ∀ (state : TypeState) (type : InferredType), I state → I (state.handlerEntry type)
  merged : ∀ (first second common : TypeState) (resolver resolver' : Resolver), I first → I second →
    Merge.states first second resolver = .ok common resolver' → I common

/-- The numbers of slots of an analysis are enough for a state. -/
structure Analysis.Measures (analysis : Analysis) (state : TypeState) : Prop where
  stack : state.stack.height ≤ analysis.maxStack
  locals : state.usedLocals ≤ analysis.maxLocals

namespace Analysis

/-- States that are observed are counted. -/
theorem measures_observe (analysis : Analysis) (before after : TypeState) :
    ((analysis.observe before).observe after).Measures before ∧
      ((analysis.observe before).observe after).Measures after := by
  refine ⟨⟨?_, ?_⟩, ⟨Nat.le_max_right _ _, Nat.le_max_right _ _⟩⟩
  · exact Nat.le_trans (Nat.le_max_right _ _) (Nat.le_max_left _ _)
  · exact Nat.le_trans (Nat.le_max_right _ _) (Nat.le_max_left _ _)

/-- What was counted before stays counted. -/
theorem Measures.observe {analysis : Analysis} {state : TypeState}
    (h : analysis.Measures state) (before after : TypeState) :
    ((analysis.observe before).observe after).Measures state := by
  refine ⟨Nat.le_trans h.stack ?_, Nat.le_trans h.locals ?_⟩
  · exact Nat.le_trans (Nat.le_max_left _ _) (Nat.le_max_left _ _)
  · exact Nat.le_trans (Nat.le_max_left _ _) (Nat.le_max_left _ _)

end Analysis

namespace Inference

variable {I : TypeState → Prop} {old middle new : Inference}

/-- Something holds of all states that are recorded. -/
def Records (I : TypeState → Prop) (inference : Inference) : Prop :=
  ∀ position state, inference.analysis.state? position = some state → I state

/-- What merging states does to an inference: the numbers of slots stay, and so do the states of
operations that are not pending. -/
structure Absorbs (I : TypeState → Prop) (old new : Inference) : Prop where
  maxStack : new.analysis.maxStack = old.analysis.maxStack
  maxLocals : new.analysis.maxLocals = old.analysis.maxLocals
  keeps : ∀ position, position ∉ new.pending →
    new.analysis.state? position = old.analysis.state? position
  pending : ∀ position ∈ old.pending, position ∈ new.pending
  records : old.Records I → new.Records I

theorem Absorbs.refl (inference : Inference) : Absorbs I inference inference :=
  ⟨rfl, rfl, fun _ _ => rfl, fun _ h => h, id⟩

/-- What was absorbed in two parts was absorbed. -/
theorem Absorbs.trans (h : Absorbs I old middle) (h' : Absorbs I middle new) :
    Absorbs I old new where
  maxStack := h'.maxStack.trans h.maxStack
  maxLocals := h'.maxLocals.trans h.maxLocals
  keeps position hnot := by
    rw [h'.keeps position hnot]
    exact h.keeps position fun hmem => hnot (h'.pending position hmem)
  pending position hmem := h'.pending position (h.pending position hmem)
  records hall := h'.records (h.records hall)

theorem Absorbs.measures {state : TypeState} (h : Absorbs I old new)
    (hm : old.analysis.Measures state) : new.analysis.Measures state :=
  ⟨h.maxStack ▸ hm.stack, h.maxLocals ▸ hm.locals⟩

/-- Where a state is noted, it is recorded if there is a place for it. -/
theorem state?_note_cases (inference : Inference) (noted : Nat) (state : TypeState)
    (position : Nat) : (position = noted ∧
        (inference.note noted state).analysis.state? position = some state) ∨
      (inference.note noted state).analysis.state? position =
        inference.analysis.state? position := by
  by_cases hlt : noted < inference.analysis.states.size
  · rw [state?_note hlt]
    by_cases hp : position = noted
    · exact .inl ⟨hp, if_pos hp⟩
    · exact .inr (if_neg hp)
  · right
    simp only [note, Analysis.state?, Array.set!_eq_setIfInBounds]
    rw [Array.setIfInBounds_eq_of_size_le (Nat.le_of_not_lt hlt)]

/-- One state is noted, of which the invariant holds. -/
theorem absorbs_note (inference : Inference) (noted : Nat) {state : TypeState} (hstate : I state) :
    Absorbs I inference (inference.note noted state) where
  maxStack := rfl
  maxLocals := rfl
  keeps position hnot := by
    rcases inference.state?_note_cases noted state position with ⟨rfl, _⟩ | hsame
    · exact absurd (mem_insertAscending.2 (.inl rfl)) hnot
    · exact hsame
  pending position hmem := mem_insertAscending.2 (.inr hmem)
  records hall position found hfound := by
    rcases inference.state?_note_cases noted state position with ⟨_, hnoted⟩ | hsame
    · rw [hnoted] at hfound
      cases hfound
      exact hstate
    · exact hall position found (hsame.symm.trans hfound)

/-- What is merged into a state is noted as the result of a merge, or was known before. -/
theorem absorbs_mergeInto {context : MethodContext} (hI : TypeState.Invariant context I)
    {flow : Flow} {target : Nat} {incoming : TypeState} (hincoming : I incoming)
    (hold : old.Records I) (h : mergeInto flow target incoming old = .ok () new) :
    Absorbs I old new := by
  rcases mergeInto_cases h with ⟨-, rfl⟩ | ⟨known, merged, resolver, hknown, hmerge, hcases⟩
  · exact absorbs_note old target hincoming
  · have hmerged : I merged := hI.merged _ _ _ _ _ (hold target known hknown) hincoming hmerge
    -- what was asked about classes is all that has changed at first
    have hasked : Absorbs I old { old with resolver } :=
      ⟨rfl, rfl, fun _ _ => rfl, fun _ hmem => hmem, id⟩
    rcases hcases with ⟨-, rfl⟩ | ⟨-, rfl⟩
    · exact hasked
    · exact hasked.trans (absorbs_note { old with resolver } target hmerged)

/-- States are merged one after the other. -/
theorem absorbs_mergeAll {context : MethodContext} (hI : TypeState.Invariant context I)
    {flow : Flow} {merges : List (Nat × TypeState)} (hmerges : ∀ merge ∈ merges, I merge.2)
    (hold : old.Records I) (h : mergeAll flow merges old = .ok () new) : Absorbs I old new := by
  refine mergeAll_run (P := Records I) (R := fun _ => Absorbs I) .refl .trans ?_ hold h
  intro merge hmem start stop hstart hmerge
  have habsorbs := absorbs_mergeInto hI (hmerges merge hmem) hstart hmerge
  exact ⟨habsorbs, habsorbs.records hstart⟩

end Inference

namespace AnalysisProblem

variable {problem : AnalysisProblem} {I : TypeState → Prop} {old new : Inference}
  {position : Nat}

/-- An operation keeps an invariant. -/
theorem execute_keeps (hI : TypeState.Invariant problem.context I) {operation : Operation Label}
    {before after : TypeState} (hbefore : I before)
    (h : problem.execute position operation before = .ok after) : I after := by
  unfold execute at h
  split at h
  · rename_i found hrun
    cases h
    exact hI.behind _ _ _ _ hbefore hrun
  · cases h

/-- What holds in front of an operation and behind it holds of all that flows from the operation. -/
theorem flows_keeps (hI : TypeState.Invariant problem.context I) {successors : List Nat}
    {before after : TypeState} (hbefore : I before) (hafter : I after) :
    ∀ merge ∈ problem.flows position successors before after, I merge.2 := by
  intro merge hmem
  rcases List.mem_append.1 hmem with hmem | hmem
  · rcases List.mem_flatMap.1 hmem with ⟨handler, _, hmem⟩
    rcases List.mem_pair.1 hmem with rfl | rfl
    · exact hI.caught before _ hbefore
    · exact hI.caught after _ hafter
  · rcases List.mem_flatMap.1 hmem with ⟨successor, _, hmem⟩
    cases List.mem_singleton.1 hmem
    exact hafter

/-- A visit counts the state in front of an operation and the state behind it, and merges them
elsewhere. Where there is no operation, or where nothing is known, it does nothing. -/
theorem visit_absorbs (hI : TypeState.Invariant problem.context I) (hold : old.Records I)
    (h : problem.visit position old = .ok () new) :
    (∃ before operation after, old.analysis.state? position = some before ∧
      problem.flow.nodes[position]? = some (.operation operation) ∧
      problem.execute position operation before = .ok after ∧
      Inference.Absorbs I { old with analysis := (old.analysis.observe before).observe after } new) ∨
    ((∀ before operation, old.analysis.state? position = some before →
        problem.flow.nodes[position]? ≠ some (.operation operation)) ∧ new = old) := by
  rcases visit_cases h with
    ⟨before, operation, after, successors, hbefore, hnode, hafter, -, hmerges⟩ | hnothing
  · have hIbefore : I before := hold position before hbefore
    have hIafter : I after := execute_keeps hI hIbefore hafter
    exact .inl ⟨before, operation, after, hbefore, hnode, hafter,
      Inference.absorbs_mergeAll hI (flows_keeps hI hIbefore hIafter) hold hmerges⟩
  · exact .inr hnothing

/-- What an inference has counted: each state that will not be visited again, with what is known
behind its operation, and the state at the entry once it was visited. -/
structure Counts (problem : AnalysisProblem) (first : Nat) (entry : TypeState)
    (inference : Inference) : Prop where
  settled : ∀ position before operation, inference.analysis.state? position = some before →
    position ∉ inference.pending → problem.flow.nodes[position]? = some (.operation operation) →
      inference.analysis.Measures before ∧ ∃ after,
        problem.execute position operation before = .ok after ∧ inference.analysis.Measures after
  entry : inference.pending = [first] ∧ inference.analysis.state? first = some entry ∨
    inference.analysis.Measures entry

theorem invariant_true (context : MethodContext) :
    TypeState.Invariant context fun _ => True :=
  ⟨fun _ _ _ _ _ _ => trivial, fun _ _ _ => trivial, fun _ _ _ _ _ _ _ _ => trivial⟩

/-- A visit counts the operation that was pending. What was counted before stays counted. -/
theorem visit_counts {first : Nat} {entry : TypeState} {pending : List Nat}
    (hfirst : ∃ operation, problem.flow.nodes[first]? = some (.operation operation))
    (hpending : old.pending = position :: pending) (hold : problem.Counts first entry old)
    (h : problem.visit position { old with pending } = .ok () new) :
    problem.Counts first entry new := by
  rcases visit_absorbs (invariant_true _) (fun _ _ _ => trivial) h with
    ⟨before, operation, after, hbefore, hnode, hafter, habsorbs⟩ | ⟨hnone, rfl⟩
  · have hmeasured := old.analysis.measures_observe before after
    constructor
    · intro other state found hstate hnot hfound
      rw [habsorbs.keeps other hnot] at hstate
      by_cases hother : other = position
      · -- the operation that was visited
        subst hother
        cases hstate.symm.trans hbefore
        cases hfound.symm.trans hnode
        exact ⟨habsorbs.measures hmeasured.1, after, hafter, habsorbs.measures hmeasured.2⟩
      · have hnot' : other ∉ old.pending := by
          rw [hpending, List.mem_cons, not_or]
          exact ⟨hother, fun hmem => hnot (habsorbs.pending other hmem)⟩
        rcases hold.settled other state found hstate hnot' hfound with ⟨hm, behind, hrun, hm'⟩
        exact ⟨habsorbs.measures (hm.observe before after), behind, hrun,
          habsorbs.measures (hm'.observe before after)⟩
    · right
      rcases hold.entry with ⟨hlist, hentry⟩ | hm
      · -- the first visit
        cases hpending.symm.trans hlist
        cases hbefore.symm.trans hentry
        exact habsorbs.measures hmeasured.1
      · exact habsorbs.measures (hm.observe before after)
  · constructor
    · intro other state found hstate hnot hfound
      have hnot' : other ∉ old.pending := by
        rw [hpending, List.mem_cons, not_or]
        refine ⟨?_, hnot⟩
        rintro rfl
        exact hnone state found hstate hfound
      exact hold.settled other state found hstate hnot' hfound
    · rcases hold.entry with ⟨hlist, hentry⟩ | hm
      · cases hpending.symm.trans hlist
        rcases hfirst with ⟨operation, hnode⟩
        exact absurd hnode (hnone entry operation hentry)
      · exact .inr hm

/-- What holds at the entry, and is kept by steps, is kept by a visit. -/
theorem visit_records (hI : TypeState.Invariant problem.context I) {pending : List Nat}
    (hold : old.Records I) (h : problem.visit position { old with pending } = .ok () new) :
    new.Records I := by
  have hpending : Inference.Records I { old with pending } := hold
  rcases visit_absorbs hI hpending h with
    ⟨_, _, _, _, _, _, habsorbs⟩ | ⟨_, rfl⟩
  · exact habsorbs.records hold
  · exact hold

end AnalysisProblem

namespace Body

variable {body : Body} {context : MethodContext} {entry : TypeState} {resolver resolver' : Resolver}
  {analysis : Analysis}

/-- What holds at the entry, and is kept by operations, handlers and merges, holds of all that an
analysis has recorded. -/
theorem analyze_records {I : TypeState → Prop} (hI : TypeState.Invariant context I)
    (hentry : I entry) (h : body.analyze entry context resolver = .ok analysis resolver')
    {position : Nat} {state : TypeState} (hstate : analysis.state? position = some state) :
    I state := by
  rcases analyze_solves h with ⟨problem, first, inference, hproblem, hfirst, rfl, -, hsolve⟩
  have hstart : Inference.Records I (.start body.nodes.length first entry resolver) := by
    intro other found hfound
    obtain ⟨-, rfl⟩ := Inference.eq_of_state?_start hfirst.lt_length hfound
    exact hentry
  have hI' : TypeState.Invariant problem.context I :=
    (AnalysisProblem.ofBody_ok hproblem).context_eq ▸ hI
  exact (AnalysisProblem.solve_keeps (fun _ => AnalysisProblem.visit_records hI') hstart _
    hsolve).1 position state hstate

/-- The numbers of slots of an analysis are enough for the entry, and for what is known in front of
each operation that can be reached and behind it. -/
theorem analyze_measures (h : body.analyze entry context resolver = .ok analysis resolver') :
    analysis.Measures entry ∧ ∀ position before, analysis.state? position = some before →
      analysis.Measures before ∧ ∃ after,
        typesBehind context body.nodes position before = .ok after ∧ analysis.Measures after := by
  rcases analyze_solves h with ⟨problem, first, inference, hproblem, hfirst, rfl, -, hsolve⟩
  have hp := AnalysisProblem.ofBody_ok hproblem
  have hfirst' : ∃ operation, problem.flow.nodes[first]? = some (.operation operation) := by
    rw [hp.nodes_eq]
    exact hfirst.operation
  have hstart : problem.Counts first entry (.start body.nodes.length first entry resolver) := by
    constructor
    · intro other found operation hfound hnot
      obtain ⟨rfl, -⟩ := Inference.eq_of_state?_start hfirst.lt_length hfound
      exact absurd (Inference.mem_pending_start ..) hnot
    · left
      rw [Inference.state?_start hfirst.lt_length, if_pos rfl]
      exact ⟨rfl, rfl⟩
  rcases AnalysisProblem.solve_keeps (AnalysisProblem.visit_counts hfirst') hstart _ hsolve
    with ⟨hcounts, hdone⟩
  rcases analyze_ok h with ⟨_, _, covered, _, hstarts, hsame, _, hcovers⟩
  constructor
  · rcases hcounts.entry with ⟨hlist, _⟩ | hm
    · rw [hdone] at hlist
      cases hlist
    · exact hm
  · intro position before hbefore
    -- only operations have a state
    rw [← hsame] at hbefore
    rcases hcovers.reached position before hbefore with ⟨steps, hpath⟩
    rcases hpath.operation hstarts.operation with ⟨operation, ho⟩
    rw [hsame] at hbefore
    rcases hcounts.settled position before operation hbefore (by simp [hdone])
      ((hp.nodes_eq position).trans ho) with ⟨hm, after, hafter, hm'⟩
    exact ⟨hm, after, (hp.execute_ok ho).1 hafter, hm'⟩

end Body

end Preverification

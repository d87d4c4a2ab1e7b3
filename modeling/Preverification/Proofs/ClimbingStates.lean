import Mathlib.Data.Prod.Lex
import Preverification.Proofs.Convergence
import Preverification.Proofs.Coverage

/-!
# States climb in a well-founded order

States cannot climb for ever, whatever null becomes on the way. There are finitely many slots, so
that null can only be lost finitely often, and as long as no more of it is lost the rank of a state
becomes lower each time.

So the loop over the pending operations ends after finitely many visits. An operation is pending
again only if its state has climbed.

* `TypeState.Climbs.lex_lt`: when a state climbs, null is lost, or the rank becomes lower.
* `TypeState.wellFounded_climbs`: a state does not climb for ever.
* `Body.analyze_climbs`: type inference comes to an end, because states only climb.
-/

namespace Preverification

/-! ## The order is well-founded -/

section Nulls

variable {headers : Headers} {old new : List InferredType} {room : Nat}

/-- Whether null is in a slot, as a number. -/
def nullAt (types : List InferredType) (slot : Nat) : Nat :=
  if localAt types slot = .null then 1 else 0

/-- The number of slots with null. -/
def nulls (room : Nat) (types : List InferredType) : Nat :=
  ∑ slot ∈ Finset.range room, nullAt types slot

/-- Where null is known after slots were raised, it was so before. -/
theorem Raises.null_before (h : Raises headers old new) {slot : Nat}
    (hnew : localAt new slot = .null) : localAt old slot = .null := by
  rcases Nat.lt_or_ge slot old.length with hlt | hle
  · rcases h.climbs slot hlt with heq | hclimbs
    · exact heq.symm.trans hnew
    · exact absurd hnew hclimbs.ne_null
  · rw [h.added slot hle] at hnew
    cases hnew

theorem Raises.nullAt_le (h : Raises headers old new) (slot : Nat) :
    nullAt new slot ≤ nullAt old slot := by
  unfold nullAt
  by_cases hnew : localAt new slot = .null
  · rw [if_pos hnew, if_pos (h.null_before hnew)]
  · rw [if_neg hnew]
    exact Nat.zero_le _

/-- Raising slots loses null in one of them, or in none. -/
theorem Raises.nulls_lt_or (h : Raises headers old new) (hroom : new.length ≤ room) :
    nulls room new < nulls room old ∨
      nulls room new = nulls room old ∧
        ∀ slot, localAt old slot = .null → localAt new slot = .null := by
  by_cases hstays : ∀ slot, localAt old slot = .null → localAt new slot = .null
  · refine .inr ⟨Finset.sum_congr rfl fun slot _ => ?_, hstays⟩
    have hiff : localAt new slot = .null ↔ localAt old slot = .null :=
      ⟨h.null_before, hstays slot⟩
    simp only [nullAt, hiff]
  · obtain ⟨slot, hlost⟩ := not_forall.1 hstays
    obtain ⟨hold, hnew⟩ := Classical.not_imp.1 hlost
    -- null is lost in one of the slots that were there before
    have hlt : slot < old.length := by
      by_contra hge
      rw [localAt_of_le (Nat.not_lt.1 hge)] at hold
      cases hold
    have hless : nullAt new slot < nullAt old slot := by
      unfold nullAt
      rw [if_neg hnew, if_pos hold]
      exact Nat.one_pos
    have hmem : slot ∈ Finset.range room :=
      Finset.mem_range.2 (Nat.lt_of_lt_of_le hlt (Nat.le_trans h.length_le hroom))
    exact .inl (Finset.sum_lt_sum (fun other _ => h.nullAt_le other) ⟨slot, hmem, hless⟩)

end Nulls

namespace TypeState

/-- The number of slots and values with null. -/
def nulls (room : Nat) (state : TypeState) : Nat :=
  Preverification.nulls room state.locals +
    Preverification.nulls state.stack.size state.stack.values

/-- When a state climbs, null is lost, or the rank becomes lower. -/
theorem Climbs.lex_lt {scale : Scale} {room : Nat} {old new : TypeState}
    (h : old.Climbs scale.headers room new) :
    Prod.Lex (· < ·) (· < ·) (new.nulls room, scale.stateRank room new.stack.size new)
      (old.nulls room, scale.stateRank room old.stack.size old) := by
  have hstackRoom : new.stack.values.length ≤ old.stack.size := by
    rw [← OperandStack.size_eq, h.size]
  unfold nulls
  rw [h.size]
  rcases h.locals.nulls_lt_or h.room with hlt | ⟨hlocals, hstays⟩
  · refine .left _ _ (Nat.add_lt_add_of_lt_of_le hlt ?_)
    exact Finset.sum_le_sum fun slot _ => h.stack.nullAt_le slot
  · rcases h.stack.nulls_lt_or hstackRoom with hlt | ⟨hstack, hstays'⟩
    · rw [hlocals]
      exact .left _ _ (Nat.add_lt_add_left hlt _)
    · -- null stays wherever it is
      rw [hlocals, hstack]
      refine .right _ (Scale.stateRank_lt_of_climbs h (Nat.le_refl _) ?_ ?_)
      · exact fun slot hold hnew => absurd (hstays slot hold) hnew
      · exact fun slot hold hnew => absurd (hstays' slot hold) hnew

/-- A state does not climb for ever. -/
theorem wellFounded_climbs {headers : Headers} {classes : Nat}
    (hroot : (headers .object).bind (·.superclass) = none) (hclasses : headers.AtMost classes)
    (room : Nat) :
    WellFounded fun later earlier : TypeState => earlier.Climbs headers room later := by
  -- neither the dimensions of null nor those of the objects it becomes matter
  let scale : Scale := ⟨headers, classes, 0, hroot, hclasses⟩
  have hlex : WellFounded (Prod.Lex (fun a b : Nat => a < b) (fun a b : Nat => a < b)) :=
    (Prod.lex Nat.lt_wfRel Nat.lt_wfRel).wf
  refine Subrelation.wf (fun {later earlier} h => ?_) (InvImage.wf (fun state : TypeState =>
    (state.nulls room, scale.stateRank room state.stack.size state)) hlex)
  exact Climbs.lex_lt (show earlier.Climbs scale.headers room later from h)

end TypeState

/-! ## Merges and visits -/

/-- The types of a list have some number of dimensions at most. -/
theorem exists_dimensionsWithin (types : List InferredType) :
    ∃ most, DimensionsWithin most types := by
  induction types with
  | nil => exact ⟨0, nofun⟩
  | cons type types ih =>
    obtain ⟨most, hmost⟩ := ih
    refine ⟨max type.dimensions most, List.forall_mem_cons.2 ⟨Nat.le_max_left _ _, ?_⟩⟩
    exact fun other hmem => Nat.le_trans (hmost other hmem) (Nat.le_max_right _ _)

namespace Inference

/-- When a state arrives where one is known already, that one stays or climbs, and no other one
changes. -/
theorem mergeInto_climbs {headers : Headers} {room : Nat} {flow : Flow} {target : Nat}
    {known incoming : TypeState} {old new : Inference}
    (hheaders : old.resolver.header? = headers)
    (hknown : old.analysis.state? target = some known) (hroom : known.locals.length ≤ room)
    (hroom' : incoming.locals.length ≤ room)
    (h : mergeInto flow target incoming old = .ok () new) :
    new.resolver.header? = headers ∧
      (∃ later, new.analysis.state? target = some later ∧
        (later = known ∨ known.Climbs headers room later)) ∧
      ∀ position, position ≠ target →
        new.analysis.state? position = old.analysis.state? position := by
  have ht : target < old.analysis.states.size := lt_size_of_state? hknown
  -- the dimensions of the types in the two states have a bound
  obtain ⟨most, hmost⟩ := exists_dimensionsWithin
    ((known.locals ++ known.stack.values) ++ (incoming.locals ++ incoming.stack.values))
  obtain ⟨hknown', hincoming⟩ := List.forall_mem_append.1 hmost
  obtain ⟨hlocals, hstack⟩ := List.forall_mem_append.1 hknown'
  obtain ⟨hlocals', hstack'⟩ := List.forall_mem_append.1 hincoming
  have hmerge := states_climbs hheaders (⟨hlocals, hstack, hroom⟩ : known.Within most room)
    (⟨hlocals', hstack', hroom'⟩ : incoming.Within most room)
  rcases mergeInto_cases h with ⟨hnone, -⟩ | ⟨current, merged, resolver, hcurrent, hmerged, hcases⟩
  · cases hnone.symm.trans hknown
  · cases hcurrent.symm.trans hknown
    obtain ⟨hheader, _, _, hchange⟩ := hmerge merged resolver hmerged
    rcases hcases with ⟨-, rfl⟩ | ⟨-, rfl⟩
    · exact ⟨hheader.trans hheaders, ⟨known, hknown, .inl rfl⟩, fun _ _ => rfl⟩
    · have hstate : ∀ position,
          (note target merged { old with resolver }).analysis.state? position =
            if position = target then some merged else old.analysis.state? position :=
        state?_note ht merged
      refine ⟨hheader.trans hheaders, ⟨merged, ?_, hchange⟩, fun position hne => ?_⟩
      · rw [hstate, if_pos rfl]
      · rw [hstate, if_neg hne]

end Inference

namespace AnalysisProblem

open Inference

variable {problem : AnalysisProblem} {limits : Limits}

/-- A number of visits, each of the first pending operation, lead from one inference to another. -/
inductive Visits (problem : AnalysisProblem) (first : Inference) : Nat → Inference → Prop where
  | none : Visits problem first 0 first
  | visit {count position : Nat} {pending : List Nat} {old new : Inference} :
    Visits problem first count old → old.pending = position :: pending →
    problem.visit position { old with pending } = .ok () new → Visits problem first (count + 1) new

/-- Each visit makes the potential lower. -/
theorem Visits.keeps {first inference : Inference} {count : Nat}
    (h : problem.Visits first count inference) (hp : problem.Keeps limits)
    (hfirst : first.Keeps limits) :
    inference.Keeps limits ∧ count + inference.potential limits ≤ first.potential limits := by
  induction h with
  | none => exact ⟨hfirst, Nat.le_of_eq (Nat.zero_add _)⟩
  | @visit count position pending old new _ hpending hvisit ih =>
    obtain ⟨hkeeps, hle⟩ := ih
    obtain ⟨hkeeps', hless⟩ := hkeeps.without hpending
    have hfollows := (settles_visit hp position hkeeps').follows () new hvisit
    have hle' := hfollows.potential_le
    exact ⟨hfollows.keeps, by omega⟩

end AnalysisProblem

namespace Body

variable {body : Body} {entry : TypeState} {context : MethodContext} {resolver : Resolver}

/-- The most locals that a state has in an inference. -/
def localRoom (entry : TypeState) : Nat := entry.locals.length + 65537

/-- Type inference comes to an end, because states only climb. Unless the root has a superclass, the
order in which states climb is well-founded, and a state that is merged with another one stays or
climbs. So only finitely many operations can be visited, no matter how many visits may be made. -/
theorem analyze_climbs (hroot : (resolver.header? .object).bind (·.superclass) = none) :
    (∀ resolver', body.analyze entry context resolver ≠ .error .divergent resolver') ∧
      (∀ room, WellFounded fun later earlier : TypeState =>
        earlier.Climbs resolver.header? room later) ∧
      (∀ (flow : Flow) (target room : Nat) (known incoming : TypeState) (old new : Inference),
        old.resolver.header? = resolver.header? →
        old.analysis.state? target = some known → known.locals.length ≤ room →
        incoming.locals.length ≤ room →
        Inference.mergeInto flow target incoming old = .ok () new →
        new.resolver.header? = resolver.header? ∧
          (∃ later, new.analysis.state? target = some later ∧
            (later = known ∨ known.Climbs resolver.header? room later)) ∧
          ∀ position, position ≠ target →
            new.analysis.state? position = old.analysis.state? position) ∧
      ∀ (problem : AnalysisProblem) (first : Nat),
        AnalysisProblem.ofBody body context = .ok problem →
        problem.flow.operationFrom 0 = some first →
        (∀ more, problem.solve (body.visitBound entry context.constants resolver + more)
            (.start body.nodes.length first entry resolver) =
          problem.solve (body.visitBound entry context.constants resolver)
            (.start body.nodes.length first entry resolver)) ∧
        ∀ (count : Nat) (inference : Inference),
          problem.Visits (.start body.nodes.length first entry resolver) count inference →
          count ≤ body.visitBound entry context.constants resolver ∧
            inference.resolver.header? = resolver.header? ∧
            (∀ position state, inference.analysis.state? position = some state →
              state.locals.length ≤ localRoom entry) ∧
            ∀ (position : Nat) (pending : List Nat) (later : Inference),
              inference.pending = position :: pending →
              problem.visit position { inference with pending } = .ok () later →
              ∀ place state, inference.analysis.state? place = some state →
                ∃ state', later.analysis.state? place = some state' ∧
                  Relation.ReflTransGen (TypeState.Climbs resolver.header? (localRoom entry))
                    state state' := by
  refine ⟨analyze_ne_divergent hroot, fun room => ?_, ?_, ?_⟩
  · exact TypeState.wellFounded_climbs hroot resolver.header?_atMost room
  · intro flow target room known incoming old new hheaders hknown hroom hroom' h
    exact Inference.mergeInto_climbs hheaders hknown hroom hroom' h
  · intro problem first hproblem hfirst
    have hp := @keeps_ofBody body entry context resolver hroot problem hproblem
    obtain ⟨hstart, hbound⟩ := keeps_first hroot hproblem hfirst entry
    constructor
    · exact AnalysisProblem.solve_add (solve_ne_divergent hroot hproblem hfirst entry)
    · intro count inference hvisits
      obtain ⟨hkeeps, hle⟩ := hvisits.keeps hp hstart
      refine ⟨Nat.le_trans (Nat.le_trans (Nat.le_add_right count _) hle) hbound, hkeeps.headers,
        ?_, ?_⟩
      · intro position state hstate
        exact (hkeeps.within position state hstate).room
      · intro position pending later hpending hvisit
        obtain ⟨hkeeps', _⟩ := hkeeps.without hpending
        exact ((AnalysisProblem.settles_visit hp position hkeeps').follows () later hvisit).climbs

/-- Only finitely many operations of `guardedLoop` can be visited. -/
theorem guardedLoop_climbs :
    ((Resolver.ofClassPath ∅).header? .object).bind (·.superclass) = none ∧
      ∀ (count : Nat) (inference : Inference),
        guardedLoopProblem.Visits (.start 7 1 ⟨[], ∅⟩ (.ofClassPath ∅)) count inference →
        count ≤ guardedLoop.visitBound ⟨[], ∅⟩ ∅ (.ofClassPath ∅) := by
  have hroot : ((Resolver.ofClassPath ∅).header? .object).bind (·.superclass) = none :=
    Resolver.rooted_of_empty.object
  refine ⟨hroot, fun count inference hvisits => ?_⟩
  obtain ⟨_, _, _, hall⟩ :=
    @analyze_climbs guardedLoop ⟨[], ∅⟩ guardedLoopContext (.ofClassPath ∅) hroot
  exact ((hall guardedLoopProblem 1 guardedLoop_problem rfl).2 count inference hvisits).1

end Body

end Preverification

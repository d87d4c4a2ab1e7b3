import Preverification.Proofs.Causes
import Preverification.Proofs.Exploration
import Preverification.Proofs.Ranks

/-!
# Type inference comes to an end

An operation without a state has the highest rank, and one with a state the rank of that state. The
sum of these ranks, with the number of pending operations, is the potential of an inference. A visit
takes one operation from those that are pending. For each one that it makes pending the rank of that
operation becomes lower, so that the potential sinks with every visit, and as many visits as the
potential at the start are enough.

* `Inference.Follows`: what a step of an inference may do: the potential does not rise, no state is
  lost, and states climb.
* `Inference.settles_mergeInto`: the step lemma for a state that arrives, from which
  `AnalysisProblem.settles_visit` is put together.
* `AnalysisProblem.solve_ne_divergent`: as many visits as the potential are enough.
* `Body.analyze_ne_divergent`: the potential at the start is within the visits that are made.
-/

namespace Preverification

open MonadExcept (ofExcept)

/-- What states are measured by while types are inferred. -/
structure Limits where
  scale : Scale
  -- the number of nodes
  count : Nat
  -- the most locals
  room : Nat
  -- the number of values on the stack where the body is entered
  entry : Nat

namespace Limits

/-- The most values on a stack: each operation with a state adds at most two. -/
def height (limits : Limits) : Nat := limits.entry + 2 * limits.count

/-- The rank of an operation. -/
def nodeRank (limits : Limits) : Option TypeState → Nat
  | none => 1 + (limits.room + limits.height) * limits.scale.most
  | some state => limits.scale.stateRank limits.room limits.height state

end Limits

/-- Of two sums that differ in one place. -/
theorem sum_of_one_change {f g : Nat → Nat} {count changed : Nat} (hlt : changed < count)
    (hsame : ∀ place, place ≠ changed → g place = f place) :
    ∑ place ∈ Finset.range count, g place + f changed =
      ∑ place ∈ Finset.range count, f place + g changed := by
  have hmem : changed ∈ Finset.range count := Finset.mem_range.2 hlt
  have hrest : ∑ place ∈ (Finset.range count).erase changed, g place =
      ∑ place ∈ (Finset.range count).erase changed, f place :=
    Finset.sum_congr rfl fun place hplace => hsame place (Finset.ne_of_mem_erase hplace)
  rw [← Finset.add_sum_erase _ g hmem, ← Finset.add_sum_erase _ f hmem, hrest]
  omega

namespace Inference

variable {limits : Limits}

/-- The number of operations that have a state. -/
def liveCount (limits : Limits) (inference : Inference) : Nat :=
  ∑ position ∈ Finset.range limits.count, if inference.analysis.isLive position then 1 else 0

/-- The potential of what is known and pending, which sinks with every visit. -/
def potential (limits : Limits) (inference : Inference) : Nat :=
  inference.pending.length +
    ∑ position ∈ Finset.range limits.count, limits.nodeRank (inference.analysis.state? position)

/-- An inference is within its limits. -/
structure Keeps (limits : Limits) (inference : Inference) : Prop where
  headers : inference.resolver.header? = limits.scale.headers
  size : inference.analysis.states.size = limits.count
  within : ∀ position state, inference.analysis.state? position = some state →
    state.Within limits.scale.dimensions limits.room
  height : ∀ position state, inference.analysis.state? position = some state →
    state.stack.size + 2 ≤ limits.entry + 2 * inference.liveCount limits

/-- One inference follows another one: the potential is no higher, no state is lost, and those that
have changed have climbed. -/
structure Follows (limits : Limits) (old new : Inference) : Prop where
  keeps : new.Keeps limits
  potential_le : new.potential limits ≤ old.potential limits
  liveCount_le : old.liveCount limits ≤ new.liveCount limits
  climbs : ∀ position state, old.analysis.state? position = some state →
    ∃ later, new.analysis.state? position = some later ∧
      Relation.ReflTransGen (TypeState.Climbs limits.scale.headers limits.room) state later

/-- A step leads to an inference that follows, or fails, but not because it would go on for ever. -/
structure Settles (limits : Limits) {α : Type} (step : Step α) (old : Inference) : Prop where
  follows : ∀ value new, step old = .ok value new → old.Follows limits new
  converges : ∀ new, step old ≠ .error .divergent new

/-- An inference that follows one that follows does so from the first one on. -/
theorem Follows.trans {first second third : Inference} (h : first.Follows limits second)
    (h' : second.Follows limits third) : first.Follows limits third where
  keeps := h'.keeps
  potential_le := Nat.le_trans h'.potential_le h.potential_le
  liveCount_le := Nat.le_trans h.liveCount_le h'.liveCount_le
  climbs position state hstate := by
    obtain ⟨later, hlater, hclimbs⟩ := h.climbs position state hstate
    obtain ⟨last, hlast, hclimbs'⟩ := h'.climbs position later hlater
    exact ⟨last, hlast, hclimbs.trans hclimbs'⟩

/-- Where no state and no header changes and nothing becomes pending, an inference follows. -/
theorem Keeps.follows {old new : Inference} (h : old.Keeps limits)
    (hheaders : new.resolver.header? = old.resolver.header?)
    (hstates : new.analysis.states = old.analysis.states) (hpending : new.pending = old.pending) :
    old.Follows limits new := by
  -- all that is counted is told by the states
  have hstate : ∀ position, new.analysis.state? position = old.analysis.state? position := by
    intro position
    unfold Analysis.state?
    rw [hstates]
  have hisLive : new.analysis.isLive = old.analysis.isLive := by
    funext position
    unfold Analysis.isLive
    rw [hstate]
  have hlive : new.liveCount limits = old.liveCount limits := by
    unfold liveCount
    rw [hisLive]
  refine ⟨⟨hheaders.trans h.headers, hstates ▸ h.size, ?_, ?_⟩, ?_, Nat.le_of_eq hlive.symm, ?_⟩
  · intro position state hs
    exact h.within position state ((hstate position).symm.trans hs)
  · intro position state hs
    rw [hlive]
    exact h.height position state ((hstate position).symm.trans hs)
  · -- the potential is that of the same states and the same pending operations
    unfold potential
    rw [hpending]
    simp only [hstate, Nat.le_refl]
  · intro position state hs
    exact ⟨state, (hstate position).trans hs, .refl⟩

theorem Follows.refl {inference : Inference} (h : inference.Keeps limits) :
    inference.Follows limits inference := h.follows rfl rfl rfl

section Settles

variable {α β : Type} {old : Inference}

theorem settles_pure (h : old.Keeps limits) (value : α) : Settles limits (pure value) old := by
  refine ⟨fun found new hrun => ?_, nofun⟩
  obtain ⟨-, rfl⟩ := state_pure_ok.1 hrun
  exact .refl h

/-- Steps settle one behind the other, where the second one starts from an inference that follows.
-/
theorem Settles.bind {step : Step α} {next : α → Step β} (h : Settles limits step old)
    (hnext : ∀ value middle, step old = .ok value middle → old.Follows limits middle →
      Settles limits (next value) middle) : Settles limits (step >>= next) old := by
  constructor
  · intro value new hrun
    obtain ⟨found, middle, hfirst, hsecond⟩ := state_bind_ok.1 hrun
    have hfollows := h.follows found middle hfirst
    exact hfollows.trans ((hnext found middle hfirst hfollows).follows value new hsecond)
  · intro new hrun
    rcases state_bind_error.1 hrun with hfirst | ⟨found, middle, hfirst, hsecond⟩
    · exact h.converges new hfirst
    · exact (hnext found middle hfirst (h.follows found middle hfirst)).converges new hsecond

theorem settles_get (h : old.Keeps limits) : Settles limits (get : Step Inference) old := by
  refine ⟨fun found new hrun => ?_, nofun⟩
  cases hrun
  exact .refl h

/-- A change to an inference that follows settles. -/
theorem settles_modify {change : Inference → Inference} (h : old.Follows limits (change old)) :
    Settles limits (modify change : Step Unit) old := by
  refine ⟨fun found new hrun => ?_, nofun⟩
  cases hrun
  exact h

/-- Steps for the elements of a list settle if each of them does. -/
theorem Settles.forM {step : α → Step Unit} {l : List α} (hold : old.Keeps limits)
    (h : ∀ a ∈ l, ∀ middle, old.Follows limits middle → Settles limits (step a) middle) :
    Settles limits (l.forM step) old := by
  induction l generalizing old with
  | nil => exact settles_pure hold ()
  | cons a l ih =>
    refine .bind (h a List.mem_cons_self old (.refl hold)) fun _ middle _ hmiddle => ?_
    exact ih hmiddle.keeps fun b hb later hlater =>
      h b (List.mem_cons_of_mem _ hb) later (hmiddle.trans hlater)

/-- A check settles, unless it fails as if it went on for ever. -/
theorem settles_ofExcept (h : old.Keeps limits) {result : Except AnalysisError α}
    (hresult : result ≠ .error .divergent) : Settles limits (ofExcept result) old := by
  cases result with
  | ok value => exact settles_pure h value
  | error error =>
    refine ⟨nofun, fun new hrun => ?_⟩
    cases hrun
    exact hresult rfl

end Settles

/-! ### A state arrives -/

/-- One more operation is pending at most. -/
theorem length_insertAscending_le (number : Nat) (numbers : List Nat) :
    (insertAscending number numbers).length ≤ numbers.length + 1 := by
  induction numbers with
  | nil => exact Nat.le_refl _
  | cons first rest ih =>
    unfold insertAscending
    split
    · exact Nat.le_refl _
    · split
      · exact Nat.le_succ _
      · exact Nat.succ_le_succ ih

section Note

variable {old : Inference} {target : Nat} {state : TypeState}

/-- An operation that has no state yet is one more that has one. -/
theorem liveCount_note (state : TypeState) (hsize : old.analysis.states.size = limits.count)
    (hlt : target < limits.count) :
    (old.note target state).liveCount limits + (if old.analysis.isLive target then 1 else 0) =
      old.liveCount limits + 1 := by
  have hstate := fun position => state?_note (hsize ▸ hlt) state position
  have hsum := sum_of_one_change
    (f := fun position => if old.analysis.isLive position then 1 else 0)
    (g := fun position => if (old.note target state).analysis.isLive position then 1 else 0) hlt
    fun position hne => by
      have hother : (old.note target state).analysis.isLive position =
          old.analysis.isLive position := by simp [Analysis.isLive, hstate, hne]
      rw [hother]
  have hnoted : (old.note target state).analysis.isLive target := by
    simp [Analysis.isLive, hstate]
  rw [if_pos hnoted] at hsum
  exact hsum

/-- One more operation is pending, but its rank is lower, so that the potential does not rise. -/
theorem potential_note_le (hsize : old.analysis.states.size = limits.count)
    (hlt : target < limits.count)
    (hlower : limits.nodeRank (some state) < limits.nodeRank (old.analysis.state? target)) :
    (old.note target state).potential limits ≤ old.potential limits := by
  -- the sums of ranks differ at the target alone
  have hstate := fun position => state?_note (hsize ▸ hlt) state position
  have hsum := sum_of_one_change
    (f := fun position => limits.nodeRank (old.analysis.state? position))
    (g := fun position => limits.nodeRank ((old.note target state).analysis.state? position)) hlt
    fun position hne => by rw [hstate, if_neg hne]
  have hpending := length_insertAscending_le target old.pending
  have hnoted : (old.note target state).analysis.state? target = some state := by
    rw [hstate, if_pos rfl]
  rw [hnoted] at hsum
  change (insertAscending target old.pending).length + _ ≤ old.pending.length + _
  omega

/-- A state of a lower rank is noted, which is not higher than the stacks may become. -/
theorem follows_note (hold : old.Keeps limits) (hlt : target < limits.count)
    (hwithin : state.Within limits.scale.dimensions limits.room)
    (hclimbs : ∀ current, old.analysis.state? target = some current →
      current.Climbs limits.scale.headers limits.room state)
    (hheight : state.stack.size + 2 ≤
      limits.entry + 2 * (old.note target state).liveCount limits)
    (hlower : limits.nodeRank (some state) < limits.nodeRank (old.analysis.state? target)) :
    old.Follows limits (old.note target state) := by
  have hcount := liveCount_note state hold.size hlt
  -- no operation loses its state
  have hmore : old.liveCount limits ≤ (old.note target state).liveCount limits := by
    split at hcount <;> omega
  have hstate := fun position => state?_note (hold.size ▸ hlt) state position
  refine ⟨⟨hold.headers, ?_, fun position found hfound => ?_, fun position found hfound => ?_⟩,
    potential_note_le hold.size hlt hlower, hmore, fun position found hfound => ?_⟩
  · simp [note, hold.size]
  · -- the state that is new is within the limits
    rw [hstate] at hfound
    split at hfound
    · cases hfound
      exact hwithin
    · exact hold.within position found hfound
  · rw [hstate] at hfound
    split at hfound
    · cases hfound
      exact hheight
    · exact Nat.le_trans (hold.height position found hfound) (by omega)
  · rw [hstate]
    split
    · rename_i heq
      subst heq
      exact ⟨state, rfl, .single (hclimbs found hfound)⟩
    · exact ⟨found, hfound, .refl⟩

/-- Nothing but the headers of the resolver counts. -/
theorem Keeps.withResolver (hold : old.Keeps limits) {resolver : Resolver}
    (h : resolver.header? = old.resolver.header?) :
    old.Follows limits { old with resolver } := hold.follows h rfl rfl

end Note

/-- Counting slots changes no state. -/
theorem Keeps.observe {old : Inference} (hold : old.Keeps limits) (state : TypeState) :
    old.Follows limits { old with analysis := old.analysis.observe state } :=
  hold.follows rfl rfl rfl

/-- When the first pending operation is about to be visited, it is no longer pending. -/
theorem Keeps.without {old : Inference} (hold : old.Keeps limits) {position : Nat}
    {pending : List Nat} (hpending : old.pending = position :: pending) :
    ({ old with pending } : Inference).Keeps limits ∧
      ({ old with pending } : Inference).potential limits + 1 = old.potential limits := by
  refine ⟨⟨hold.headers, hold.size, hold.within, hold.height⟩, ?_⟩
  unfold potential
  rw [hpending]
  exact Nat.add_right_comm _ _ _

/-- No more operations have a state than there are nodes. -/
theorem liveCount_le (inference : Inference) : inference.liveCount limits ≤ limits.count := by
  have hle : ∀ position ∈ Finset.range limits.count,
      (if inference.analysis.isLive position then 1 else 0) ≤ 1 := by
    intro position _
    split
    · exact Nat.le_refl 1
    · exact Nat.zero_le 1
  have hsum := Finset.sum_le_card_nsmul _ _ 1 hle
  rwa [Finset.card_range, smul_eq_mul, Nat.mul_one] at hsum

/-- Where an operation has a state, at least one has. -/
theorem Keeps.liveCount_pos {inference : Inference} (h : inference.Keeps limits) {position : Nat}
    (hlive : inference.analysis.isLive position) : 0 < inference.liveCount limits := by
  have hlt : position < limits.count := by
    obtain ⟨state, hstate⟩ := Option.isSome_iff_exists.1 hlive
    rw [← h.size]
    exact lt_size_of_state? hstate
  refine Finset.sum_pos' (fun _ _ => Nat.zero_le _) ⟨position, Finset.mem_range.2 hlt, ?_⟩
  rw [if_pos hlive]
  exact Nat.one_pos

/-- The first state that comes to an operation is noted. -/
theorem follows_note_first {old : Inference} {target : Nat} {state : TypeState}
    (hold : old.Keeps limits) (hlt : target < limits.count)
    (hunknown : old.analysis.state? target = none)
    (hwithin : state.Within limits.scale.dimensions limits.room)
    (hheight : state.stack.size ≤ limits.entry + 2 * old.liveCount limits) :
    old.Follows limits (old.note target state) := by
  have hcount := liveCount_note state hold.size hlt
  have hnot : ¬ old.analysis.isLive target := by simp [Analysis.isLive, hunknown]
  rw [if_neg hnot] at hcount
  refine follows_note hold hlt hwithin ?_ (by omega) ?_
  · intro current hcurrent
    rw [hunknown] at hcurrent
    cases hcurrent
  · -- an operation without a state has the highest rank
    have hle := Scale.stateRank_le hwithin limits.height
    rw [hunknown]
    simp only [Limits.nodeRank]
    omega

/-- A state that has climbed takes the place of the one that was known. -/
theorem follows_note_climbs {old : Inference} {target : Nat} {current state : TypeState}
    (hold : old.Keeps limits) (hlt : target < limits.count)
    (hknown : old.analysis.state? target = some current)
    (hwithin : state.Within limits.scale.dimensions limits.room)
    (hclimbs : current.Climbs limits.scale.headers limits.room state) :
    old.Follows limits (old.note target state) := by
  have hcount := liveCount_note state hold.size hlt
  have hheight := hold.height target current hknown
  have hmost : old.liveCount limits ≤ limits.count := old.liveCount_le
  refine follows_note hold hlt hwithin ?_ ?_ ?_
  · intro found hfound
    cases hfound.symm.trans hknown
    exact hclimbs
  · rw [hclimbs.size]
    split at hcount <;> omega
  · -- a state that climbs has a lower rank then
    rw [hknown]
    refine Scale.stateRank_lt_of_climbs hclimbs ?_ ?_ ?_
    · unfold Limits.height
      omega
    · exact fun slot _ _ => hwithin.locals.localAt slot
    · exact fun slot _ _ => hwithin.stack.localAt slot

/-- A state that comes to an operation settles: a state that was known there climbs, or nothing
changes. -/
theorem settles_mergeInto {flow : Flow} {target : Nat} {incoming : TypeState} {old : Inference}
    (hold : old.Keeps limits) (hlt : target < limits.count)
    (hwithin : incoming.Within limits.scale.dimensions limits.room)
    (hheight : incoming.stack.size ≤ limits.entry + 2 * old.liveCount limits) :
    Settles limits (mergeInto flow target incoming) old := by
  refine ⟨fun value new hrun => ?_, fun new hrun => ?_⟩
  · rcases mergeInto_cases hrun with
      ⟨hunknown, rfl⟩ | ⟨known, merged, resolver, hknown, hmerge, hcases⟩
    · exact follows_note_first hold hlt hunknown hwithin hheight
    · obtain ⟨hheader, hwithin', _, hchange⟩ :=
        states_climbs hold.headers (hold.within target known hknown) hwithin merged resolver hmerge
      have hresolver := hold.withResolver hheader
      rcases hcases with ⟨-, rfl⟩ | ⟨hne, rfl⟩
      · exact hresolver
      · exact hresolver.trans (follows_note_climbs hresolver.keeps hlt hknown hwithin'
          (hchange.resolve_left hne))
  · rcases mergeInto_error hrun with ⟨_, _, _, ⟨_, _, hcause⟩ | ⟨_, _, hcause⟩⟩
    · cases hcause
    · cases hcause

end Inference

/-! ### Visits -/

namespace AnalysisProblem

open Inference

variable {problem : AnalysisProblem} {limits : Limits} {position : Nat}

/-- A problem is within limits: control arrives at nodes, and the types that come from the pool have
no more dimensions than there may be. -/
structure Keeps (problem : AnalysisProblem) (limits : Limits) : Prop where
  handlers : ∀ handler ∈ problem.handlers, handler.target < limits.count ∧
    handler.caught.dimensions ≤ limits.scale.dimensions
  successors : ∀ position operation successors,
    problem.flow.nodes[position]? = some (.operation operation) →
    problem.successors position operation = .ok successors →
    ∀ successor ∈ successors, successor < limits.count
  dimensions : problem.context.constants.longestText + 1 ≤ limits.scale.dimensions
  room : 65537 ≤ limits.room

/-- An operation that cannot run does not go on for ever. -/
theorem execute_ne_divergent (operation : Operation Label) (state : TypeState) :
    problem.execute position operation state ≠ .error .divergent := by
  unfold execute
  split <;> nofun

/-- Nor does the search for the ways on. -/
theorem successors_ne_divergent (operation : Operation Label) :
    problem.successors position operation ≠ .error .divergent := by
  refine Blames.ne_error (.bind (.mapM fun label _ => ?_) fun targets _ => ?_)
  · unfold jumpTarget
    split
    · exact .pure _
    · exact .throw nofun
    · exact .throw nofun
  · split
    · refine .bind ?_ fun _ _ => .pure _
      unfold fallThrough
      split
      · exact .pure _
      · exact .throw nofun
    · exact .pure _

/-- What is known behind an operation stays within the limits. -/
theorem Keeps.execute (hp : problem.Keeps limits) {operation : Operation Label}
    {before after : TypeState}
    (hbefore : before.Within limits.scale.dimensions limits.room)
    (h : problem.execute position operation before = .ok after) :
    after.Within limits.scale.dimensions limits.room ∧
      after.stack.size ≤ before.stack.size + 2 := by
  unfold AnalysisProblem.execute at h
  split at h
  · rename_i state hrun
    cases h
    obtain ⟨hwithin, hsize, -⟩ :=
      Transfer.stays_operation hp.dimensions hp.room _ operation before () _ hbefore hrun
    exact ⟨hwithin, hsize⟩
  · cases h

/-- What is known where a handler is entered stays within the limits. -/
theorem within_handlerEntry {state : TypeState} {caught : InferredType}
    (h : state.Within limits.scale.dimensions limits.room)
    (hcaught : caught.dimensions ≤ limits.scale.dimensions) :
    (state.handlerEntry caught).Within limits.scale.dimensions limits.room ∧
      (state.handlerEntry caught).stack.size = 1 :=
  ⟨⟨h.locals, List.forall_mem_singleton.2 hcaught, h.room⟩, rfl⟩

/-- A visit settles: it stays within the limits, and it does not go on for ever. -/
theorem settles_visit (hp : problem.Keeps limits) (position : Nat) {old : Inference}
    (hold : old.Keeps limits) : Settles limits (problem.visit position) old := by
  unfold visit
  refine .bind (settles_get hold) fun found middle hget _ => ?_
  cases hget
  split
  · rename_i before operation hbefore ho
    have hwithin := hold.within position before hbefore
    have hheight := hold.height position before hbefore
    have hlive : old.analysis.isLive position := by simp [Analysis.isLive, hbefore]
    have hpos := hold.liveCount_pos hlive
    refine .bind (settles_modify (hold.observe before)) fun _ first hfirst hfollows => ?_
    refine .bind (settles_ofExcept hfollows.keeps (execute_ne_divergent operation before))
      fun after second hcheck hfollows' => ?_
    obtain ⟨hafter, rfl⟩ := ofExcept_ok.1 hcheck
    -- an operation adds two values at most, which one more live operation allows for
    obtain ⟨hwithin', hheight'⟩ := hp.execute hwithin hafter
    refine .bind (settles_ofExcept hfollows'.keeps (successors_ne_divergent operation))
      fun successors third hcheck' hfollows'' => ?_
    obtain ⟨hsuccessors, rfl⟩ := ofExcept_ok.1 hcheck'
    refine .bind (settles_modify (hfollows''.keeps.observe after)) fun _ fourth _ hfourth => ?_
    -- what was live in front of the operation is so from then on
    have hcount : ∀ later, fourth.Follows limits later →
        old.liveCount limits ≤ later.liveCount limits := fun later hlater =>
      Nat.le_trans hfollows.liveCount_le
        (Nat.le_trans hfourth.liveCount_le hlater.liveCount_le)
    refine .bind (.forM hfourth.keeps fun handler hmem later hlater => ?_)
      fun _ fifth _ hfifth => .forM hfifth.keeps fun successor hmem later hlater => ?_
    · obtain ⟨hlt, hcaught⟩ := hp.handlers handler (List.mem_of_mem_filter hmem)
      obtain ⟨hbefore', hone⟩ := within_handlerEntry hwithin hcaught
      obtain ⟨hafter', hone'⟩ := within_handlerEntry hwithin' hcaught
      have hlive := hcount later hlater
      refine .bind (settles_mergeInto hlater.keeps hlt hbefore' (by omega))
        fun _ last _ hlast => ?_
      have hlive' := hlast.liveCount_le
      exact settles_mergeInto hlast.keeps hlt hafter' (by omega)
    · -- what is known behind the operation goes on to its successors
      have hlt := hp.successors position operation successors ho hsuccessors successor hmem
      have hlive := hcount later (hfifth.trans hlater)
      exact settles_mergeInto hlater.keeps hlt hwithin' (by omega)
  · exact settles_pure hold ()

/-- As many visits as the potential are enough. -/
theorem solve_ne_divergent (hp : problem.Keeps limits) {visits : Nat} {old : Inference}
    (hold : old.Keeps limits) (hvisits : old.potential limits ≤ visits) (new : Inference) :
    problem.solve visits old ≠ .error .divergent new := by
  induction visits generalizing old with
  | zero =>
    have hpending : old.pending = [] := by
      unfold potential at hvisits
      exact List.length_eq_zero_iff.1 (by omega)
    rw [solve_done hpending]
    nofun
  | succ visits ih =>
    cases hpending : old.pending with
    | nil =>
      rw [solve_done hpending]
      nofun
    | cons position pending =>
      intro hrun
      rw [solve_cons hpending] at hrun
      obtain ⟨hkeeps, hless⟩ := hold.without hpending
      have hvisit := settles_visit hp position hkeeps
      rcases state_bind_error.1 hrun with herror | ⟨_, middle, hmiddle, hrest⟩
      · exact hvisit.converges new herror
      · -- the visit made the potential lower, so one visit less is enough behind it
        have hfollows := hvisit.follows _ _ hmiddle
        have hle := hfollows.potential_le
        exact ih hfollows.keeps (by omega) hrest

/-- More visits than are enough make no difference. -/
theorem solve_add {visits : Nat} {old : Inference}
    (h : ∀ new, problem.solve visits old ≠ .error .divergent new) (more : Nat) :
    problem.solve (visits + more) old = problem.solve visits old := by
  induction visits generalizing old with
  | zero =>
    cases hpending : old.pending with
    | nil => rw [solve_done hpending, solve_done hpending]
    | cons position pending =>
      exact absurd (solve_zero_of_cons hpending) (h old)
  | succ visits ih =>
    cases hpending : old.pending with
    | nil => rw [solve_done hpending, solve_done hpending]
    | cons position pending =>
      rw [solve_cons hpending] at h
      rw [Nat.add_right_comm, solve_cons hpending, solve_cons hpending]
      change EStateM.bind _ _ _ = EStateM.bind _ _ _
      unfold EStateM.bind
      cases hvisit : problem.visit position { old with pending } with
      | error error middle => rfl
      | ok value middle =>
        refine ih fun new hrun => h new ?_
        exact state_bind_error.2 (.inr ⟨value, middle, hvisit, hrun⟩)

/-- A problem that cannot be set up does not go on for ever. -/
theorem ofBody_ne_divergent {body : Body} {context : MethodContext} :
    ofBody body context ≠ .error .divergent := by
  have hstructural : ∀ {α : Type} (result : Except StructuralError α),
      Blames (· ≠ .divergent) (result.mapError AnalysisError.structural) :=
    fun _ => .mapError fun _ _ => nofun
  refine Blames.ne_error (.bind (hstructural _) fun flow _ => .bind (.mapM fun handler _ => ?_) ?_)
  · refine .bind (hstructural _) fun start _ => .bind (hstructural _) fun stop _ => ?_
    dsimp only
    split
    · refine .bind (.pure _) fun target _ => ?_
      split
      · exact .bind (hstructural _) fun _ _ => .pure _
      · exact .bind (.pure _) fun _ _ => .pure _
    · exact .bind (.throw nofun) fun _ => nofun
    · exact .bind (.throw nofun) fun _ => nofun
  · exact fun _ _ => .pure _

end AnalysisProblem

/-! ### Bodies -/

namespace Body

variable {body : Body} {entry : TypeState} {context : MethodContext} {resolver : Resolver}

/-- The limits of a type inference for a body. -/
def limits (body : Body) (entry : TypeState) (pool : Pool) (resolver : Resolver)
    (hroot : (resolver.header? .object).bind (·.superclass) = none) : Limits where
  scale := ⟨resolver.header?, resolver.classBound, dimensionBound entry pool, hroot,
    resolver.header?_atMost⟩
  count := body.nodes.length
  room := entry.locals.length + 65537
  entry := entry.stack.size

/-- A descriptor has fewer dimensions than its text has characters, and that is within the bound. -/
theorem longestText_lt_dimensionBound (entry : TypeState) (pool : Pool) :
    pool.longestText + 1 ≤ dimensionBound entry pool := by
  unfold dimensionBound
  omega

/-- The types that are known where a body is entered count among the dimensions. -/
theorem within_entry (entry : TypeState) (pool : Pool) :
    entry.Within (dimensionBound entry pool) (entry.locals.length + 65537) := by
  have hall : DimensionsWithin (dimensionBound entry pool)
      (entry.locals ++ entry.stack.values) := by
    intro type hmem
    have hle : type.dimensions ≤ (entry.locals ++ entry.stack.values).foldl
        (fun most type => max most type.dimensions) 0 :=
      le_foldl (fun most _ => Nat.le_max_left most _) hmem
        (fun most => Nat.le_max_right most type.dimensions) 0
    unfold dimensionBound
    omega
  exact ⟨fun type hmem => hall type (List.mem_append_left _ hmem),
    fun type hmem => hall type (List.mem_append_right _ hmem), Nat.le_add_right _ _⟩

/-- The problem that a body poses is within its limits. -/
theorem keeps_ofBody (hroot : (resolver.header? .object).bind (·.superclass) = none)
    {problem : AnalysisProblem} (h : AnalysisProblem.ofBody body context = .ok problem) :
    problem.Keeps (body.limits entry context.constants resolver hroot) := by
  have hp := AnalysisProblem.ofBody_ok h
  have hlongest := longestText_lt_dimensionBound entry context.constants
  refine ⟨fun placed hmem => ?_, fun position operation successors ho hs successor hmem => ?_, ?_,
    Nat.le_add_left _ _⟩
  · -- what a handler catches is named in the pool
    obtain ⟨handler, hhandler, hplaces⟩ := forall₂_exists hp.handlers.flip hmem
    obtain ⟨place, -, harrives⟩ := hplaces.target
    refine ⟨harrives.lt_length, ?_⟩
    change placed.caught.dimensions ≤ dimensionBound entry context.constants
    have hcatches := hplaces.caught
    unfold Handler.Catches at hcatches
    split at hcatches
    · obtain ⟨type, htype, heq⟩ := hcatches
      have hle := Pool.dimensions_classType htype
      rw [heq]
      exact Nat.le_trans hle (Nat.le_of_succ_le hlongest)
    · rw [hcatches]
      exact Nat.zero_le _
  · rw [hp.nodes_eq] at ho
    exact ((hp.mem_successors ho hs).1 hmem).arrives.choose_spec.lt_length
  · rw [hp.context_eq]
    exact hlongest

/-- As long as no operation has a state, all have the same rank. -/
theorem potential_unknown_le (hroot : (resolver.header? .object).bind (·.superclass) = none)
    (entry : TypeState) (pool : Pool) (unknown : Inference) (hpending : unknown.pending = [])
    (hstates : ∀ position, unknown.analysis.state? position = none) :
    unknown.potential (body.limits entry pool resolver hroot) ≤
      body.visitBound entry pool resolver := by
  generalize hlimits : body.limits entry pool resolver hroot = limits
  have hpotential : unknown.potential limits =
      body.nodes.length * (1 + body.slotBound entry * limits.scale.most) := by
    have hslots : limits.room + limits.height = body.slotBound entry := by
      rw [← hlimits]
      change entry.locals.length + 65537 + (entry.stack.size + 2 * body.nodes.length) = _
      unfold slotBound
      omega
    unfold Inference.potential
    simp only [hstates, hpending, Limits.nodeRank, hslots, Finset.sum_const, Finset.card_range,
      smul_eq_mul, List.length_nil, Nat.zero_add]
    rw [← hlimits]
    rfl
  -- no slot can climb further than the classes and the dimensions of the code allow
  have hmost : limits.scale.most ≤ climbBound entry pool resolver + 2 := by
    rw [← hlimits]
    change (dimensionBound entry pool + 1) * (resolver.classBound + 4) + 1 ≤ _
    unfold climbBound
    rw [Nat.add_mul _ 1, Nat.add_mul _ 2]
    omega
  rw [hpotential]
  exact Nat.mul_le_mul_left _ (Nat.add_le_add_left (Nat.mul_le_mul_left _ hmost) 1)

/-- At first only the operation at which the body is entered has a state. -/
theorem keeps_start (hroot : (resolver.header? .object).bind (·.superclass) = none)
    (entry : TypeState) (pool : Pool) (unknown : Inference)
    (hheaders : unknown.resolver.header? = resolver.header?)
    (hsize : unknown.analysis.states.size = body.nodes.length) (hpending : unknown.pending = [])
    (hstates : ∀ position, unknown.analysis.state? position = none) {first : Nat}
    (hfirst : first < body.nodes.length) :
    (unknown.note first entry).Keeps (body.limits entry pool resolver hroot) ∧
      (unknown.note first entry).potential (body.limits entry pool resolver hroot) ≤
        body.visitBound entry pool resolver := by
  have hunknown : unknown.Keeps (body.limits entry pool resolver hroot) := by
    refine ⟨hheaders, hsize, fun position state hstate => ?_, fun position state hstate => ?_⟩
    · exact absurd ((hstates position).symm.trans hstate) nofun
    · exact absurd ((hstates position).symm.trans hstate) nofun
  have hfollows : unknown.Follows (body.limits entry pool resolver hroot)
      (unknown.note first entry) :=
    Inference.follows_note_first hunknown hfirst (hstates first) (within_entry entry pool)
      (Nat.le_add_right _ _)
  exact ⟨hfollows.keeps, Nat.le_trans hfollows.potential_le
    (potential_unknown_le hroot entry pool unknown hpending hstates)⟩

/-- Where nothing is known yet but at the operation at which the body is entered, the potential is
no higher than the number of visits that may be made. -/
theorem keeps_first (hroot : (resolver.header? .object).bind (·.superclass) = none)
    {problem : AnalysisProblem} (hproblem : AnalysisProblem.ofBody body context = .ok problem)
    {first : Nat} (hfirst : problem.flow.operationFrom 0 = some first) (entry : TypeState) :
    (Inference.start body.nodes.length first entry resolver).Keeps
        (body.limits entry context.constants resolver hroot) ∧
      (Inference.start body.nodes.length first entry resolver).potential
          (body.limits entry context.constants resolver hroot) ≤
        body.visitBound entry context.constants resolver := by
  have hp := AnalysisProblem.ofBody_ok hproblem
  have hlt := ((hp.flow.operationFrom_eq 0 first).1 hfirst).lt_length
  exact keeps_start hroot entry context.constants ⟨⟨_, 0, 0⟩, [], resolver⟩ rfl
    Array.size_replicate rfl (Inference.state?_replicate body.nodes.length 0 0) hlt

/-- As many visits as are made are enough. -/
theorem solve_ne_divergent (hroot : (resolver.header? .object).bind (·.superclass) = none)
    {problem : AnalysisProblem} (hproblem : AnalysisProblem.ofBody body context = .ok problem)
    {first : Nat} (hfirst : problem.flow.operationFrom 0 = some first) (entry : TypeState)
    (new : Inference) : problem.solve (body.visitBound entry context.constants resolver)
      (.start body.nodes.length first entry resolver) ≠ .error .divergent new := by
  obtain ⟨hkeeps, hvisits⟩ := keeps_first hroot hproblem hfirst entry
  exact AnalysisProblem.solve_ne_divergent (keeps_ofBody hroot hproblem) hkeeps hvisits new

/-- Type inference comes to an end. -/
theorem analyze_ne_divergent (hroot : (resolver.header? .object).bind (·.superclass) = none)
    (resolver' : Resolver) : body.analyze entry context resolver ≠ .error .divergent resolver' := by
  intro h
  rcases analyze_error h with
    hproblem | ⟨problem, hproblem, hcause | ⟨first, inference, hfirst, hsolve⟩⟩
  · exact AnalysisProblem.ofBody_ne_divergent hproblem
  · cases hcause
  · exact solve_ne_divergent hroot hproblem hfirst entry inference hsolve

end Body

end Preverification

import Preverification.Proofs.Convergence

/-!
# Runs that do not see what a resolver keeps

Resolvers that have the same headers may keep different ones of them. No question tells such
resolvers apart: it has the same answer from both, and leaves resolvers that have these headers
again. The same holds for a merge of type states and for a visit of an operation. It holds for a
whole type inference, although the number of visits depends on what a resolver keeps, since an
inference never ends because the visits run out.

* `Beside` and `Blind`: two runs from states that belong together, and one run from two states.
* `Merge.blind_states`: merges do not see what a resolver keeps.
* `Body.blind_analyze`: nor does a type inference.
-/

namespace Preverification

/-! ### Two runs, one beside the other -/

section Beside

variable {ε σ τ α β α' β' : Type} {States : σ → τ → Prop} {Values : α → β → Prop}
  {Values' : α' → β' → Prop}

/-- Two runs end in the same way: with the same error, or with values that belong together. The
states that they leave belong together too. -/
inductive EndBeside (States : σ → τ → Prop) (Values : α → β → Prop) :
    EStateM.Result ε σ α → EStateM.Result ε τ β → Prop where
  | ok {value : α} {value' : β} {state : σ} {state' : τ} (hvalues : Values value value')
    (h : States state state') : EndBeside States Values (.ok value state) (.ok value' state')
  | error (error : ε) {state : σ} {state' : τ} (h : States state state') :
    EndBeside States Values (.error error state) (.error error state')

/-- From states that belong together, two runs end in the same way. -/
def Beside (States : σ → τ → Prop) (Values : α → β → Prop) (run : EStateM ε σ α)
    (run' : EStateM ε τ β) : Prop :=
  ∀ state state', States state state' → EndBeside States Values (run state) (run' state')

/-- Parts that run beside each other may be put together. -/
theorem Beside.bind {run : EStateM ε σ α} {run' : EStateM ε τ β} {next : α → EStateM ε σ α'}
    {next' : β → EStateM ε τ β'} (h : Beside States Values run run')
    (hnext : ∀ value value', Values value value' →
      Beside States Values' (next value) (next' value')) :
    Beside States Values' (run >>= next) (run' >>= next') := by
  intro state state' hstates
  have hends := h state state' hstates
  change EndBeside States Values' (EStateM.bind run next state) (EStateM.bind run' next' state')
  unfold EStateM.bind
  -- both ends are known to belong together, whatever the runs were
  generalize run state = ended at hends
  generalize run' state' = ended' at hends
  cases hends with
  | ok hvalues h => exact hnext _ _ hvalues _ _ h
  | error error h => exact .error error h

theorem beside_pure {value : α} {value' : β} (h : Values value value') :
    Beside States Values (pure value : EStateM ε σ α) (pure value' : EStateM ε τ β) :=
  fun _ _ hstates => .ok h hstates

/-- A check does not look at the state. -/
theorem beside_ofExcept (result : Except ε α) :
    Beside States (fun value value' => result = .ok value ∧ value = value')
      (MonadExcept.ofExcept result : EStateM ε σ α)
      (MonadExcept.ofExcept result : EStateM ε τ α) := by
  intro state state' hstates
  cases result with
  | ok value => exact .ok ⟨rfl, rfl⟩ hstates
  | error error => exact .error error hstates

/-- Runs over one list give lists of results that belong together. -/
theorem beside_mapM {γ : Type} {step : γ → EStateM ε σ α} {step' : γ → EStateM ε τ β} {l : List γ}
    (h : ∀ c ∈ l, Beside States Values (step c) (step' c)) :
    Beside States (List.Forall₂ Values) (l.mapM step) (l.mapM step') := by
  induction l with
  | nil => exact beside_pure .nil
  | cons c l ih =>
    obtain ⟨hfirst, hrest⟩ := List.forall_mem_cons.1 h
    rw [List.mapM_cons, List.mapM_cons]
    exact hfirst.bind fun _ _ hvalue => (ih hrest).bind fun _ _ hvalues =>
      beside_pure (.cons hvalue hvalues)

end Beside

/-! ### One run from two states -/

section Blind

variable {ε σ α β : Type} {Alike : σ → σ → Prop}

/-- Two runs end in the same way, and the states that they leave are alike. -/
inductive EndAlike (Alike : σ → σ → Prop) :
    EStateM.Result ε σ α → EStateM.Result ε σ α → Prop where
  | ok (value : α) {state state' : σ} (h : Alike state state') :
    EndAlike Alike (.ok value state) (.ok value state')
  | error (error : ε) {state state' : σ} (h : Alike state state') :
    EndAlike Alike (.error error state) (.error error state')

/-- A run does not tell states apart that are alike. -/
def Blind (Alike : σ → σ → Prop) (run : EStateM ε σ α) : Prop :=
  ∀ state state', Alike state state' → EndAlike Alike (run state) (run state')

/-- Ends are alike if they belong together with equal values. -/
theorem endAlike_iff {ended ended' : EStateM.Result ε σ α} :
    EndAlike Alike ended ended' ↔ EndBeside Alike Eq ended ended' := by
  constructor
  · rintro (⟨value, h⟩ | ⟨error, h⟩)
    · exact .ok rfl h
    · exact .error error h
  · rintro (⟨rfl, h⟩ | ⟨error, h⟩)
    · exact .ok _ h
    · exact .error error h

/-- A run is blind if it ends in the same way beside itself. -/
theorem blind_iff_beside {run : EStateM ε σ α} : Blind Alike run ↔ Beside Alike Eq run run :=
  forall_congr' fun _ => forall_congr' fun _ => imp_congr_right fun _ => endAlike_iff

/-- Runs that are blind may be put together. -/
theorem Blind.bind {run : EStateM ε σ α} {next : α → EStateM ε σ β} (h : Blind Alike run)
    (hnext : ∀ value, Blind Alike (next value)) : Blind Alike (run >>= next) := by
  refine blind_iff_beside.2 ((blind_iff_beside.1 h).bind ?_)
  rintro value _ rfl
  exact blind_iff_beside.1 (hnext value)

theorem blind_pure (value : α) : Blind Alike (pure value : EStateM ε σ α) :=
  fun _ _ halike => .ok value halike

theorem blind_throw (error : ε) : Blind Alike (throw error : EStateM ε σ α) :=
  fun _ _ halike => .error error halike

/-- A check does not look at the state. -/
theorem blind_ofExcept (result : Except ε α) :
    Blind Alike (MonadExcept.ofExcept result : EStateM ε σ α) := by
  cases result with
  | ok value => exact blind_pure value
  | error error => exact blind_throw error

/-- A run that looks at the state, but only at what states that are alike have in common. -/
theorem blind_get_bind {next : σ → EStateM ε σ β}
    (hsame : ∀ state state', Alike state state' → next state = next state')
    (hnext : ∀ state, Blind Alike (next state)) : Blind Alike (get >>= next) := by
  intro state state' halike
  change EndAlike Alike (next state state) (next state' state')
  rw [← hsame state state' halike]
  exact hnext state state state' halike

/-- A change that keeps states alike is blind. -/
theorem blind_modify {change : σ → σ}
    (h : ∀ state state', Alike state state' → Alike (change state) (change state')) :
    Blind Alike (modify change : EStateM ε σ Unit) :=
  fun state state' halike => .ok () (h state state' halike)

/-- A run behind a check. -/
theorem Blind.checked {run : EStateM ε σ α} (h : Blind Alike run) (fails : Prop)
    [Decidable fails] (error : ε) :
    Blind Alike (if fails then (do let _ ← (throw error : EStateM ε σ β); run) else run) := by
  split
  · exact (blind_throw error).bind fun _ => h
  · exact h

/-- A blind step may be taken for all elements of a list. -/
theorem blind_mapM {step : α → EStateM ε σ β} (h : ∀ a, Blind Alike (step a)) (l : List α) :
    Blind Alike (l.mapM step) := by
  have hsteps := beside_mapM (l := l) fun a _ => blind_iff_beside.1 (h a)
  rw [List.forall₂_eq_eq_eq] at hsteps
  exact blind_iff_beside.2 hsteps

theorem blind_forM {step : α → EStateM ε σ Unit} (h : ∀ a, Blind Alike (step a)) (l : List α) :
    Blind Alike (l.forM step) := by
  induction l with
  | nil => exact blind_pure ()
  | cons a l ih => exact (h a).bind fun _ => ih

/-- Looking for the first answer is blind too. -/
theorem blind_findSomeM? {step : α → EStateM ε σ (Option β)} (h : ∀ a, Blind Alike (step a))
    (l : List α) : Blind Alike (l.findSomeM? step) := by
  induction l with
  | nil => exact blind_pure none
  | cons a l ih =>
    refine (h a).bind fun found => ?_
    cases found with
    | some found => exact blind_pure _
    | none => exact ih

end Blind

/-! ### Questions -/

namespace Resolver

/-- Two resolvers have the same headers. -/
structure ShareHeaders (headers : Headers) (first second : Resolver) : Prop where
  first_eq : first.header? = headers
  second_eq : second.header? = headers

variable {headers : Headers} {α : Type}

/-- A question that has one answer without a memory is blind to it. -/
theorem blind_of_gives {question : Query α}
    (Answers : List BinaryName → Except ResolveError α → Prop)
    (hunique : ∀ {looked looked' answer answer'}, Answers looked answer →
      Answers looked' answer' → looked = looked' ∧ answer = answer')
    (hgives : ∀ resolver : Resolver, resolver.header? = headers →
      ∃ looked answer, Answers looked answer ∧ Gives question resolver looked answer) :
    Blind (ShareHeaders headers) question := by
  intro first second hshare
  obtain ⟨looked, answer, hanswer, left, hrun, hleft⟩ := hgives first hshare.first_eq
  obtain ⟨looked', answer', hanswer', left', hrun', hleft'⟩ := hgives second hshare.second_eq
  obtain ⟨-, rfl⟩ := hunique hanswer hanswer'
  have hshare' : ShareHeaders headers left left' :=
    ⟨hleft.header?_eq.trans hshare.first_eq, hleft'.header?_eq.trans hshare.second_eq⟩
  rw [hrun, hrun']
  cases answer with
  | ok value => exact .ok value hshare'
  | error error => exact .error error hshare'

/-- The chain of a class is found from headers alone. -/
theorem blind_ancestorChain (name : BinaryName) :
    Blind (ShareHeaders headers) (ancestorChain name) := by
  refine blind_of_gives (headers.Chain [] name) Headers.Chain.unique ?_
  rintro resolver rfl
  exact ancestorChain_gives name resolver

/-- The closest type of two types is the same for resolvers that share headers. -/
theorem blind_commonRefType (first second : RefType) :
    Blind (ShareHeaders headers) (commonRefType first second) := by
  refine blind_of_gives (headers.CommonRefType first second) Headers.CommonRefType.unique ?_
  rintro resolver rfl
  exact commonRefType_gives first second resolver

end Resolver

/-! ### Merges -/

namespace Merge

open Resolver

variable {headers : Headers} {α : Type}

/-- A merge asks what has one answer. -/
theorem blind_query {question : Query α} (h : Blind (ShareHeaders headers) question) :
    Blind (ShareHeaders headers) (query question) := by
  intro first second hshare
  have hends := h first second hshare
  unfold query
  generalize question first = ended at hends
  generalize question second = ended' at hends
  cases hends with
  | ok answer hshare' => exact .ok answer hshare'
  | error error hshare' => exact .error (MergeError.resolve error) hshare'

/-- Types are merged by a question at most. -/
theorem blind_types (first second : InferredType) :
    Blind (ShareHeaders headers) (types first second) := by
  unfold types
  split
  · exact blind_pure _
  · split
    case h_3 => exact (blind_query (blind_commonRefType _ _)).bind fun _ => blind_pure _
    all_goals exact blind_pure _

theorem blind_stackTypes (first second : InferredType) :
    Blind (ShareHeaders headers) (stackTypes first second) := by
  unfold stackTypes
  refine (blind_types first second).bind fun found => ?_
  cases found with
  | some type => exact blind_pure _
  | none => exact blind_throw _

/-- Stacks are merged value by value. -/
theorem blind_operandStacks (first second : OperandStack) :
    Blind (ShareHeaders headers) (operandStacks first second) := by
  unfold operandStacks
  apply Blind.checked
  refine (blind_mapM (fun pair => ?_) _).bind fun _ => blind_pure _
  exact blind_stackTypes pair.1 pair.2

theorem blind_locals (first second : List InferredType) :
    Blind (ShareHeaders headers) (locals first second) := by
  unfold locals
  refine (blind_mapM (fun pair => ?_) _).bind fun _ => blind_pure _
  exact (blind_types pair.1 pair.2).bind fun _ => blind_pure _

/-- Merges do not see what a resolver keeps. -/
theorem blind_states (first second : TypeState) :
    Blind (ShareHeaders headers) (states first second) := by
  unfold states
  exact (blind_operandStacks first.stack second.stack).bind fun _ =>
    (blind_locals first.locals second.locals).bind fun _ => blind_pure _

end Merge

/-! ### Type inference -/

namespace Inference

open Resolver

/-- Two inferences differ in nothing but what their resolvers keep. -/
inductive Alike (headers : Headers) : Inference → Inference → Prop where
  | mk (analysis : Analysis) (pending : List Nat) {resolver resolver' : Resolver}
    (h : ShareHeaders headers resolver resolver') :
    Alike headers ⟨analysis, pending, resolver⟩ ⟨analysis, pending, resolver'⟩

variable {headers : Headers} {α : Type}

/-- Inferences stay alike when a state is noted in both. -/
theorem Alike.note {first second : Inference} (h : Alike headers first second) (position : Nat)
    (state : TypeState) :
    Alike headers (first.note position state) (second.note position state) := by
  cases h with
  | mk analysis pending hshare => exact .mk _ _ hshare

theorem blind_observe (state : TypeState) : Blind (Alike headers) (modify fun inference =>
    { inference with analysis := inference.analysis.observe state } : Step Unit) := by
  apply blind_modify
  rintro _ _ ⟨analysis, pending, hshare⟩
  exact .mk _ _ hshare

/-- Inferences are alike at their start. -/
theorem alike_start (count first : Nat) (entry : TypeState) {resolver resolver' : Resolver}
    (h : Resolver.ShareHeaders headers resolver resolver') :
    Alike headers (start count first entry resolver) (start count first entry resolver') :=
  .note (.mk ⟨Array.replicate count none, 0, 0⟩ [] h) first entry

/-- What is known at an operation is the same in both, and so is what comes of a merge there. -/
theorem blind_mergeInto (flow : Flow) (position : Nat) (incoming : TypeState) :
    Blind (Alike headers) (mergeInto flow position incoming) := by
  rintro _ _ ⟨analysis, pending, hshare⟩
  unfold mergeInto
  dsimp only
  cases analysis.state? position with
  | none => exact .ok () (.note (.mk analysis pending hshare) position incoming)
  | some current =>
    have hends := Merge.blind_states current incoming _ _ hshare
    dsimp only
    generalize Merge.states current incoming _ = ended at hends
    generalize Merge.states current incoming _ = ended' at hends
    cases hends with
    | ok merged hshare' =>
      -- the resolvers that are left take the place of those that were asked
      by_cases hsame : merged = current
      · simp only [if_pos hsame]
        exact .ok () (.mk analysis pending hshare')
      · simp only [if_neg hsame]
        exact .ok () (.note (.mk analysis pending hshare') position merged)
    | error error hshare' =>
      cases error with
      | type error => exact .error _ (.mk analysis pending hshare')
      | resolve error => exact .error _ (.mk analysis pending hshare')

end Inference

namespace AnalysisProblem

open Inference

variable {headers : Headers}

/-- A visit asks for nothing but merges. -/
theorem blind_visit (problem : AnalysisProblem) (position : Nat) :
    Blind (Alike headers) (problem.visit position) := by
  apply blind_get_bind
  · rintro _ _ ⟨analysis, pending, hshare⟩
    rfl
  · intro inference
    split
    · refine (blind_observe _).bind fun _ => ?_
      refine (blind_ofExcept _).bind fun after => (blind_ofExcept _).bind fun successors => ?_
      refine (blind_observe after).bind fun _ => ?_
      refine (blind_forM (fun handler => ?_) _).bind fun _ => blind_forM (fun successor => ?_) _
      · exact (blind_mergeInto _ _ _).bind fun _ => blind_mergeInto _ _ _
      · exact blind_mergeInto _ _ _
    · exact blind_pure ()

/-- As many visits lead to the same end. -/
theorem blind_solve (problem : AnalysisProblem) (visits : Nat) :
    Blind (Alike headers) (problem.solve visits) := by
  induction visits with
  | zero =>
    apply blind_get_bind
    · rintro _ _ ⟨analysis, pending, hshare⟩
      rfl
    · intro inference
      split
      · exact blind_throw _
      · exact blind_pure ()
  | succ visits ih =>
    rintro _ _ ⟨analysis, pending, hshare⟩
    cases pending with
    | nil =>
      rw [solve_done rfl, solve_done rfl]
      exact .ok () (.mk analysis [] hshare)
    | cons position pending =>
      rw [solve_cons rfl, solve_cons rfl]
      exact ((blind_visit problem position).bind fun _ => ih) _ _ (.mk analysis pending hshare)

end AnalysisProblem

namespace Body

open Resolver

variable {headers : Headers}

/-- A type inference comes to the same end, since each makes as many visits as are enough. -/
theorem blind_analyze (hroot : (headers .object).bind (·.superclass) = none) (body : Body)
    (entry : TypeState) (context : MethodContext) :
    Blind (ShareHeaders headers) (body.analyze entry context) := by
  intro first second hshare
  unfold analyze
  cases hproblem : AnalysisProblem.ofBody body context with
  | error error => exact .error error hshare
  | ok problem =>
    dsimp only
    cases hfirst : problem.flow.operationFrom 0 with
    | none => exact .error _ hshare
    | some start =>
      -- the root has no superclass in either of the two
      have hroot' : (first.header? .object).bind (·.superclass) = none := by
        rw [hshare.first_eq, hroot]
      have hroot'' : (second.header? .object).bind (·.superclass) = none := by
        rw [hshare.second_eq, hroot]
      -- both may make as many visits as the two make together
      have henough := AnalysisProblem.solve_add (solve_ne_divergent hroot' hproblem hfirst entry)
        (body.visitBound entry context.constants second)
      have henough' := AnalysisProblem.solve_add
        (solve_ne_divergent hroot'' hproblem hfirst entry)
        (body.visitBound entry context.constants first)
      have hends := AnalysisProblem.blind_solve problem
        (body.visitBound entry context.constants first +
          body.visitBound entry context.constants second) _ _
        (Inference.alike_start body.nodes.length start entry hshare)
      rw [henough, Nat.add_comm, henough'] at hends
      unfold Inference.start at hends
      dsimp only
      -- the two runs end alike, and so do their results
      generalize problem.solve _ _ = ended at hends
      generalize problem.solve _ _ = ended' at hends
      cases hends with
      | ok _ halike =>
        cases halike with
        | mk analysis pending hshare' => exact .ok analysis hshare'
      | error error halike =>
        cases halike with
        | mk analysis pending hshare' => exact .error error hshare'

end Body

end Preverification

import Preverification.Proofs.ControlFlow

/-!
# Runs of bodies

What a body does when only its control flow is looked at. A call notes the place behind it and
jumps, and a return continues at the place that was noted last. All else continues with the next
operation or at one of its targets. Bodies are compared by what is seen of their runs, in which
there are no labels, a call is a null on the stack, and a return is a jump.

* `Bisimilar`: whatever one body shows, the other one shows at a place that corresponds.
* `IsBisimulation.runs`: runs from related places can be followed.
* `Bisimilar.isTrace_iff`: bisimilar bodies have the same traces.
-/

namespace Preverification

/-- The operation that comes next in a run, and the places to return to, the latest one first. -/
structure Config where
  position : Nat
  returns : List Nat

/-- How a run goes on from an operation. -/
inductive Choice where
  -- with the next operation
  | next
  -- at the target with an index
  | target (index : Nat)

/-- What is seen of an operation. -/
def Operation.seen : Operation Label → Operation Unit
  | branch (.jsr _) => .step .nullConst
  | branch (.ret _) => .branch (.goto ())
  | operation => operation.map fun _ => ()

/-- What is seen where a run has got to. -/
def Shows (nodes : List Node) (config : Config) (seen : Operation Unit) : Prop :=
  ∃ operation, nodes[config.position]? = some (.operation operation) ∧ operation.seen = seen

/-- A run goes on from one operation to another one. -/
inductive Step (nodes : List Node) : Config → Choice → Config → Prop where
  | next {position target : Nat} {operation : Operation Label} {returns : List Nat} :
      nodes[position]? = some (.operation operation) → operation.fallsThrough →
      Arrives nodes (position + 1) target →
      Step nodes ⟨position, returns⟩ .next ⟨target, returns⟩
  | jump {position place target index : Nat} {operation : Operation Label} {label : Label}
      {returns : List Nat} :
      nodes[position]? = some (.operation operation) → operation.isSubroutine = false →
      operation.targets[index]? = some label → nodes[place]? = some (.label label) →
      Arrives nodes place target →
      Step nodes ⟨position, returns⟩ (.target index) ⟨target, returns⟩
  | call {position place target : Nat} {label : Label} {returns : List Nat} :
      nodes[position]? = some (.operation (.branch (.jsr label))) →
      nodes[place]? = some (.label label) → Arrives nodes place target →
      Step nodes ⟨position, returns⟩ .next ⟨target, (position + 1) :: returns⟩
  | back {position behind target : Nat} {slot : UInt16} {returns : List Nat} :
      nodes[position]? = some (.operation (.branch (.ret slot))) → Arrives nodes behind target →
      Step nodes ⟨position, behind :: returns⟩ (.target 0) ⟨target, returns⟩

/-- A run shows some operations, one for each step. -/
inductive Runs (nodes : List Node) : Config → List (Operation Unit × Choice) → Config → Prop where
  | here (config : Config) : Runs nodes config [] config
  | step {start middle stop : Config} {seen : Operation Unit} {choice : Choice}
      {rest : List (Operation Unit × Choice)} :
      Shows nodes start seen → Step nodes start choice middle → Runs nodes middle rest stop →
      Runs nodes start ((seen, choice) :: rest) stop

/-- A trace of a body: what is seen of a run from the first operation on, which has not gone on from
the last operation. -/
def IsTrace (nodes : List Node) (steps : List (Operation Unit × Choice)) (last : Operation Unit) :
    Prop :=
  ∃ first stop, Arrives nodes 0 first ∧ Runs nodes ⟨first, []⟩ steps stop ∧ Shows nodes stop last

/-- Runs from related places show the same and go on in the same ways, to related places. -/
structure IsBisimulation (nodes nodes' : List Node) (R : Config → Config → Prop) : Prop where
  shows : ∀ config config', R config config' →
    ∃ seen, Shows nodes config seen ∧ Shows nodes' config' seen
  forth : ∀ config config' choice stop, R config config' → Step nodes config choice stop →
    ∃ stop', Step nodes' config' choice stop' ∧ R stop stop'
  back : ∀ config config' choice stop', R config config' → Step nodes' config' choice stop' →
    ∃ stop, Step nodes config choice stop ∧ R stop stop'

/-- Two bodies are bisimilar from their first operations. -/
def Bisimilar (nodes nodes' : List Node) : Prop :=
  ∃ R, IsBisimulation nodes nodes' R ∧
    (∀ first, Arrives nodes 0 first →
      ∃ first', Arrives nodes' 0 first' ∧ R ⟨first, []⟩ ⟨first', []⟩) ∧
    ∀ first', Arrives nodes' 0 first' →
      ∃ first, Arrives nodes 0 first ∧ R ⟨first, []⟩ ⟨first', []⟩

section Bisimilar

variable {nodes nodes' : List Node} {R : Config → Config → Prop}

/-- What is seen of a configuration is unique. -/
theorem Shows.unique {config : Config} {seen seen' : Operation Unit} (h : Shows nodes config seen)
    (h' : Shows nodes config seen') : seen = seen' := by
  rcases h with ⟨operation, ho, rfl⟩
  rcases h' with ⟨operation', ho', rfl⟩
  rw [ho] at ho'
  cases ho'
  rfl

/-- A bisimulation may be read the other way round. -/
theorem IsBisimulation.symm (h : IsBisimulation nodes nodes' R) :
    IsBisimulation nodes' nodes fun config' config => R config config' where
  shows config' config hr := by
    rcases h.shows config config' hr with ⟨seen, hseen, hseen'⟩
    exact ⟨seen, hseen', hseen⟩
  forth config' config choice stop' hr hstep := h.back config config' choice stop' hr hstep
  back config' config choice stop hr hstep := h.forth config config' choice stop hr hstep

/-- It does not matter which of two bisimilar bodies comes first. -/
theorem Bisimilar.symm (h : Bisimilar nodes nodes') : Bisimilar nodes' nodes := by
  rcases h with ⟨R, hbisim, hforth, hback⟩
  exact ⟨_, hbisim.symm, hback, hforth⟩

/-- A run is always at an operation. -/
theorem Step.shows {config stop : Config} {choice : Choice} (h : Step nodes config choice stop) :
    ∃ seen, Shows nodes stop seen := by
  have harrived : ∀ {position target : Nat} {returns : List Nat}, Arrives nodes position target →
      ∃ seen, Shows nodes ⟨target, returns⟩ seen := by
    intro position target returns ht
    rcases ht.operation with ⟨operation, ho⟩
    exact ⟨operation.seen, operation, ho, rfl⟩
  cases h with
  | next _ _ ht => exact harrived ht
  | jump _ _ _ _ ht => exact harrived ht
  | call _ _ ht => exact harrived ht
  | back _ ht => exact harrived ht

/-- Every body is bisimilar to itself. -/
theorem Bisimilar.refl (nodes : List Node) : Bisimilar nodes nodes := by
  refine ⟨fun config config' => config = config' ∧ ∃ seen, Shows nodes config seen,
    ⟨?_, ?_, ?_⟩, ?_, ?_⟩
  · rintro config _ ⟨rfl, seen, hseen⟩
    exact ⟨seen, hseen, hseen⟩
  · rintro config _ choice stop ⟨rfl, _⟩ hstep
    exact ⟨stop, hstep, rfl, hstep.shows⟩
  · rintro config _ choice stop ⟨rfl, _⟩ hstep
    exact ⟨stop, hstep, rfl, hstep.shows⟩
  · intro first ht
    rcases ht.operation with ⟨operation, ho⟩
    exact ⟨first, ht, rfl, operation.seen, operation, ho, rfl⟩
  · intro first ht
    rcases ht.operation with ⟨operation, ho⟩
    exact ⟨first, ht, rfl, operation.seen, operation, ho, rfl⟩

/-- Runs from related places can be followed. -/
theorem IsBisimulation.runs (h : IsBisimulation nodes nodes' R) {config config' stop : Config}
    {steps : List (Operation Unit × Choice)} (hr : R config config')
    (hruns : Runs nodes config steps stop) :
    ∃ stop', Runs nodes' config' steps stop' ∧ R stop stop' := by
  induction hruns generalizing config' with
  | here config => exact ⟨config', .here config', hr⟩
  | step hshows hstep _ ih =>
    rcases h.shows _ _ hr with ⟨seen', hseen, hseen'⟩
    cases hshows.unique hseen
    rcases h.forth _ _ _ _ hr hstep with ⟨middle', hstep', hr'⟩
    rcases ih hr' with ⟨stop', hruns', hr''⟩
    exact ⟨stop', .step hseen' hstep' hruns', hr''⟩

/-- A trace of one body is one of the other. -/
theorem Bisimilar.trace (h : Bisimilar nodes nodes') {steps : List (Operation Unit × Choice)}
    {last : Operation Unit} (ht : IsTrace nodes steps last) : IsTrace nodes' steps last := by
  rcases h with ⟨R, hbisim, hforth, _⟩
  rcases ht with ⟨first, stop, hfirst, hruns, hlast⟩
  rcases hforth first hfirst with ⟨first', hfirst', hr⟩
  rcases hbisim.runs hr hruns with ⟨stop', hruns', hr'⟩
  rcases hbisim.shows _ _ hr' with ⟨seen, hseen, hseen'⟩
  cases hlast.unique hseen
  exact ⟨first', stop', hfirst', hruns', hseen'⟩

/-- Bisimilar bodies have the same traces. -/
theorem Bisimilar.isTrace_iff (h : Bisimilar nodes nodes') (steps : List (Operation Unit × Choice))
    (last : Operation Unit) : IsTrace nodes steps last ↔ IsTrace nodes' steps last :=
  ⟨h.trace, h.symm.trace⟩

end Bisimilar

end Preverification

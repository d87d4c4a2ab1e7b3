import Preverification.Proofs.Inference

/-!
# Type inference covers all paths

A type inference that ends has a state in front of exactly the operations that a path reaches. On
every path all operations can run, and what is known at its end is below what was inferred there.

* `Inference.Covers`: what holds all through an inference.
* `AnalysisProblem.visit_covers`, `AnalysisProblem.solve_covers`: a visit keeps it, and so it holds
  at the end.
* `Body.analyze_covers_paths`: there is a state in front of just the operations that a path reaches,
  and it is above what is known there.
-/

namespace Preverification

variable {superclass : Superclasses} {body : Body} {context : MethodContext}

namespace Inference

/-- What is known at an operation has arrived everywhere where control may go from there. Control
does not leave the body there. -/
structure Settled (superclass : Superclasses) (body : Body) (context : MethodContext)
    (inference : Inference) (position : Nat) (before : TypeState) : Prop where
  runs : ∃ after, Body.typesBehind context body.nodes position before = .ok after
  goes : ∀ operation, body.nodes[position]? = some (.operation operation) →
    (∀ label ∈ operation.targets, ∃ place target,
      body.nodes[place]? = some (.label label) ∧ Arrives body.nodes place target) ∧
      (operation.fallsThrough → ∃ target, Arrives body.nodes (position + 1) target)
  arrives : ∀ way target, body.Leads context.constants position way target →
    ∃ after, Body.typesAcross context body.nodes position way before = .ok after ∧
      Receives superclass inference target after

/-- What holds all through an inference from an operation on. -/
structure Covers (superclass : Superclasses) (body : Body) (context : MethodContext)
    (first : Nat) (entry : TypeState) (inference : Inference) : Prop where
  sized : Sized superclass body.nodes.length inference
  paired : Paired entry.locals → inference.AllPaired
  entry : Receives superclass inference first entry
  reached : Within (fun position => ∃ steps, body.Path context.constants first steps position)
    inference
  settled : ∀ position before, inference.analysis.state? position = some before →
    position ∉ inference.pending → Settled superclass body context inference position before

theorem Settled.grow {old new : Inference} {position : Nat} {before : TypeState}
    (h : Settled superclass body context old position before)
    (hg : Grows superclass old new) : Settled superclass body context new position before where
  runs := h.runs
  goes := h.goes
  arrives way target hleads := by
    rcases h.arrives way target hleads with ⟨after, hafter, hreceives⟩
    exact ⟨after, hafter, hreceives.grow hg⟩

end Inference

namespace Body

/-- Control only goes to operations. -/
theorem Leads.operation {pool : Pool} {position target : Nat} {way : Way}
    (h : body.Leads pool position way target) :
    ∃ operation, body.nodes[target]? = some (.operation operation) := by
  cases h with
  | next hs =>
    cases hs with
    | jump _ _ _ harrives => exact harrives.operation
    | fallThrough _ _ harrives => exact harrives.operation
  | caughtBefore _ hguards _ =>
    rcases hguards.code with ⟨_, _, harrives⟩
    exact harrives.operation
  | caughtBehind _ hguards _ =>
    rcases hguards.code with ⟨_, _, harrives⟩
    exact harrives.operation

/-- A path leads to operations only. -/
theorem Path.operation {pool : Pool} {first position : Nat} {steps : List (Nat × Way)}
    (hfirst : ∃ operation, body.nodes[first]? = some (.operation operation))
    (h : body.Path pool first steps position) :
    ∃ operation, body.nodes[position]? = some (.operation operation) := by
  cases h with
  | here => exact hfirst
  | step _ hleads => exact hleads.operation

/-- What is known behind an operation is lower where less is known in front of it. -/
theorem typesBehind_below {nodes : List Node} {position : Nat} {state above above' : TypeState}
    (hle : TypeState.Below superclass state above)
    (h : typesBehind context nodes position above = .ok above') :
    ∃ state', typesBehind context nodes position state = .ok state' ∧
      TypeState.Below superclass state' above' := by
  rcases typesBehind_ok.1 h with ⟨operation, ho, hrun⟩ | ⟨hnone, rfl⟩
  · rcases Transfer.operation_below hle hrun with ⟨state', hrun', hle'⟩
    exact ⟨state', typesBehind_ok.2 (.inl ⟨operation, ho, hrun'⟩), hle'⟩
  · exact ⟨state, typesBehind_ok.2 (.inr ⟨hnone, rfl⟩), hle⟩

/-- Whatever control does behind an operation, lower states lead to lower ones. -/
theorem typesAcross_below {nodes : List Node} {position : Nat} {way : Way}
    {state above above' : TypeState} (hle : TypeState.Below superclass state above)
    (h : typesAcross context nodes position way above = .ok above') :
    ∃ state', typesAcross context nodes position way state = .ok state' ∧
      TypeState.Below superclass state' above' := by
  cases way with
  | next => exact typesBehind_below hle h
  | caughtBefore type =>
    cases h
    exact ⟨_, rfl, hle.handlerEntry type⟩
  | caughtBehind type =>
    rcases except_bind_ok.1 h with ⟨found, hfound, h⟩
    cases h
    rcases typesBehind_below hle hfound with ⟨state', hstate', hle'⟩
    exact ⟨_, except_bind_ok.2 ⟨state', hstate', rfl⟩, hle'.handlerEntry type⟩

/-- Whatever control does behind an operation, lower states lead to lower ones along the transitive
order. -/
theorem typesAcross_under {nodes : List Node} {position : Nat} {way : Way}
    {state above above' : TypeState} (hle : TypeState.Under superclass state above)
    (h : typesAcross context nodes position way above = .ok above') :
    ∃ state', typesAcross context nodes position way state = .ok state' ∧
      TypeState.Under superclass state' above' := by
  induction hle generalizing above' with
  | refl => exact ⟨above', h, .refl above'⟩
  | tail _ hlast ih =>
    rcases typesAcross_below hlast h with ⟨between, hbetween, hle'⟩
    rcases ih hbetween with ⟨state', hstate', hle''⟩
    exact ⟨state', hstate', hle''.trans hle'.under⟩

/-- Operations keep values of two slots whole. -/
theorem typesBehind_paired {nodes : List Node} {position : Nat} {state after : TypeState}
    (hp : Paired state.locals) (h : typesBehind context nodes position state = .ok after) :
    Paired after.locals := by
  rcases typesBehind_ok.1 h with ⟨operation, -, hrun⟩ | ⟨-, rfl⟩
  · exact Transfer.operation_paired hp hrun
  · exact hp

/-- Handlers keep them whole, too. -/
theorem typesAcross_paired {nodes : List Node} {position : Nat} {way : Way}
    {state after : TypeState} (hp : Paired state.locals)
    (h : typesAcross context nodes position way state = .ok after) : Paired after.locals := by
  cases way with
  | next => exact typesBehind_paired hp h
  | caughtBefore type =>
    cases h
    exact hp
  | caughtBehind type =>
    rcases except_bind_ok.1 h with ⟨found, hfound, h⟩
    cases h
    exact (typesBehind_paired hp hfound : Paired found.locals)

/-- A path that goes on has one more effect. -/
theorem typesAlong_append {nodes : List Node} {steps : List (Nat × Way)} {position : Nat}
    {way : Way} {state after : TypeState} :
    typesAlong context nodes (steps ++ [(position, way)]) state = .ok after ↔
      ∃ middle, typesAlong context nodes steps state = .ok middle ∧
        typesAcross context nodes position way middle = .ok after := by
  unfold typesAlong
  rw [List.foldlM_append, except_bind_ok]
  simp

end Body

namespace AnalysisProblem.Poses

variable {problem : AnalysisProblem} {first position : Nat} {entry : TypeState}

/-- Whatever flows from an operation goes on some way from there. -/
theorem mem_flows (hp : problem.Poses body context) {operation : Operation Label}
    (ho : body.nodes[position]? = some (.operation operation)) {successors : List Nat}
    (hs : problem.successors position operation = .ok successors) {before after : TypeState}
    (hafter : Body.typesBehind context body.nodes position before = .ok after)
    (target : Nat) (state : TypeState) :
    (target, state) ∈ problem.flows position successors before after ↔
      ∃ way, body.Leads context.constants position way target ∧
        Body.typesAcross context body.nodes position way before = .ok state := by
  -- the handlers around an operation, by what they catch
  have hcaught : ∀ type, (∃ placed ∈ problem.handlersAt position,
      placed.target = target ∧ placed.caught = type) ↔
      ∃ handler ∈ body.handlers, handler.Guards body.nodes position target ∧
        handler.Catches context.constants type := fun type => hp.mem_handlersAt
  simp only [flows, List.mem_append, List.mem_flatMap, List.mem_cons, List.not_mem_nil, or_false,
    Prod.mk.injEq]
  constructor
  · -- a handler is entered from in front of the operation, and from behind it
    rintro (⟨placed, hmem, hcase⟩ | ⟨successor, hmem, rfl, rfl⟩)
    · rcases hcase with ⟨rfl, rfl⟩ | ⟨rfl, rfl⟩
      · rcases (hcaught placed.caught).1 ⟨placed, hmem, rfl, rfl⟩ with
          ⟨handler, hhandler, hguards, hcatches⟩
        exact ⟨.caughtBefore placed.caught, .caughtBefore hhandler hguards hcatches, rfl⟩
      · rcases (hcaught placed.caught).1 ⟨placed, hmem, rfl, rfl⟩ with
          ⟨handler, hhandler, hguards, hcatches⟩
        exact ⟨.caughtBehind placed.caught, .caughtBehind hhandler hguards hcatches,
          except_bind_ok.2 ⟨after, hafter, rfl⟩⟩
    · exact ⟨.next, .next ((hp.mem_successors ho hs).1 hmem), hafter⟩
  · -- the three ways from an operation
    rintro ⟨way, hleads, hstate⟩
    cases hleads with
    | next hsucc =>
      cases hafter.symm.trans hstate
      exact .inr ⟨target, (hp.mem_successors ho hs).2 hsucc, rfl, rfl⟩
    | caughtBefore hhandler hguards hcatches =>
      cases hstate
      rcases (hcaught _).2 ⟨_, hhandler, hguards, hcatches⟩ with ⟨placed, hmem, rfl, rfl⟩
      exact .inl ⟨placed, hmem, .inl ⟨rfl, rfl⟩⟩
    | caughtBehind hhandler hguards hcatches =>
      rcases except_bind_ok.1 hstate with ⟨found, hfound, hstate⟩
      cases hafter.symm.trans hfound
      cases hstate
      rcases (hcaught _).2 ⟨_, hhandler, hguards, hcatches⟩ with ⟨placed, hmem, rfl, rfl⟩
      exact .inl ⟨placed, hmem, .inr ⟨rfl, rfl⟩⟩

end AnalysisProblem.Poses

namespace AnalysisProblem

open Inference

variable {problem : AnalysisProblem} {first position : Nat} {entry : TypeState}
  {old new : Inference}

/-- Where what flows from an operation has arrived, the operation is settled. -/
theorem settled_of_receives (hp : problem.Poses body context) {operation : Operation Label}
    (ho : body.nodes[position]? = some (.operation operation)) {successors : List Nat}
    (hs : problem.successors position operation = .ok successors) {before after : TypeState}
    (hafter : Body.typesBehind context body.nodes position before = .ok after)
    (hreceives : ∀ merge ∈ problem.flows position successors before after,
      Receives superclass new merge.1 merge.2) :
    Settled superclass body context new position before := by
  refine ⟨⟨after, hafter⟩, fun found hfound => ?_, fun way target hleads => ?_⟩
  · cases ho.symm.trans hfound
    exact hp.successors_arrive hs
  · -- it runs, so that there is a state on every way from it
    have hacross : ∃ state,
        Body.typesAcross context body.nodes position way before = .ok state := by
      cases way with
      | next => exact ⟨after, hafter⟩
      | caughtBefore type => exact ⟨_, rfl⟩
      | caughtBehind type => exact ⟨_, except_bind_ok.2 ⟨after, hafter, rfl⟩⟩
    rcases hacross with ⟨state, hstate⟩
    have hmem := (hp.mem_flows ho hs hafter target state).2 ⟨way, hleads, hstate⟩
    exact ⟨state, hstate, hreceives _ hmem⟩

/-- An operation at which nothing is known need not be pending. -/
theorem covers_of_none {pending : List Nat} (hpending : old.pending = position :: pending)
    (hc : Covers superclass body context first entry old)
    (hbefore : old.analysis.state? position = none) :
    Covers superclass body context first entry { old with pending } := by
  refine ⟨⟨hc.sized.superclass_eq, hc.sized.size_eq⟩, hc.paired, hc.entry, hc.reached, ?_⟩
  intro other before hother hnot
  have hne : other ≠ position := by
    rintro rfl
    exact absurd (hother.symm.trans hbefore) nofun
  have hsettled := hc.settled other before hother (by simp [hpending, hne, hnot])
  exact ⟨hsettled.runs, hsettled.goes, hsettled.arrives⟩

/-- What holds all through an inference is kept when what flows from a pending operation is merged
everywhere where it goes. The operation is pending no more, unless its state has changed. -/
theorem covers_of_delivers (hp : problem.Poses body context)
    {pending : List Nat} (hpending : old.pending = position :: pending)
    (hc : Covers superclass body context first entry old) {before after : TypeState}
    (hbefore : old.analysis.state? position = some before) {operation : Operation Label}
    (ho : body.nodes[position]? = some (.operation operation)) {successors : List Nat}
    (hs : problem.successors position operation = .ok successors)
    (hafter : Body.typesBehind context body.nodes position before = .ok after)
    (hdelivers : Delivers superclass (problem.flows position successors before after)
      { old with pending } new) :
    Covers superclass body context first entry new := by
  rcases hc.reached position before hbefore with ⟨steps, hpath⟩
  have hsized : Sized superclass body.nodes.length { old with pending } :=
    ⟨hc.sized.superclass_eq, hc.sized.size_eq⟩
  have hflows := hp.mem_flows ho hs hafter
  -- all operations are settled, except those that are pending now
  refine ⟨hsized.grow hdelivers.grows, ?_, ?_, ?_, ?_⟩
  · intro hpaired
    refine hdelivers.paired (hc.paired hpaired) ?_
    rintro ⟨target, state⟩ hmem
    rcases (hflows target state).1 hmem with ⟨way, _, hstate⟩
    exact Body.typesAcross_paired (hc.paired hpaired position before hbefore) hstate
  · have hentry : Receives superclass { old with pending } first entry := hc.entry
    exact hentry.grow hdelivers.grows
  · refine hdelivers.within ?_ hc.reached
    rintro ⟨target, state⟩ hmem
    rcases (hflows target state).1 hmem with ⟨way, hleads, _⟩
    exact ⟨_, hpath.step hleads⟩
  · intro other state hstate hnot
    have hsame := hdelivers.grows.keeps other hnot
    rw [hsame] at hstate
    by_cases hother : other = position
    · -- what is known behind the operation has just arrived
      subst hother
      cases hstate.symm.trans hbefore
      exact settled_of_receives hp ho hs hafter hdelivers.receives
    · -- elsewhere nothing has changed, and more has arrived
      have hnot' : other ∉ old.pending := by
        rw [hpending, List.mem_cons, not_or]
        exact ⟨hother, fun hmem => hnot (hdelivers.grows.pending other hmem)⟩
      have hsettled : Settled superclass body context { old with pending } other state :=
        have h := hc.settled other state hstate hnot'
        ⟨h.runs, h.goes, h.arrives⟩
      exact hsettled.grow hdelivers.grows

/-- A visit keeps what holds all through an inference. -/
theorem visit_covers (hp : problem.Poses body context)
    (hfirst : ∃ operation, body.nodes[first]? = some (.operation operation))
    {pending : List Nat} (hpending : old.pending = position :: pending)
    (hc : Covers superclass body context first entry old)
    (h : problem.visit position { old with pending } = .ok () new) :
    Covers superclass body context first entry new := by
  cases hbefore : old.analysis.state? position with
  | none =>
    cases visit_of_none (show ({ old with pending } : Inference).analysis.state? position = none
      from hbefore) h
    exact covers_of_none hpending hc hbefore
  | some before =>
    rcases hc.reached position before hbefore with ⟨steps, hpath⟩
    rcases hpath.operation hfirst with ⟨operation, ho⟩
    have hlt : ∀ target, (∃ found, body.nodes[target]? = some (.operation found)) →
        target < body.nodes.length := fun target ⟨_, hfound⟩ =>
      (List.getElem?_eq_some_iff.1 hfound).1
    have hsized : Sized superclass body.nodes.length { old with pending } :=
      ⟨hc.sized.superclass_eq, hc.sized.size_eq⟩
    -- handlers and successors are operations of the body
    have hhandlers : ∀ handler ∈ problem.handlersAt position,
        handler.target < body.nodes.length := by
      intro placed hmem
      rcases hp.mem_handlersAt.1 ⟨placed, hmem, rfl, rfl⟩ with
        ⟨handler, hhandler, hguards, hcatches⟩
      exact hlt _ (Body.Leads.caughtBefore hhandler hguards hcatches).operation
    have hsuccessors : ∀ successors, problem.successors position operation = .ok successors →
        ∀ successor ∈ successors, successor < body.nodes.length := by
      intro successors hs successor hmem
      have hsucc := (hp.mem_successors ho hs).1 hmem
      exact hlt _ (@Body.Leads.next body context.constants _ _ hsucc).operation
    rcases visit_ok hsized hbefore ((hp.nodes_eq position).trans ho) hhandlers hsuccessors h
      with ⟨after, successors, hafter, hs, hdelivers⟩
    exact covers_of_delivers hp hpending hc hbefore ho hs ((hp.execute_ok ho).1 hafter)
      hdelivers

/-- What holds all through an inference holds at its end, where no operation is pending. -/
theorem solve_covers (hp : problem.Poses body context)
    (hfirst : ∃ operation, body.nodes[first]? = some (.operation operation)) (visits : Nat)
    (hc : Covers superclass body context first entry old)
    (h : problem.solve visits old = .ok () new) :
    Covers superclass body context first entry new ∧ new.pending = [] :=
  solve_keeps (visit_covers hp hfirst) hc visits h

end AnalysisProblem

namespace Inference.Covers

variable {inference : Inference} {first : Nat} {entry : TypeState}

/-- At the start, only the first operation has a state, and it is pending. -/
theorem start (body : Body) (context : MethodContext) (entry : TypeState) (resolver : Resolver)
    (hfirst : first < body.nodes.length) :
    Covers resolver.superclass? body context first entry
      (.start body.nodes.length first entry resolver) := by
  refine ⟨⟨rfl, size_start ..⟩, ?_, ⟨entry, ?_, .refl entry⟩, ?_, ?_⟩
  · intro hpaired position state hs
    obtain ⟨-, rfl⟩ := eq_of_state?_start hfirst hs
    exact hpaired
  · rw [state?_start hfirst, if_pos rfl]
  · intro position state hs
    obtain ⟨rfl, -⟩ := eq_of_state?_start hfirst hs
    exact ⟨[], .here position⟩
  · intro position state hs hnot
    obtain ⟨rfl, -⟩ := eq_of_state?_start hfirst hs
    exact absurd (mem_pending_start ..) hnot

/-- Where nothing is pending, what is known at the end of a path is below what was inferred. -/
theorem along (hc : Covers superclass body context first entry inference)
    (hdone : inference.pending = []) {steps : List (Nat × Way)} {position : Nat}
    (h : body.Path context.constants first steps position) :
    ∃ state, Body.typesAlong context body.nodes steps entry = .ok state ∧
      Receives superclass inference position state := by
  induction h with
  | here => exact ⟨entry, rfl, hc.entry⟩
  | @step middle stop steps way _ hleads ih =>
    rcases ih with ⟨state, hstate, known, hknown, hle⟩
    -- the last step starts where nothing is pending
    have hsettled := hc.settled middle known hknown (by simp [hdone])
    rcases hsettled.arrives way stop hleads with ⟨after, hafter, hreceives⟩
    rcases Body.typesAcross_under hle hafter with ⟨state', hstate', hle'⟩
    rcases hreceives with ⟨later, hlater, hle''⟩
    exact ⟨state', Body.typesAlong_append.2 ⟨state, hstate, hstate'⟩, later, hlater,
      hle'.trans hle''⟩

/-- Where nothing is pending, an operation with a state is the first one, or control comes from
another one with a state. -/
theorem came (hc : Covers superclass body context first entry inference)
    (hdone : inference.pending = []) {position : Nat} (hlive : inference.analysis.isLive position) :
    position = first ∨ ∃ previous way, inference.analysis.isLive previous ∧
      body.Leads context.constants previous way position := by
  rcases Option.isSome_iff_exists.1 hlive with ⟨state, hstate⟩
  rcases hc.reached position state hstate with ⟨steps, hpath⟩
  cases hpath with
  | here => exact .inl rfl
  | @step middle _ steps way hbefore hleads =>
    rcases hc.along hdone hbefore with ⟨_, _, known, hknown, _⟩
    exact .inr ⟨middle, way, Option.isSome_iff_exists.2 ⟨known, hknown⟩, hleads⟩

end Inference.Covers

namespace Body

variable {entry : TypeState} {resolver resolver' : Resolver} {analysis : Analysis}

/-- At the end of an analysis of the problem that a body poses, there is an inference that covers
all paths. -/
theorem analyze_ok
    (h : body.analyze entry context resolver = .ok analysis resolver') :
    ∃ problem first inference, AnalysisProblem.Poses problem body context ∧
      Arrives body.nodes 0 first ∧ inference.analysis = analysis ∧ inference.pending = [] ∧
      Inference.Covers resolver.superclass? body context first entry inference := by
  rcases analyze_solves h with ⟨problem, first, inference, hproblem, harrives, hsame, -, hsolve⟩
  have hp := AnalysisProblem.ofBody_ok hproblem
  have hstart := Inference.Covers.start body context entry resolver harrives.lt_length
  rcases AnalysisProblem.solve_covers hp harrives.operation _ hstart hsolve with ⟨hcovers, hdone⟩
  exact ⟨problem, first, inference, hp, harrives, hsame, hdone, hcovers⟩

/-- Type inference is sound over all paths. It finds a state in front of exactly the operations
that a path reaches from the first one. On every path all operations can run, the last one too, and
what is known at its end is below what was inferred there. -/
theorem analyze_covers_paths (hr : resolver.superclass?.Rooted)
    (h : body.analyze entry context resolver = .ok analysis resolver') :
    ∃ first, Arrives body.nodes 0 first ∧
      (∀ position, analysis.isLive position ↔
        ∃ steps, body.Path context.constants first steps position) ∧
      ∀ steps position, body.Path context.constants first steps position →
        ∃ state known, typesAlong context body.nodes steps entry = .ok state ∧
          analysis.state? position = some known ∧
          TypeState.Below resolver.superclass? state known ∧
          ∃ after, typesBehind context body.nodes position state = .ok after := by
  rcases analyze_ok h with ⟨_, first, inference, _, harrives, rfl, hdone, hc⟩
  refine ⟨first, harrives, fun position => ?_, fun steps position hpath => ?_⟩
  · unfold Analysis.isLive
    rw [Option.isSome_iff_exists]
    constructor
    · rintro ⟨state, hstate⟩
      exact hc.reached position state hstate
    · rintro ⟨steps, hpath⟩
      rcases hc.along hdone hpath with ⟨_, _, known, hknown, _⟩
      exact ⟨known, hknown⟩
  · rcases hc.along hdone hpath with ⟨state, hstate, known, hknown, hunder⟩
    have hle := hunder.below hr
    rcases (hc.settled position known hknown (by simp [hdone])).runs with ⟨after, hafter⟩
    rcases typesBehind_below hle hafter with ⟨after', hafter', _⟩
    exact ⟨state, known, hstate, hknown, hle, after', hafter'⟩

/-! ### A loop inside the range of a handler -/

/-- Loops on null. A handler around the loop throws again what it catches. -/
def guardedLoop : Body where
  maxStack := 1
  maxLocals := 0
  nodes :=
    [.label ⟨0⟩, .operation (.step .nullConst), .operation (.branch (.ifNull .eq ⟨0⟩)),
      .label ⟨1⟩, .operation (.branch .returnVoid), .label ⟨2⟩,
      .operation (.branch .throwException)]
  handlers := [⟨⟨0⟩, ⟨1⟩, ⟨2⟩, none⟩]
  localVariables := []
  variableTypes := []
  attributes := []
  issued := 3

/-- The method of which `guardedLoop` is the body. -/
def guardedLoopContext : MethodContext := ⟨∅, .object, none⟩

/-- The control flow of `guardedLoop`. -/
def guardedLoopFlow : Flow where
  nodes := guardedLoop.nodes.toArray
  positions := ((∅ : Std.HashMap Label Nat).insert ⟨0⟩ 0).insert ⟨1⟩ 3 |>.insert ⟨2⟩ 5
  next := #[some 1, some 1, some 2, some 4, some 4, some 6, some 6, none]
  numbers := #[0, 0, 1, 2, 2, 3, 3, 4]

/-- What type inference finds out about `guardedLoop`. -/
def guardedLoopAnalysis : Analysis where
  states :=
    #[none, some ⟨[], ∅⟩, some ⟨[], .ofValues [.null]⟩, none, some ⟨[], ∅⟩, none,
      some ⟨[], .ofValues [.object (.object .throwable)]⟩]
  maxStack := 1
  maxLocals := 0

theorem guardedLoop_flow : guardedLoop.flow = .ok guardedLoopFlow := by
  have hpositions : guardedLoop.labelPositions = .ok guardedLoopFlow.positions := by
    simp [guardedLoop, guardedLoopFlow, labelPositions, placeLabels, Node.label?]
  unfold flow
  rw [hpositions]
  rfl

/-- The problem that `guardedLoop` poses. -/
def guardedLoopProblem : AnalysisProblem :=
  ⟨guardedLoopFlow, [⟨0, 3, 6, .object (.object .throwable)⟩], guardedLoopContext⟩

theorem guardedLoop_problem :
    AnalysisProblem.ofBody guardedLoop guardedLoopContext = .ok guardedLoopProblem := by
  have hposition := (flow_describes guardedLoop_flow).position_ok
  have hstart : guardedLoopFlow.position ⟨0⟩ = .ok 0 := (hposition _ _).2 rfl
  have hstop : guardedLoopFlow.position ⟨1⟩ = .ok 3 := (hposition _ _).2 rfl
  have hcode : guardedLoopFlow.position ⟨2⟩ = .ok 5 := (hposition _ _).2 rfl
  unfold AnalysisProblem.ofBody
  rw [guardedLoop_flow]
  simp only [guardedLoop, Except.mapError, bind, Except.bind, AnalysisProblem.placeHandler,
    hstart, hstop, hcode, List.mapM_cons, List.mapM_nil, Flow.operationAt]
  rfl

/-- Four visits are enough, since nothing is new when control comes back. -/
theorem guardedLoop_solve (resolver : Resolver) (visits : Nat) :
    guardedLoopProblem.solve (visits + 4)
      (.start 7 1 ⟨[], ∅⟩ resolver) = .ok () ⟨guardedLoopAnalysis, [], resolver⟩ := by
  have hstart : guardedLoopFlow.position ⟨0⟩ = .ok 0 :=
    ((flow_describes guardedLoop_flow).position_ok _ _).2 rfl
  have hsuccessors : guardedLoopProblem.successors 2 (.branch (.ifNull .eq ⟨0⟩)) = .ok [1, 4] := by
    simp only [AnalysisProblem.successors, Operation.targets, Branch.targets, List.mapM_cons,
      List.mapM_nil, AnalysisProblem.jumpTarget, guardedLoopProblem, Flow.operationAt, hstart]
    rfl
  -- the handler covers the push alone, so it is entered from there
  have hpush : guardedLoopProblem.visit 1
      ⟨⟨#[none, some ⟨[], ∅⟩, none, none, none, none, none], 0, 0⟩, [], resolver⟩ = .ok ()
      ⟨⟨#[none, some ⟨[], ∅⟩, some ⟨[], .ofValues [.null]⟩, none, none, none,
        some ⟨[], .ofValues [.object (.object .throwable)]⟩], 1, 0⟩, [2, 6], resolver⟩ :=
    AnalysisProblem.visit_of_merges (.step .nullConst) ⟨[], ∅⟩ ⟨[], .ofValues [.null]⟩ [2]
      rfl rfl rfl rfl rfl
  have hjump : guardedLoopProblem.visit 2
      ⟨⟨#[none, some ⟨[], ∅⟩, some ⟨[], .ofValues [.null]⟩, none, none, none,
        some ⟨[], .ofValues [.object (.object .throwable)]⟩], 1, 0⟩, [6], resolver⟩ = .ok ()
      ⟨guardedLoopAnalysis, [4, 6], resolver⟩ :=
    AnalysisProblem.visit_of_merges (.branch (.ifNull .eq ⟨0⟩)) ⟨[], .ofValues [.null]⟩ ⟨[], ∅⟩
      [1, 4] rfl rfl rfl hsuccessors rfl
  have hreturn : guardedLoopProblem.visit 4 ⟨guardedLoopAnalysis, [6], resolver⟩ = .ok ()
      ⟨guardedLoopAnalysis, [6], resolver⟩ :=
    AnalysisProblem.visit_of_merges (.branch .returnVoid) ⟨[], ∅⟩ ⟨[], ∅⟩ [] rfl rfl rfl rfl rfl
  have hthrow : guardedLoopProblem.visit 6 ⟨guardedLoopAnalysis, [], resolver⟩ = .ok ()
      ⟨guardedLoopAnalysis, [], resolver⟩ :=
    AnalysisProblem.visit_of_merges (.branch .throwException)
      ⟨[], .ofValues [.object (.object .throwable)]⟩ ⟨[], ∅⟩ [] rfl rfl rfl rfl rfl
  exact AnalysisProblem.solve_of_visit _ rfl hpush (AnalysisProblem.solve_of_visit _ rfl hjump
    (AnalysisProblem.solve_of_visit _ rfl hreturn (AnalysisProblem.solve_of_visit _ rfl hthrow
      (AnalysisProblem.solve_done rfl visits))))

theorem guardedLoop_analyze (resolver : Resolver) :
    guardedLoop.analyze ⟨[], ∅⟩ guardedLoopContext resolver =
      .ok guardedLoopAnalysis resolver := by
  refine analyze_of_solve ⟨guardedLoopAnalysis, [], resolver⟩ guardedLoop_problem rfl
    fun visits hle => ?_
  obtain ⟨more, rfl⟩ : ∃ more, visits = more + 4 :=
    Nat.exists_eq_add_of_le' (Nat.le_trans (show 4 ≤ guardedLoop.nodes.length by decide) hle)
  exact guardedLoop_solve resolver more

/-- All paths through `guardedLoop` are covered. -/
theorem guardedLoop_covers_paths : ∃ first, Arrives guardedLoop.nodes 0 first ∧
    (∀ position, guardedLoopAnalysis.isLive position ↔
      ∃ steps, guardedLoop.Path ∅ first steps position) ∧
    ∀ steps position, guardedLoop.Path ∅ first steps position →
      ∃ state known, typesAlong guardedLoopContext guardedLoop.nodes steps ⟨[], ∅⟩ = .ok state ∧
        guardedLoopAnalysis.state? position = some known ∧
        TypeState.Below (Resolver.ofClassPath ∅).superclass? state known ∧
        ∃ after, typesBehind guardedLoopContext guardedLoop.nodes position state = .ok after :=
  analyze_covers_paths Resolver.rooted_of_empty (guardedLoop_analyze (.ofClassPath ∅))

end Body

end Preverification

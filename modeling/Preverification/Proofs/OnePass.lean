import Preverification.Proofs.Coverage
import Preverification.Proofs.Frames
import Preverification.Proofs.LiveCode

/-!
# Checking types in one pass

A check that goes through a body once, from the first node to the last one. It knows what is known
at the entry and the frames at some places, and does not look back. If the frames are those of an
analysis, at all places to which control may jump, then the check succeeds on the body without its
unreachable code: what it knows in front of an operation is below what the analysis has found out.

* `OnePass.Checks`: a check that goes through a body once, and knows the frames.
* `Analysis.Rewrites`: what emission leaves of a body, and its frames.
* `OnePass.Outcome.exists_passes`: where less is known than the analysis has found out, an operation
  passes.
* `OnePass.Outcome.checks`: the check succeeds on the body that is written.
-/

namespace Preverification

/-- Frames, each at a place of a body. -/
abbrev PlacedFrames := List (Nat × Frame InferredType)

namespace OnePass

/-- What is known in front of an operation, when `current` falls into it. A frame replaces what
falls into it, and has to be above that. -/
def Starts (superclass : Superclasses) (frames : PlacedFrames) (place : Nat)
    (current : Option TypeState) (before : TypeState) : Prop :=
  match frames.lookup place with
  | some frame =>
    before = frame.state ∧ ∀ state, current = some state → TypeState.Below superclass state before
  | none => current = some before

/-- There is a frame at a place, and it is above a state. -/
def Fits (superclass : Superclasses) (frames : PlacedFrames) (place : Nat) (state : TypeState) :
    Prop :=
  ∃ frame, frames.lookup place = some frame ∧ TypeState.Below superclass state frame.state

/-- An operation passes: it can run, and what is known behind it fits the frames where its jumps
arrive. What is known in front of it and behind it fits the frames of the handlers around it. -/
structure Passes (superclass : Superclasses) (context : MethodContext) (body : Body)
    (frames : PlacedFrames) (place : Nat) (operation : Operation Label)
    (before after : TypeState) : Prop where
  runs : Body.typesBehind context body.nodes place before = .ok after
  jumps : ∀ label ∈ operation.targets, ∃ labelled target : Nat,
    body.nodes[labelled]? = some (.label label) ∧ Arrives body.nodes labelled target ∧
      Fits superclass frames target after
  handlers : ∀ handler ∈ body.handlers, ∀ start stop : Nat,
    body.nodes[start]? = some (.label handler.start) →
      body.nodes[stop]? = some (.label handler.stop) → start ≤ place → place < stop →
        ∃ target type, handler.Guards body.nodes place target ∧
          handler.Catches context.constants type ∧
          Fits superclass frames target (before.handlerEntry type) ∧
          Fits superclass frames target (after.handlerEntry type)

/-- The check of a body from a place on, when `current` is known there. Nothing is known behind an
operation that does not fall through. -/
inductive Checks (superclass : Superclasses) (context : MethodContext) (body : Body)
    (frames : PlacedFrames) : Nat → Option TypeState → Prop where
  | done {place : Nat} :
      body.nodes.length ≤ place → Checks superclass context body frames place none
  | skip {place : Nat} {node : Node} {current : Option TypeState} :
      body.nodes[place]? = some node → node.isOperation = false →
      Checks superclass context body frames (place + 1) current →
      Checks superclass context body frames place current
  | pass {place : Nat} {operation : Operation Label} {current : Option TypeState}
      {before after : TypeState} :
      body.nodes[place]? = some (.operation operation) →
      Starts superclass frames place current before →
      Passes superclass context body frames place operation before after →
      Checks superclass context body frames (place + 1)
        (if operation.fallsThrough then some after else none) →
      Checks superclass context body frames place current

/-- A check passes each operation that it comes to. -/
theorem Checks.passes {superclass : Superclasses} {context : MethodContext} {body : Body}
    {frames : PlacedFrames} {place later : Nat} {current : Option TypeState}
    (h : Checks superclass context body frames place current) (hle : place ≤ later)
    {operation : Operation Label} (ho : body.nodes[later]? = some (.operation operation)) :
    ∃ current before after, Starts superclass frames later current before ∧
      Passes superclass context body frames later operation before after := by
  induction h with
  | done hend =>
    have hlt := (List.getElem?_eq_some_iff.1 ho).1
    omega
  | @skip place node current hnode hoperation _ ih =>
    -- it is further behind
    have hne : place ≠ later := by
      rintro rfl
      rw [hnode] at ho
      cases ho
      cases hoperation
    exact ih (by omega)
  | @pass place found current before after hnode hstarts hpasses _ ih =>
    by_cases hlater : place = later
    · subst hlater
      rw [hnode] at ho
      cases ho
      exact ⟨current, before, after, hstarts, hpasses⟩
    · exact ih (by omega)

end OnePass

/-- Control may jump to an operation. -/
def Body.IsJumpTarget (body : Body) (position : Nat) : Prop :=
  ∃ label ∈ body.jumpLabels, ∃ place,
    body.nodes[place]? = some (.label label) ∧ Arrives body.nodes place position

/-- A body is what an analysis leaves of another one, with its frames wherever control may jump. -/
structure Analysis.Rewrites (analysis : Analysis) (body body' : Body) (positions : List Nat)
    (frames : PlacedFrames) : Prop where
  keeps : analysis.Keeps body.nodes body'.nodes positions
  handlers : body'.handlers ⊆ body.handlers
  frames : ∀ (place : Nat) frame, frames.lookup place = some frame ↔ ∃ position state,
    positions[place]? = some position ∧ body.IsJumpTarget position ∧
      analysis.state? position = some state ∧ state.toFrame = frame

section Edges

variable {body : Body} {position target : Nat}

theorem isJumpTarget_of_label {operation : Operation Label} {label : Label} {place : Nat}
    (ho : body.nodes[position]? = some (.operation operation)) (hlabel : label ∈ operation.targets)
    (hplace : body.nodes[place]? = some (.label label)) (ht : Arrives body.nodes place target) :
    body.IsJumpTarget target := by
  have hnode : .operation operation ∈ body.nodes := List.mem_of_getElem? ho
  exact ⟨label, List.mem_append_left _ (List.mem_flatMap.2 ⟨_, hnode, hlabel⟩), place, hplace, ht⟩

theorem isJumpTarget_of_guards {handler : Handler} (hmem : handler ∈ body.handlers)
    (hguards : handler.Guards body.nodes position target) : body.IsJumpTarget target := by
  rcases hguards.code with ⟨place, hplace, ht⟩
  exact ⟨handler.handler, List.mem_append_right _ (List.mem_map_of_mem hmem), place, hplace, ht⟩

/-- Control that does not jump falls through. -/
theorem Body.Leads.isJumpTarget_or {pool : Pool} {way : Way}
    (h : body.Leads pool position way target) : body.IsJumpTarget target ∨
      ∃ operation, body.nodes[position]? = some (.operation operation) ∧ operation.fallsThrough ∧
        Arrives body.nodes (position + 1) target := by
  cases h with
  | next hs =>
    cases hs with
    | jump ho hlabel hplace ht => exact .inl (isJumpTarget_of_label ho hlabel hplace ht)
    | fallThrough ho hf ht => exact .inr ⟨_, ho, hf, ht⟩
  | caughtBefore hmem hguards _ => exact .inl (isJumpTarget_of_guards hmem hguards)
  | caughtBehind hmem hguards _ => exact .inl (isJumpTarget_of_guards hmem hguards)

end Edges

namespace OnePass

/-- An inference over a body that has come to its end, and the body that is written in its place. -/
structure Outcome (superclass : Superclasses) (context : MethodContext) (body body' : Body)
    (first : Nat) (entry : TypeState) (inference : Inference) (positions : List Nat)
    (frames : PlacedFrames) : Prop where
  rooted : superclass.Rooted
  paired : Paired entry.locals
  poses : ∃ problem, AnalysisProblem.Poses problem body context
  arrives : Arrives body.nodes 0 first
  covers : Inference.Covers superclass body context first entry inference
  done : inference.pending = []
  rewrites : inference.analysis.Rewrites body body' positions frames

section Outcome

variable {superclass : Superclasses} {context : MethodContext} {body body' : Body} {first : Nat}
  {entry : TypeState} {inference : Inference} {positions : List Nat} {frames : PlacedFrames}
  {place position : Nat}

namespace Outcome

theorem settled
    (h : Outcome superclass context body body' first entry inference positions frames)
    {known : TypeState} (hknown : inference.analysis.state? position = some known) :
    Inference.Settled superclass body context inference position known := by
  refine h.covers.settled position known hknown ?_
  rw [h.done]
  exact List.not_mem_nil

/-- Right in front of an operation that can be reached, nothing is left out. -/
theorem stays_before
    (h : Outcome superclass context body body' first entry inference positions frames)
    (hlive : inference.analysis.isLive (position + 1))
    (ho : ∃ operation, body.nodes[position + 1]? = some (.operation operation)) :
    inference.analysis.Stays body.nodes position := by
  rcases ho with ⟨operation, ho⟩
  have hlt := (List.getElem?_eq_some_iff.1 ho).1
  rcases hnode : body.nodes[position]? with _ | node
  · rw [List.getElem?_eq_none_iff] at hnode
    omega
  by_cases hoperation : node.isOperation
  · rcases node with label | line | found
    · cases hoperation
    · cases hoperation
    · -- control can only have fallen through the operation in front
      have hno : ∀ start, Arrives body.nodes start (position + 1) → start = position + 1 := by
        intro start ht
        by_contra hne
        have hle := ht.le
        exact ht.between position (by omega) (Nat.lt_succ_self position) found hnode
      have hlabelled : ¬ body.IsJumpTarget (position + 1) := by
        rintro ⟨label, _, start, hstart, ht⟩
        rw [hno start ht, ho] at hstart
        cases hstart
      rcases h.covers.came h.done hlive with rfl | ⟨previous, way, hprevious, hleads⟩
      · -- the first operation has none in front of it
        have hzero := hno 0 h.arrives
        omega
      · rcases hleads.isJumpTarget_or with hjump | ⟨_, _, _, ht⟩
        · exact absurd hjump hlabelled
        · have hsame := hno (previous + 1) ht
          rw [Nat.succ.inj hsame] at hprevious
          exact Analysis.stays_of_arrives hnode (.self hnode) hprevious
  · -- labels and lines in front of it are passed on the way to it
    have hoperation : node.isOperation = false := by simpa using hoperation
    exact Analysis.stays_of_arrives hnode ((arrives_succ hnode hoperation).2 (.self ho)) hlive

/-- What an operation does to types stays the same, for so does the label in front of it. -/
theorem typesBehind_eq
    (h : Outcome superclass context body body' first entry inference positions frames)
    (hposition : positions[place]? = some position)
    (hlive : inference.analysis.isLive position)
    (ho : ∃ operation, body.nodes[position]? = some (.operation operation)) (state : TypeState) :
    Body.typesBehind context body'.nodes place state =
      Body.typesBehind context body.nodes position state := by
  have hkeeps := h.rewrites.keeps
  have hlabel : Body.labelBefore body'.nodes place = Body.labelBefore body.nodes position := by
    rcases position with _ | position
    · -- nothing comes in front of the first node
      have hzero : place = 0 := by
        have hle : ∀ earlier : Nat, earlier ≤ place → earlier = place := by
          intro earlier hearlier
          have hlt := (List.getElem?_eq_some_iff.1 hposition).1
          have hfound := hkeeps.le_iff hposition
            (List.getElem?_eq_getElem (show earlier < positions.length by omega))
          omega
        exact (hle 0 (Nat.zero_le place)).symm
      rw [hzero]
      rfl
    · rcases hkeeps.pred hposition (h.stays_before hlive ho) with ⟨previous, rfl, hprevious⟩
      have hnode := hkeeps.node hprevious
      simp only [Body.labelBefore, Nat.succ_ne_zero, if_false, Nat.add_sub_cancel, hnode]
  unfold Body.typesBehind
  rw [hkeeps.node hposition, hlabel]

/-- A frame where control may jump is above all that the analysis has found to arrive there. -/
theorem fits
    (h : Outcome superclass context body body' first entry inference positions frames)
    (hposition : positions[place]? = some position) (hjump : body.IsJumpTarget position)
    {state known : TypeState} (hknown : inference.analysis.state? position = some known)
    (hle : TypeState.Below superclass state known) : Fits superclass frames place state := by
  have hpaired := h.covers.paired h.paired position known hknown
  exact ⟨known.toFrame, (h.rewrites.frames place known.toFrame).2
    ⟨position, known, hposition, hjump, hknown, rfl⟩, hle.trans h.rooted
      (TypeState.below_toFrame hpaired)⟩

/-- What flows from an operation fits the frame where it arrives. -/
theorem fits_across
    (h : Outcome superclass context body body' first entry inference positions frames)
    {known : TypeState} (hknown : inference.analysis.state? position = some known)
    {way : Way} {target : Nat} (hleads : body.Leads context.constants position way target)
    (hjump : body.IsJumpTarget target) (htarget : positions[place]? = some target)
    {state found : TypeState}
    (hfound : Body.typesAcross context body.nodes position way known = .ok found)
    (hle : TypeState.Below superclass state found) : Fits superclass frames place state := by
  rcases (h.settled hknown).arrives way target hleads with ⟨other, hother, later, hlater, hle'⟩
  rw [hfound] at hother
  cases hother
  exact h.fits htarget hjump hlater (hle.trans h.rooted (hle'.below h.rooted))

theorem isLive_of_leads
    (h : Outcome superclass context body body' first entry inference positions frames)
    {known : TypeState} (hknown : inference.analysis.state? position = some known)
    {way : Way} {target : Nat} (hleads : body.Leads context.constants position way target) :
    inference.analysis.isLive target := by
  rcases (h.settled hknown).arrives way target hleads with ⟨_, _, later, hlater, _⟩
  exact Option.isSome_iff_exists.2 ⟨later, hlater⟩

/-- The handlers around an operation are those that were around it before. -/
theorem guards
    (h : Outcome superclass context body body' first entry inference positions frames)
    (hposition : positions[place]? = some position) {handler : Handler}
    (hmem : handler ∈ body.handlers) {start stop : Nat}
    (hstart : body'.nodes[start]? = some (.label handler.start))
    (hstop : body'.nodes[stop]? = some (.label handler.stop)) (hle : start ≤ place)
    (hlt : place < stop) : ∃ target type, handler.Guards body.nodes position target ∧
      handler.Catches context.constants type := by
  rcases h.poses with ⟨problem, hp⟩
  rcases forall₂_exists hp.handlers hmem with ⟨placed, _, hplaces⟩
  have hkeeps := h.rewrites.keeps
  rcases hkeeps.exists_position hstart with ⟨start', hstart', hnode⟩
  rcases hkeeps.exists_position hstop with ⟨stop', hstop', hnode'⟩
  -- the order of the nodes is the same in both bodies
  have hfirst := hkeeps.le_iff hstart' hposition
  have hlast := hkeeps.le_iff hstop' hposition
  exact ⟨placed.target, placed.caught, ⟨⟨start', stop', hnode, hnode', by omega, by omega⟩,
    hplaces.target⟩, hplaces.caught⟩

/-- Where less is known than the analysis has found out, an operation passes. -/
theorem exists_passes
    (h : Outcome superclass context body body' first entry inference positions frames)
    (hposition : positions[place]? = some position) {known before : TypeState}
    (hknown : inference.analysis.state? position = some known)
    {operation : Operation Label} (ho : body.nodes[position]? = some (.operation operation))
    (hle : TypeState.Below superclass before known) :
    ∃ after found, Body.typesBehind context body.nodes position known = .ok found ∧
      TypeState.Below superclass after found ∧
      Passes superclass context body' frames place operation before after := by
  have hkeeps := h.rewrites.keeps
  have hsettled := h.settled hknown
  have hlive : inference.analysis.isLive position := Option.isSome_iff_exists.2 ⟨known, hknown⟩
  rcases hsettled.runs with ⟨found, hfound⟩
  rcases Body.typesBehind_below hle hfound with ⟨after, hafter, hle'⟩
  refine ⟨after, found, hfound, hle', ?_, ?_, ?_⟩
  · rw [h.typesBehind_eq hposition hlive ⟨operation, ho⟩]
    exact hafter
  · -- where the operation jumps to, a frame says what is known there
    intro label hlabel
    rcases (hsettled.goes operation ho).1 label hlabel with ⟨labelled, target, hlabelled, ht⟩
    have hleads : body.Leads context.constants position .next target :=
      .next (.jump ho hlabel hlabelled ht)
    rcases hkeeps.exists_place (Analysis.stays_of_label hlabelled) with ⟨labelled', hplace⟩
    rcases hkeeps.arrives_from hplace ht (h.isLive_of_leads hknown hleads) with
      ⟨target', htarget, ht'⟩
    refine ⟨labelled', target', (hkeeps.node hplace).trans hlabelled, ht', ?_⟩
    exact h.fits_across hknown hleads (isJumpTarget_of_label ho hlabel hlabelled ht) htarget
      hfound hle'
  · -- where it is caught, one does so, too
    intro handler hmem start stop hstart hstop hlower hupper
    have hmem := h.rewrites.handlers hmem
    rcases h.guards hposition hmem hstart hstop hlower hupper with ⟨target, type, hguards, hcatches⟩
    have hbefore : body.Leads context.constants position (.caughtBefore type) target :=
      .caughtBefore hmem hguards hcatches
    -- control may get to the handler with what is known behind the operation, too
    have hbehind : body.Leads context.constants position (.caughtBehind type) target :=
      .caughtBehind hmem hguards hcatches
    have hjump := isJumpTarget_of_guards hmem hguards
    rcases hguards.code with ⟨code, hcode, ht⟩
    rcases hkeeps.exists_place (Analysis.stays_of_label hcode) with ⟨code', hplace⟩
    rcases hkeeps.arrives_from hplace ht (h.isLive_of_leads hknown hbefore) with
      ⟨target', htarget, ht'⟩
    refine ⟨target', type, ⟨⟨start, stop, hstart, hstop, hlower, hupper⟩, code',
      (hkeeps.node hplace).trans hcode, ht'⟩, hcatches, ?_, ?_⟩
    · exact h.fits_across hknown hbefore hjump htarget rfl (hle.handlerEntry type)
    · exact h.fits_across hknown hbehind hjump htarget
        (except_bind_ok.2 ⟨found, hfound, rfl⟩) (hle'.handlerEntry type)

end Outcome

/-- What the check has to know at a place. What falls into the next operation is below what the
analysis has found out there, and if nothing falls into it then it has a frame. -/
structure Ready (superclass : Superclasses) (body' : Body) (inference : Inference)
    (positions : List Nat) (frames : PlacedFrames) (place : Nat) (current : Option TypeState) :
    Prop where
  falls : ∀ state, current = some state → ∃ place' position : Nat, ∃ known,
    Arrives body'.nodes place place' ∧ positions[place']? = some position ∧
      inference.analysis.state? position = some known ∧ TypeState.Below superclass state known
  framed : current = none → ∀ place', Arrives body'.nodes place place' →
    ∃ frame, frames.lookup place' = some frame

namespace Outcome

/-- At an operation, the check starts from less than what the analysis has found out. -/
theorem exists_starts
    (h : Outcome superclass context body body' first entry inference positions frames)
    {current : Option TypeState}
    (hready : Ready superclass body' inference positions frames place current)
    (hposition : positions[place]? = some position) {known : TypeState}
    (hknown : inference.analysis.state? position = some known)
    (ho : ∃ operation, body'.nodes[place]? = some (.operation operation)) :
    ∃ before, Starts superclass frames place current before ∧
      TypeState.Below superclass before known := by
  rcases ho with ⟨operation, ho⟩
  have hself := Arrives.self ho
  have hfalls : ∀ state, current = some state → TypeState.Below superclass state known := by
    intro state hstate
    rcases hready.falls state hstate with ⟨place', position', known', ht, hposition', hknown', hle⟩
    rw [ht.unique hself, hposition] at hposition'
    cases hposition'
    rw [hknown] at hknown'
    cases hknown'
    exact hle
  have hpaired := h.covers.paired h.paired position known hknown
  unfold Starts
  -- a frame, if there is one, is the state that was inferred
  rcases hlookup : frames.lookup place with _ | frame
  · rcases hcurrent : current with _ | state
    · rcases hready.framed hcurrent place hself with ⟨frame, hframe⟩
      rw [hlookup] at hframe
      cases hframe
    · exact ⟨state, rfl, hfalls state hcurrent⟩
  · rcases (h.rewrites.frames place frame).1 hlookup with
      ⟨position', known', hposition', _, hknown', rfl⟩
    rw [hposition] at hposition'
    cases hposition'
    rw [hknown] at hknown'
    cases hknown'
    exact ⟨_, ⟨rfl, fun state hstate => (hfalls state hstate).trans h.rooted
      (TypeState.below_toFrame hpaired)⟩, TypeState.toFrame_below hpaired⟩

/-- Where nothing falls into an operation that can be reached, control jumps to it. -/
theorem isJumpTarget_of_not_fallsThrough
    (h : Outcome superclass context body body' first entry inference positions frames)
    (hposition : positions[place]? = some position) {operation : Operation Label}
    (ho : body.nodes[position]? = some (.operation operation))
    (hf : ¬ operation.fallsThrough) {place' position' : Nat}
    (ht : Arrives body'.nodes (place + 1) place')
    (hposition' : positions[place']? = some position')
    (hlive : inference.analysis.isLive position') : body.IsJumpTarget position' := by
  have hkeeps := h.rewrites.keeps
  have hbehind := hkeeps.le_iff hposition' hposition
  have hle := ht.le
  rcases h.covers.came h.done hlive with rfl | ⟨previous, way, hprevious, hleads⟩
  · exact absurd ho (h.arrives.between position (Nat.zero_le _) (by omega) operation)
  · rcases hleads.isJumpTarget_or with hjump | ⟨other, hother, hf', ht'⟩
    · exact hjump
    · -- the operation that falls through would be the one in front
      exfalso
      rcases hkeeps.exists_place (Analysis.stays_of_arrives hother (.self hother) hprevious) with
        ⟨place'', hplace''⟩
      have hfirst := hkeeps.le_iff hposition hplace''
      have hsecond := hkeeps.le_iff hplace'' hposition
      have hthird := hkeeps.le_iff hposition' hplace''
      have hle' := ht'.le
      rcases Nat.lt_trichotomy previous position with hless | rfl | hless
      · exact ht'.between position (by omega) (by omega) operation ho
      · rw [ho] at hother
        cases hother
        exact hf hf'
      · exact ht.between place'' (by omega) (by omega) other ((hkeeps.node hplace'').trans hother)

/-- Behind an operation, the check is ready for the next one. -/
theorem ready_succ
    (h : Outcome superclass context body body' first entry inference positions frames)
    (hposition : positions[place]? = some position) {known after found : TypeState}
    (hknown : inference.analysis.state? position = some known)
    {operation : Operation Label} (ho : body.nodes[position]? = some (.operation operation))
    (hfound : Body.typesBehind context body.nodes position known = .ok found)
    (hle : TypeState.Below superclass after found) :
    Ready superclass body' inference positions frames (place + 1)
      (if operation.fallsThrough then some after else none) := by
  have hkeeps := h.rewrites.keeps
  by_cases hf : operation.fallsThrough
  · rw [if_pos hf]
    refine ⟨?_, nofun⟩
    rintro state ⟨⟩
    -- what falls through arrives where it arrived before
    rcases ((h.settled hknown).goes operation ho).2 hf with ⟨target, ht⟩
    have hleads : body.Leads context.constants position .next target :=
      .next (.fallThrough ho hf ht)
    rcases (h.settled hknown).arrives .next target hleads with ⟨other, hother, later, hlater, hle'⟩
    rcases hfound.symm.trans hother with ⟨⟩
    rcases hkeeps.arrives_behind hposition ht (h.isLive_of_leads hknown hleads) with
      ⟨target', htarget, ht'⟩
    exact ⟨target', target, later, ht', htarget, hlater, hle.trans h.rooted (hle'.below h.rooted)⟩
  · rw [if_neg hf]
    refine ⟨nofun, fun _ place' ht => ?_⟩
    rcases ht.operation with ⟨other, hother⟩
    rcases hkeeps.exists_position hother with ⟨position', hposition', hnode⟩
    have hlive := hkeeps.isLive hposition' hnode
    rcases Option.isSome_iff_exists.1 hlive with ⟨state, hstate⟩
    have hjump := h.isJumpTarget_of_not_fallsThrough hposition ho hf ht hposition' hlive
    exact ⟨state.toFrame, (h.rewrites.frames place' _).2
      ⟨position', state, hposition', hjump, hstate, rfl⟩⟩

/-- The check succeeds from every place for which it is ready. -/
theorem checks_of_ready
    (h : Outcome superclass context body body' first entry inference positions frames)
    (count : Nat) {current : Option TypeState} (hcount : body'.nodes.length - place = count)
    (hready : Ready superclass body' inference positions frames place current) :
    Checks superclass context body' frames place current := by
  have hkeeps := h.rewrites.keeps
  -- on the number of nodes that are left
  induction count generalizing place current with
  | zero =>
    rcases hcurrent : current with _ | state
    · exact .done (by omega)
    · rcases hready.falls state hcurrent with ⟨place', _, _, ht, _⟩
      have hlt := ht.lt_length
      have hle := ht.le
      omega
  | succ count ih =>
    have hlt : place < body'.nodes.length := by omega
    have hnode : body'.nodes[place]? = some body'.nodes[place] := List.getElem?_eq_getElem hlt
    rcases hoperation : body'.nodes[place] with label | line | operation
    case operation =>
      rw [hoperation] at hnode
      rcases hkeeps.exists_position hnode with ⟨position, hposition, ho⟩
      rcases Option.isSome_iff_exists.1 (hkeeps.isLive hposition ho) with ⟨known, hknown⟩
      rcases h.exists_starts hready hposition hknown ⟨operation, hnode⟩ with
        ⟨before, hstarts, hle⟩
      rcases h.exists_passes hposition hknown ho hle with ⟨after, found, hfound, hle', hpasses⟩
      exact .pass hnode hstarts hpasses
        (ih (by omega) (h.ready_succ hposition hknown ho hfound hle'))
    all_goals
      rw [hoperation] at hnode
      refine .skip hnode rfl (ih (by omega) ⟨fun state hstate => ?_, fun hnone place' ht => ?_⟩)
      · rcases hready.falls state hstate with ⟨place', position, known, ht, hrest⟩
        exact ⟨place', position, known, (arrives_succ hnode rfl).1 ht, hrest⟩
      · exact hready.framed hnone place' ((arrives_succ hnode rfl).2 ht)

/-- The check succeeds on the body that is written. -/
theorem checks
    (h : Outcome superclass context body body' first entry inference positions frames) :
    Checks superclass context body' frames 0 (some entry) := by
  refine h.checks_of_ready _ rfl ⟨?_, nofun⟩
  rintro state ⟨⟩
  rcases h.covers.entry with ⟨known, hknown, hle⟩
  have hlive : inference.analysis.isLive first := Option.isSome_iff_exists.2 ⟨known, hknown⟩
  have hzero : ∀ later found : Nat, positions[later]? = some found → (0 ≤ later ↔ 0 ≤ found) :=
    fun _ _ _ => by simp
  rcases h.rewrites.keeps.arrives hzero h.arrives hlive with ⟨place, hplace, ht⟩
  exact ⟨place, first, known, ht, hplace, hknown, hle.below h.rooted⟩

end Outcome

end Outcome

end OnePass

end Preverification

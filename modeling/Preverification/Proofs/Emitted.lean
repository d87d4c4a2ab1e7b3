import Preverification.Emission
import Preverification.Proofs.Layouts
import Preverification.Proofs.OnePass

/-!
# The frames of emitted code

What emission does, step by step: it leaves out unreachable code, and writes down a frame for each
operation that is left and to which control may jump. The frames are all that a check in one pass
needs to know about the body, besides what is known where it is entered.

* `Emission.frameStates_eq`: the states that emission collects are those for which there are frames.
* `Emission.exists_run`, `Emission.emit_of_parts`: emission succeeds exactly if all of its parts do.
* `Emission.emit_ok`: what emission writes.
* `Emission.emit_checkable`: emitted code can be checked in one pass, with nothing but its frames.
* `Emission.readsBehindJump_not_checkable`: an entry state in which a value of two slots is cut.
-/

namespace Preverification

/-- The offset of a node. -/
def Layout.offsetAt (layout : Layout) (place : Nat) : Nat :=
  ((layout.nodes[place]?).map (·.2.1)).getD 0

/-! ### Frames by places -/

/-- The operations to which control may jump are those that get a frame. -/
theorem Body.mem_frameTargets {body : Body} {targets : List Nat}
    (h : body.frameTargets = .ok targets) (position : Nat) :
    position ∈ targets ↔ body.IsJumpTarget position := by
  unfold Body.frameTargets at h
  rcases except_bind_ok.1 h with ⟨flow, hflow, h⟩
  rcases except_bind_ok.1 h with ⟨found, hfound, h⟩
  cases h
  have hd := flow_describes hflow
  have hall := except_mapM_ok hfound
  simp only [List.mem_filter, List.mem_range, Std.HashSet.contains_ofList, List.contains_iff_mem,
    List.mem_filterMap, id_eq, exists_eq_right]
  constructor
  · rintro ⟨_, hmem⟩
    rcases forall₂_exists hall.flip hmem with ⟨label, hlabel, hposition⟩
    rcases hd.operationAt_ok.1 hposition with ⟨place, hplace, ht⟩
    exact ⟨label, hlabel, place, hplace, ht⟩
  · rintro ⟨label, hlabel, place, hplace, ht⟩
    rcases forall₂_exists hall hlabel with ⟨target, hmem, htarget⟩
    rw [hd.operationAt_ok.2 ⟨place, hplace, ht⟩] at htarget
    cases htarget
    exact ⟨ht.lt_length, hmem⟩

namespace Analysis

/-- What is written in front of an operation to which control may jump. -/
def frame? (analysis : Analysis) (targets : List Nat) (position : Nat) :
    Option (Frame InferredType) :=
  if position ∈ targets then (analysis.state? position).map TypeState.toFrame else none

/-- The frames for some operations that stay, of which the first would be at a place. -/
def placedFramesFrom (analysis : Analysis) (targets : List Nat) (place : Nat) :
    List Nat → PlacedFrames
  | [] => []
  | position :: positions =>
    match analysis.frame? targets position with
    | some frame => (place, frame) :: placedFramesFrom analysis targets (place + 1) positions
    | none => placedFramesFrom analysis targets (place + 1) positions

/-- The frames for some operations, at the places that these have among those that stay. -/
def placedFrames (analysis : Analysis) (targets positions : List Nat) : PlacedFrames :=
  analysis.placedFramesFrom targets 0 positions

/-- There are no frames in front of the start. -/
theorem lookup_placedFramesFrom_of_lt (analysis : Analysis) (targets positions : List Nat)
    {place start : Nat} (h : place < start) :
    (analysis.placedFramesFrom targets start positions).lookup place = none := by
  induction positions generalizing start with
  | nil => rfl
  | cons position positions ih =>
    unfold placedFramesFrom
    rcases analysis.frame? targets position with _ | frame
    · exact ih (Nat.lt_succ_of_lt h)
    · rw [List.lookup_cons, beq_false_of_ne (Nat.ne_of_lt h)]
      exact ih (Nat.lt_succ_of_lt h)

/-- The frame at a place is that of the position which is there. -/
theorem lookup_placedFramesFrom (analysis : Analysis) (targets positions : List Nat)
    (start place : Nat) :
    (analysis.placedFramesFrom targets start positions).lookup (start + place) =
      positions[place]?.bind (analysis.frame? targets) := by
  induction positions generalizing start place with
  | nil => rfl
  | cons position positions ih =>
    unfold placedFramesFrom
    rcases place with _ | place
    · rw [List.getElem?_cons_zero, Option.bind_some, Nat.add_zero]
      rcases analysis.frame? targets position with _ | frame
      · exact analysis.lookup_placedFramesFrom_of_lt targets positions (Nat.lt_succ_self start)
      · rw [List.lookup_cons, beq_self_eq_true]
    · have hnext := ih (start + 1) place
      rw [Nat.add_right_comm, Nat.add_assoc] at hnext
      rw [List.getElem?_cons_succ, ← hnext]
      rcases analysis.frame? targets position with _ | frame
      · rfl
      · rw [List.lookup_cons, beq_false_of_ne (by omega)]

/-- The frame at a place is the one that is made for the position there, if any. -/
theorem lookup_placedFrames (analysis : Analysis) (targets positions : List Nat) (place : Nat) :
    (analysis.placedFrames targets positions).lookup place =
      positions[place]?.bind (analysis.frame? targets) := by
  have hlookup := analysis.lookup_placedFramesFrom targets positions 0 place
  rw [Nat.zero_add] at hlookup
  exact hlookup

/-- There is a frame wherever control may jump among what stays. -/
theorem lookup_placedFrames_eq_some {analysis : Analysis} {body : Body}
    {targets positions : List Nat} (htargets : body.frameTargets = .ok targets) (place : Nat)
    (frame : Frame InferredType) :
    (analysis.placedFrames targets positions).lookup place = some frame ↔ ∃ position state,
      positions[place]? = some position ∧ body.IsJumpTarget position ∧
        analysis.state? position = some state ∧ state.toFrame = frame := by
  rw [lookup_placedFrames, Option.bind_eq_some_iff]
  unfold frame?
  constructor
  · rintro ⟨position, hposition, hframe⟩
    split at hframe
    · rename_i hmem
      rcases Option.map_eq_some_iff.1 hframe with ⟨state, hstate, rfl⟩
      exact ⟨position, state, hposition, (Body.mem_frameTargets htargets position).1 hmem, hstate,
        rfl⟩
    · cases hframe
  · rintro ⟨position, state, hposition, hjump, hstate, rfl⟩
    refine ⟨position, hposition, ?_⟩
    rw [if_pos ((Body.mem_frameTargets htargets position).2 hjump), hstate]
    rfl

end Analysis

/-! ### Writing frames -/

/-- Writes a frame at the offset of the node at a place. -/
def Layout.writeFrame (layout : Layout) (placed : Nat × Frame InferredType) :
    Pool.Edit PlacedFrame :=
  return ⟨UInt16.ofNat (layout.offsetAt placed.1), ← placed.2.serialize layout⟩

/-- The frames of emitted code are written in one attribute, which stands behind the others. -/
def Code.HasFrames (code : Code) (format : FrameFormat) (layout : Layout) (entry : TypeState)
    (frames : PlacedFrames) : Prop :=
  ∃ before middle after written attributes,
    frames.mapM layout.writeFrame before = .ok written middle ∧
      Pool.addFrames format layout entry.toFrame written middle = .ok attributes after ∧
      attributes <:+ code.attributes

namespace Emission

variable {analysis : Analysis}

/-- From a place on, the states of wanted positions are those for which there are frames there, if
the offsets are those of a layout. -/
theorem frameStates_from (analysis : Analysis) (targets : List Nat) (layout : Layout) {start : Nat}
    {positions : List Nat} {nodes : List (Node × Nat × Bool)}
    (hlength : nodes.length = positions.length)
    (hoffset : ∀ (place : Nat) entry, nodes[place]? = some entry →
      layout.offsetAt (start + place) = entry.2.1) :
    ((positions.zip nodes).filterMap fun entry =>
      if (Std.HashSet.ofList targets).contains entry.1 then
        (analysis.state? entry.1).map ((entry.2.2.1, ·)) else none).map
          (fun found => (found.1, TypeState.toFrame found.2)) =
      (analysis.placedFramesFrom targets start positions).map fun placed =>
        (layout.offsetAt placed.1, placed.2) := by
  induction positions generalizing nodes start with
  | nil => rfl
  | cons position positions ih =>
    rcases nodes with _ | ⟨entry, nodes⟩
    · cases hlength
    · have hrest := @ih (start + 1) nodes (Nat.succ.inj hlength) fun place found hfound => by
        have hnext := hoffset (place + 1) found hfound
        rwa [Nat.add_right_comm]
      have hfirst := hoffset 0 entry rfl
      rw [Nat.add_zero] at hfirst
      rw [List.zip_cons_cons, List.filterMap_cons]
      unfold Analysis.placedFramesFrom Analysis.frame?
      by_cases hmem : position ∈ targets
      · rcases hstate : analysis.state? position with _ | state
        · simpa [hmem, hstate] using hrest
        · simpa [hmem, hstate, hfirst] using hrest
      · simpa [hmem] using hrest

/-- The states that emission collects are those for which there are frames. -/
theorem frameStates_eq (analysis : Analysis) (targets positions : List Nat) (layout : Layout)
    (hlength : layout.nodes.length = positions.length) :
    (frameStates analysis targets positions layout).map (fun found =>
      (found.1, found.2.toFrame)) =
      (analysis.placedFrames targets positions).map fun placed =>
        (layout.offsetAt placed.1, placed.2) := by
  refine frameStates_from analysis targets layout hlength fun place entry hentry => ?_
  unfold Layout.offsetAt
  rw [Nat.zero_add, hentry]
  rfl

/-- Frames with offsets are made for all that stand at places. -/
theorem mapM_frameStates (targets positions : List Nat) (layout : Layout)
    (hlength : layout.nodes.length = positions.length) :
    (frameStates analysis targets positions layout).mapM (fun found =>
      placeFrame layout found.1 found.2) =
      (analysis.placedFrames targets positions).mapM layout.writeFrame := by
  have heq := congrArg (fun l : List (Nat × Frame InferredType) => l.mapM fun placed =>
    (return ⟨UInt16.ofNat placed.1, ← placed.2.serialize layout⟩ : Pool.Edit PlacedFrame))
    (frameStates_eq analysis targets positions layout hlength)
  simp only [List.mapM_map] at heq
  exact heq

variable {draft draft' : MethodDraft}

/-- A change of the pool leaves the body as it is. -/
theorem edit_ok {α : Type} {change : Pool.Edit α} {value : α} :
    edit change draft = .ok value draft' ↔
      ∃ pool, change draft.constants = .ok value pool ∧
        draft' = { draft with constants := pool } := by
  unfold edit
  rcases change draft.constants with ⟨found, pool⟩ | ⟨error, pool⟩
  · constructor
    · intro h
      cases h
      exact ⟨pool, rfl, rfl⟩
    · rintro ⟨_, ⟨⟩, rfl⟩
      rfl
  · constructor
    · nofun
    · nofun

/-- The body is replaced, and nothing else. -/
theorem setBody_ok {body : Body} (h : setBody body draft = .ok () draft') :
    draft' = { draft with body } := by
  cases h
  rfl

/-- A number of slots is written if it fits into two bytes. -/
theorem slots_ok {needed : Nat} {tooMany : Nat → StructuralError} {number : UInt16} :
    slots needed tooMany draft = .ok number draft' ↔
      needed ≤ 65535 ∧ number = UInt16.ofNat needed ∧ draft' = draft := by
  unfold slots
  split
  · rename_i hle
    rw [state_pure_ok]
    exact ⟨fun ⟨hnumber, hsame⟩ => ⟨hle, hnumber.symm, hsame.symm⟩,
      fun ⟨_, hnumber, hsame⟩ => ⟨hnumber.symm, hsame.symm⟩⟩
  · rename_i hgt
    exact ⟨fun h => absurd h state_throw_ok, fun h => absurd h.1 hgt⟩

/-- A number of slots that is too high is reported. -/
theorem slots_error {needed : Nat} {tooMany : Nat → StructuralError} (h : 65535 < needed) :
    slots needed tooMany draft = .error (tooMany needed) draft := by
  unfold slots
  rw [if_neg (Nat.not_le.2 h)]
  rfl

/-- Raising numbers of slots changes nothing else. -/
theorem raiseSlots_ok (h : raiseSlots analysis draft = .ok () draft') : ∃ maxStack maxLocals,
    draft' = { draft with body := { draft.body with maxStack, maxLocals } } := by
  unfold raiseSlots at h
  rcases state_bind_ok.1 h with ⟨_, _, ⟨⟩, h⟩
  rcases state_bind_ok.1 h with ⟨maxStack, _, hstack, h⟩
  rcases state_bind_ok.1 h with ⟨_, _, hset, h⟩
  rcases state_bind_ok.1 h with ⟨maxLocals, _, hlocals, h⟩
  refine ⟨maxStack, maxLocals, ?_⟩
  rw [setBody_ok h, (slots_ok.1 hlocals).2.2, setBody_ok hset, (slots_ok.1 hstack).2.2]

/-- Leaving out frames changes nothing but the attributes. -/
theorem dropFrames_ok (h : dropFrames draft = .ok () draft') : ∃ attributes,
    draft.body.attributes.filterM (fun attr => return !(← holdsFrames draft.constants attr)) =
        .ok attributes ∧
      draft' = { draft with body := { draft.body with attributes } } := by
  unfold dropFrames at h
  rcases state_bind_ok.1 h with ⟨_, _, ⟨⟩, h⟩
  rcases state_bind_ok.1 h with ⟨_, _, hset, h⟩
  rcases state_bind_ok.1 h with ⟨attributes, _, hcheck, h⟩
  rcases ofExcept_ok.1 hcheck with ⟨hattributes, rfl⟩
  refine ⟨attributes, hattributes, ?_⟩
  rw [setBody_ok h, setBody_ok hset]

end Emission

/-- Attributes that are added stand behind the others. -/
theorem Body.encode_ok {body : Body} {layout : Layout} {extra : List Attribute} {code : Code}
    {pool pool' : Pool} (h : body.encode layout extra pool = .ok code pool') :
    extra <:+ code.attributes := by
  unfold Body.encode at h
  rcases state_bind_ok.1 h with ⟨_, _, _, h⟩
  rcases state_bind_ok.1 h with ⟨_, _, _, h⟩
  rcases state_bind_ok.1 h with ⟨_, _, _, h⟩
  rcases state_bind_ok.1 h with ⟨_, _, _, h⟩
  rcases state_bind_ok.1 h with ⟨_, _, _, h⟩
  rcases state_bind_ok.1 h with ⟨_, _, _, h⟩
  rcases state_bind_ok.1 h with ⟨_, _, _, h⟩
  rcases state_pure_ok.1 h with ⟨rfl, _⟩
  exact List.suffix_append _ _

namespace Emission

variable {analysis : Analysis} {draft draft' : MethodDraft}

/-- An emission that succeeds. Unreachable code is left out; the body that is left has other numbers
of slots, and no frames among its attributes. At its layout the frames are written, and then all of
the body. -/
structure Run (analysis : Analysis) (entry : TypeState) (format : FrameFormat)
    (draft draft' : MethodDraft) (code : Code) where
  targets : List Nat
  pruned : Body
  maxStack : UInt16
  maxLocals : UInt16
  attributes : List Attribute
  layout : Layout
  written : List PlacedFrame
  extra : List Attribute
  -- the pool with the constants of the frames
  framed : Pool
  -- the pool with the name of the attribute that holds them
  named : Pool
  targets_ok : draft.body.frameTargets = .ok targets
  pruned_ok : draft.body.removeUnreachable analysis = .ok pruned
  attributes_ok : pruned.attributes.filterM (fun attr =>
    return !(← holdsFrames draft.constants attr)) = .ok attributes
  body_eq : draft'.body = { pruned with maxStack, maxLocals, attributes }
  layout_ok : draft'.body.layout = .ok layout
  written_ok : (frameStates analysis targets (analysis.keptPositions draft.body.nodes)
    layout).mapM (fun found => placeFrame layout found.1 found.2) draft.constants =
      .ok written framed
  extra_ok : Pool.addFrames format layout entry.toFrame written framed = .ok extra named
  code_ok : draft'.body.encode layout extra named = .ok code draft'.constants

/-- If emission succeeds, it went through all of its stages. -/
theorem exists_run {entry : TypeState} {format : FrameFormat} {code : Code}
    (h : emit analysis entry format draft = .ok code draft') :
    Nonempty (Run analysis entry format draft draft' code) := by
  unfold emit at h
  rcases state_bind_ok.1 h with ⟨_, _, ⟨⟩, h⟩
  rcases state_bind_ok.1 h with ⟨targets, _, hcheck, h⟩
  rcases ofExcept_ok.1 hcheck with ⟨htargets, rfl⟩
  rcases state_bind_ok.1 h with ⟨pruned, _, hcheck', h⟩
  rcases ofExcept_ok.1 hcheck' with ⟨hpruned, rfl⟩
  rcases state_bind_ok.1 h with ⟨_, first, hset, h⟩
  rcases state_bind_ok.1 h with ⟨_, raised, hraised, h⟩
  rcases state_bind_ok.1 h with ⟨_, dropped, hdropped, h⟩
  rcases state_bind_ok.1 h with ⟨_, _, ⟨⟩, h⟩
  rcases state_bind_ok.1 h with ⟨layout, _, hcheck'', h⟩
  rcases ofExcept_ok.1 hcheck'' with ⟨hlayout, rfl⟩
  rcases state_bind_ok.1 h with ⟨written, framed, hwritten, h⟩
  rcases state_bind_ok.1 h with ⟨extra, extended, hextra, h⟩
  cases setBody_ok hset
  rcases raiseSlots_ok hraised with ⟨maxStack, maxLocals, rfl⟩
  rcases dropFrames_ok hdropped with ⟨attributes, hattributes, rfl⟩
  -- what follows changes the pool
  rcases edit_ok.1 hwritten with ⟨before, hstates, rfl⟩
  rcases edit_ok.1 hextra with ⟨after, hadd, rfl⟩
  rcases edit_ok.1 h with ⟨_, hencode, rfl⟩
  exact ⟨⟨targets, pruned, maxStack, maxLocals, attributes, layout, written, extra, before, after,
    htargets, hpruned, hattributes, rfl, hlayout, hstates, hadd, hencode⟩⟩

/-- Emission succeeds when all of its parts do. -/
theorem emit_of_parts {entry : TypeState} {format : FrameFormat} {code : Code} {targets : List Nat}
    {pruned : Body} {raised dropped : MethodDraft} {layout : Layout} {written : List PlacedFrame}
    {extra : List Attribute} {framed named constants : Pool}
    (htargets : draft.body.frameTargets = .ok targets)
    (hpruned : draft.body.removeUnreachable analysis = .ok pruned)
    (hraised : raiseSlots analysis { draft with body := pruned } = .ok () raised)
    (hdropped : dropFrames raised = .ok () dropped) (hlayout : dropped.body.layout = .ok layout)
    (hwritten : (frameStates analysis targets (analysis.keptPositions draft.body.nodes)
      layout).mapM (fun found => placeFrame layout found.1 found.2) dropped.constants =
        .ok written framed)
    (hextra : Pool.addFrames format layout entry.toFrame written framed = .ok extra named)
    (hcode : dropped.body.encode layout extra named = .ok code constants) :
    emit analysis entry format draft = .ok code { dropped with constants } := by
  unfold emit
  refine state_bind_ok.2 ⟨_, _, rfl, ?_⟩
  refine state_bind_ok.2 ⟨_, _, ofExcept_ok.2 ⟨htargets, rfl⟩, ?_⟩
  refine state_bind_ok.2 ⟨_, _, ofExcept_ok.2 ⟨hpruned, rfl⟩, ?_⟩
  refine state_bind_ok.2 ⟨_, _, rfl, ?_⟩
  refine state_bind_ok.2 ⟨_, _, hraised, ?_⟩
  refine state_bind_ok.2 ⟨_, _, hdropped, ?_⟩
  refine state_bind_ok.2 ⟨_, _, rfl, ?_⟩
  refine state_bind_ok.2 ⟨_, _, ofExcept_ok.2 ⟨hlayout, rfl⟩, ?_⟩
  refine state_bind_ok.2 ⟨_, _, edit_ok.2 ⟨framed, hwritten, rfl⟩, ?_⟩
  exact state_bind_ok.2 ⟨_, _, edit_ok.2 ⟨named, hextra, rfl⟩, edit_ok.2 ⟨constants, hcode, rfl⟩⟩

/-- There is room for the name of frames in a pool without constants. -/
theorem exists_addFrames (layout : Layout) (entry : Frame InferredType) (frame : PlacedFrame)
    (frames : List PlacedFrame) : ∃ attributes pool,
      Pool.addFrames .stackMap layout entry (frame :: frames) ∅ = .ok attributes pool := by
  have hname : Pool.addUtf8 "StackMap" ∅ = .ok 1 ((∅ : Pool).push (.utf8 "StackMap")) := by
    have hnone : (∅ : Pool).texts["StackMap"]? = none := Std.HashMap.getElem?_empty
    unfold Pool.addUtf8
    refine state_bind_ok.2 ⟨_, _, rfl, ?_⟩
    rw [hnone]
    rfl
  exact ⟨_, _, state_bind_ok.2 ⟨_, _, state_bind_ok.2 ⟨_, _, hname, rfl⟩, rfl⟩⟩

/-- Emission writes a body without unreachable code, and frames for all operations in it to which
control may jump. -/
theorem emit_ok {entry : TypeState} {format : FrameFormat} {code : Code}
    (h : emit analysis entry format draft = .ok code draft') :
    ∃ targets layout, draft.body.frameTargets = .ok targets ∧ draft'.body.layout = .ok layout ∧
      analysis.Keeps draft.body.nodes draft'.body.nodes (analysis.keptPositions draft.body.nodes) ∧
      draft'.body.handlers ⊆ draft.body.handlers ∧
      code.HasFrames format layout entry
        (analysis.placedFrames targets (analysis.keptPositions draft.body.nodes)) := by
  rcases exists_run h with ⟨run⟩
  rcases Body.removeUnreachable_ok run.pruned_ok with ⟨hkeeps, hhandlers⟩
  have hlength : run.layout.nodes.length = (analysis.keptPositions draft.body.nodes).length := by
    rw [Body.length_layout run.layout_ok, run.body_eq]
    exact hkeeps.nodes_eq.length_eq.symm
  have hframes :=
    (congrFun (mapM_frameStates run.targets _ run.layout hlength) _).symm.trans run.written_ok
  refine ⟨run.targets, run.layout, run.targets_ok, run.layout_ok, ?_, ?_, _, _, _, _, _, hframes,
    run.extra_ok, Body.encode_ok run.code_ok⟩
  · rw [run.body_eq]
    exact hkeeps
  · rw [run.body_eq]
    exact hhandlers

/-- What emission has written can be checked in one pass. The frames in the code are those of the
analysis in front of the operations to which control may jump. -/
def Checkable (superclass : Superclasses) (context : MethodContext) (entry : TypeState)
    (format : FrameFormat) (analysis : Analysis) (draft draft' : MethodDraft) (code : Code) :
    Prop :=
  ∃ targets layout frames, draft.body.frameTargets = .ok targets ∧
    draft'.body.layout = .ok layout ∧
    frames = analysis.placedFrames targets (analysis.keptPositions draft.body.nodes) ∧
    code.HasFrames format layout entry frames ∧
    OnePass.Checks superclass context draft'.body frames 0 (some entry)

/-- Emitted code can be checked in one pass. When a body is analysed, and then emitted, from an
entry state in which values of two slots are whole, a check that knows the entry state and the
frames in the code, and goes through the emitted body once, succeeds. -/
theorem emit_checkable {entry : TypeState} {context : MethodContext} {resolver resolver' : Resolver}
    {format : FrameFormat} {code : Code} (hr : resolver.superclass?.Rooted)
    (hpaired : Paired entry.locals)
    (hanalyze : draft.body.analyze entry context resolver = .ok analysis resolver')
    (hemit : emit analysis entry format draft = .ok code draft') :
    Checkable resolver.superclass? context entry format analysis draft draft' code := by
  rcases Body.analyze_ok hanalyze with
    ⟨problem, first, inference, hposes, harrives, rfl, hdone, hcovers⟩
  rcases emit_ok hemit with ⟨targets, layout, htargets, hlayout, hkeeps, hhandlers, hframes⟩
  have hrewrites : inference.analysis.Rewrites draft.body draft'.body
      (inference.analysis.keptPositions draft.body.nodes)
      (inference.analysis.placedFrames targets
        (inference.analysis.keptPositions draft.body.nodes)) :=
    ⟨hkeeps, hhandlers, Analysis.lookup_placedFrames_eq_some htargets⟩
  have houtcome : OnePass.Outcome resolver.superclass? context draft.body draft'.body first entry
      inference _ _ :=
    ⟨hr, hpaired, ⟨problem, hposes⟩, harrives, hcovers, hdone, hrewrites⟩
  exact ⟨targets, layout, _, htargets, hlayout, rfl, hframes, houtcome.checks⟩

/-! ### A local behind a jump -/

/-- Goes on behind a label, and reads the third slot there. -/
def readsBehindJump : Body where
  maxStack := 1
  maxLocals := 3
  nodes :=
    [.operation (.branch (.goto ⟨0⟩)), .label ⟨0⟩, .operation (.step (.load .int 2)),
      .operation (.branch .returnVoid)]
  handlers := []
  localVariables := []
  variableTypes := []
  attributes := []
  issued := 1

/-- The method of which `readsBehindJump` is the body. -/
def readsBehindJumpContext : MethodContext := ⟨∅, .object, none⟩

/-- What is known where `readsBehindJump` is entered. -/
def readsBehindJumpEntry (first second : InferredType) : TypeState :=
  ⟨[first, second, .integer], ∅⟩

/-- The control flow of `readsBehindJump`. -/
def readsBehindJumpFlow : Flow where
  nodes := readsBehindJump.nodes.toArray
  positions := (∅ : Std.HashMap Label Nat).insert ⟨0⟩ 1
  next := #[some 0, some 2, some 2, some 3, none]
  numbers := #[0, 1, 1, 2, 3]

/-- The problem that `readsBehindJump` poses. -/
def readsBehindJumpProblem : AnalysisProblem := ⟨readsBehindJumpFlow, [], readsBehindJumpContext⟩

/-- What type inference finds out about `readsBehindJump`. -/
def readsBehindJumpAnalysis (first second : InferredType) : Analysis where
  states :=
    #[some (readsBehindJumpEntry first second), none, some (readsBehindJumpEntry first second),
      some ⟨[first, second, .integer], .ofValues [.integer]⟩]
  maxStack := 1
  maxLocals := 3

/-- The layout of `readsBehindJump`. -/
def readsBehindJumpLayout : Layout where
  nodes := readsBehindJump.nodes.zip [(0, false), (3, false), (3, false), (4, false)]
  codeLength := 5
  labels := (∅ : Std.HashMap Label Nat).insert ⟨0⟩ 3

theorem readsBehindJump_positions :
    readsBehindJump.labelPositions = .ok readsBehindJumpFlow.positions := by
  simp [readsBehindJump, readsBehindJumpFlow, Body.labelPositions, Body.placeLabels, Node.label?]

theorem readsBehindJump_flow : readsBehindJump.flow = .ok readsBehindJumpFlow := by
  unfold Body.flow
  rw [readsBehindJump_positions]
  rfl

theorem readsBehindJump_problem :
    AnalysisProblem.ofBody readsBehindJump readsBehindJumpContext = .ok readsBehindJumpProblem := by
  unfold AnalysisProblem.ofBody
  rw [readsBehindJump_flow]
  rfl

/-- The jump leads to the last two operations. -/
theorem readsBehindJump_operationAt : readsBehindJumpFlow.operationAt ⟨0⟩ = .ok (some 2) := by
  have hlabel : readsBehindJumpFlow.position ⟨0⟩ = .ok 1 :=
    ((Body.flow_describes readsBehindJump_flow).position_ok _ _).2 rfl
  unfold Flow.operationAt
  rw [hlabel]
  rfl

/-- All three slots are used, whatever is in the first two. -/
theorem readsBehindJump_observe (first second : InferredType) (stack : OperandStack)
    (analysis : Analysis) :
    analysis.observe ⟨[first, second, .integer], stack⟩ =
      { analysis with
        maxStack := max analysis.maxStack stack.height
        maxLocals := max analysis.maxLocals 3 } := by
  have hused : TypeState.usedLocals ⟨[first, second, .integer], stack⟩ = 3 := by
    have hfirst := first.width_cases
    have hsecond := second.width_cases
    have hthird : width (.integer : InferredType) = 1 := rfl
    simp only [TypeState.usedLocals, TypeState.usedLocalsFrom, hthird, reduceCtorEq, if_false]
    split <;> split <;> omega
  unfold Analysis.observe
  rw [hused]

/-- Each of the three operations is visited once. -/
theorem readsBehindJump_solve (first second : InferredType) (resolver : Resolver) (visits : Nat) :
    readsBehindJumpProblem.solve (visits + 3)
      (.start 4 0 (readsBehindJumpEntry first second) resolver) =
        .ok () ⟨readsBehindJumpAnalysis first second, [], resolver⟩ := by
  have hsuccessors : readsBehindJumpProblem.successors 0 (.branch (.goto ⟨0⟩)) = .ok [2] := by
    simp only [AnalysisProblem.successors, Operation.targets, Branch.targets, List.mapM_cons,
      List.mapM_nil, AnalysisProblem.jumpTarget, readsBehindJumpProblem,
      readsBehindJump_operationAt]
    rfl
  -- the operation behind the jump keeps no state
  have hjump : readsBehindJumpProblem.visit 0
      ⟨⟨#[some (readsBehindJumpEntry first second), none, none, none], 0, 0⟩, [], resolver⟩ =
        .ok () ⟨⟨#[some (readsBehindJumpEntry first second), none,
          some (readsBehindJumpEntry first second), none], 0, 3⟩, [2], resolver⟩ :=
    AnalysisProblem.visit_of_merges (.branch (.goto ⟨0⟩)) (readsBehindJumpEntry first second)
      (readsBehindJumpEntry first second) [2] rfl rfl rfl hsuccessors (by
        simp only [readsBehindJumpEntry, readsBehindJump_observe]
        rfl)
  -- the third local is an integer, and it is read
  have hread : readsBehindJumpProblem.visit 2
      ⟨⟨#[some (readsBehindJumpEntry first second), none,
        some (readsBehindJumpEntry first second), none], 0, 3⟩, [], resolver⟩ =
        .ok () ⟨readsBehindJumpAnalysis first second, [3], resolver⟩ :=
    AnalysisProblem.visit_of_merges (.step (.load .int 2)) (readsBehindJumpEntry first second)
      ⟨[first, second, .integer], .ofValues [.integer]⟩ [3] rfl rfl rfl rfl (by
        simp only [readsBehindJumpEntry, readsBehindJump_observe]
        rfl)
  -- control ends here
  have hreturn : readsBehindJumpProblem.visit 3
      ⟨readsBehindJumpAnalysis first second, [], resolver⟩ =
        .ok () ⟨readsBehindJumpAnalysis first second, [], resolver⟩ :=
    AnalysisProblem.visit_of_merges (.branch .returnVoid)
      ⟨[first, second, .integer], .ofValues [.integer]⟩
      ⟨[first, second, .integer], .ofValues [.integer]⟩ [] rfl rfl rfl rfl (by
        simp only [readsBehindJump_observe]
        rfl)
  exact AnalysisProblem.solve_of_visit _ rfl hjump (AnalysisProblem.solve_of_visit _ rfl hread
    (AnalysisProblem.solve_of_visit _ rfl hreturn (AnalysisProblem.solve_done rfl visits)))

/-- The locals are known behind the jump as they were at the entry. -/
theorem readsBehindJump_analyze (first second : InferredType) (resolver : Resolver) :
    readsBehindJump.analyze (readsBehindJumpEntry first second) readsBehindJumpContext resolver =
      .ok (readsBehindJumpAnalysis first second) resolver := by
  refine Body.analyze_of_solve ⟨readsBehindJumpAnalysis first second, [], resolver⟩
    readsBehindJump_problem rfl fun visits hle => ?_
  obtain ⟨more, rfl⟩ : ∃ more, visits = more + 3 :=
    Nat.exists_eq_add_of_le' (Nat.le_trans (show 3 ≤ readsBehindJump.nodes.length by decide) hle)
  exact readsBehindJump_solve first second resolver more

/-- There is one operation with a frame. -/
theorem readsBehindJump_frameTargets : readsBehindJump.frameTargets = .ok [2] := by
  have hlabels : readsBehindJump.jumpLabels = [⟨0⟩] := rfl
  unfold Body.frameTargets
  rw [readsBehindJump_flow]
  simp only [bind, Except.bind, hlabels, List.mapM_cons, List.mapM_nil,
    readsBehindJump_operationAt, pure, Except.pure]
  simp [readsBehindJump, List.range_succ]

/-- No node of `readsBehindJump` is left out. -/
theorem readsBehindJump_removeUnreachable (first second : InferredType) :
    readsBehindJump.removeUnreachable (readsBehindJumpAnalysis first second) =
      .ok readsBehindJump := by
  unfold Body.removeUnreachable
  rw [readsBehindJump_positions]
  rfl

theorem readsBehindJump_layout : readsBehindJump.layout = .ok readsBehindJumpLayout := by
  refine Body.layout_of_short [0, 3, 3, 4] (Body.checkLabels_of_placed (by decide) (by decide)) rfl
    rfl rfl ?_ ?_ (by decide)
  · simp [readsBehindJump, readsBehindJumpLayout, Layout.needsLong, Layout.jumpTarget?,
      Layout.isShort, Branch.isShort]
  · decide

/-- The code of `readsBehindJump` can be written. -/
theorem readsBehindJump_encode (attributes : List Attribute) (pool : Pool) :
    ∃ code, readsBehindJump.encode readsBehindJumpLayout attributes pool = .ok code pool := by
  have hlabel : readsBehindJumpLayout.labelOffset ⟨0⟩ = .ok 3 := by
    simp [Layout.labelOffset, readsBehindJumpLayout, pure, Except.pure]
  -- the jump is the only operation that needs a label
  have hjump : readsBehindJumpLayout.nodeBytes (.operation (.branch (.goto ⟨0⟩))) 0 false =
      .ok ((Branch.goto (3 : Int)).write false 0) := by
    simp only [Layout.nodeBytes, Branch.resolve, hlabel]
    rfl
  have hcode : ∃ bytes, readsBehindJumpLayout.bytecode = .ok bytes := by
    have hnodes : readsBehindJumpLayout.nodes =
        [(.operation (.branch (.goto ⟨0⟩)), 0, false), (.label ⟨0⟩, 3, false),
          (.operation (.step (.load .int 2)), 3, false),
          (.operation (.branch .returnVoid), 4, false)] := rfl
    unfold Layout.bytecode
    rw [hnodes]
    simp only [List.mapM_cons, hjump]
    exact ⟨_, rfl⟩
  rcases hcode with ⟨bytes, hbytes⟩
  refine ⟨⟨1, 3, bytes, [], attributes⟩, ?_⟩
  -- nothing is left to be added to the pool
  unfold Body.encode
  refine state_bind_ok.2 ⟨bytes, pool, ?_, rfl⟩
  rw [hbytes]
  rfl

/-- Emission succeeds if the types can be written. -/
theorem readsBehindJump_emit {first second : InferredType} {frame : Frame SerializedType}
    (hframe : (readsBehindJumpEntry first second).toFrame.serialize readsBehindJumpLayout =
      pure frame) :
    ∃ code pool, emit (readsBehindJumpAnalysis first second) (readsBehindJumpEntry first second)
      .stackMap ⟨readsBehindJump, ∅⟩ = .ok code ⟨readsBehindJump, pool⟩ := by
  have hwrite : (frameStates (readsBehindJumpAnalysis first second) [2] [0, 1, 2, 3]
      readsBehindJumpLayout).mapM (fun found =>
        placeFrame readsBehindJumpLayout found.1 found.2) = pure [⟨3, frame⟩] := by
    have hplaced : (readsBehindJumpAnalysis first second).placedFrames [2] [0, 1, 2, 3] =
        [(2, (readsBehindJumpEntry first second).toFrame)] := rfl
    rw [mapM_frameStates [2] [0, 1, 2, 3] readsBehindJumpLayout rfl, hplaced]
    simp only [List.mapM_cons, List.mapM_nil, Layout.writeFrame, hframe]
    rfl
  rcases exists_addFrames readsBehindJumpLayout (readsBehindJumpEntry first second).toFrame
    ⟨3, frame⟩ [] with ⟨attributes, pool, hadd⟩
  rcases readsBehindJump_encode attributes pool with ⟨code, hencode⟩
  -- there is room for all slots, and there are no frames yet
  have hraised : raiseSlots (readsBehindJumpAnalysis first second) ⟨readsBehindJump, ∅⟩ =
      .ok () ⟨readsBehindJump, ∅⟩ := rfl
  have hdropped : dropFrames ⟨readsBehindJump, ∅⟩ = .ok () ⟨readsBehindJump, ∅⟩ := rfl
  exact ⟨code, pool, emit_of_parts readsBehindJump_frameTargets
    (readsBehindJump_removeUnreachable first second) hraised hdropped readsBehindJump_layout
    (congrFun hwrite ∅) hadd hencode⟩

/-- With a whole value of two slots in front, the local can be read by the frame. -/
theorem readsBehindJump_checkable : ∃ code draft',
    Paired (readsBehindJumpEntry .long .top).locals ∧
      emit (readsBehindJumpAnalysis .long .top) (readsBehindJumpEntry .long .top) .stackMap
        ⟨readsBehindJump, ∅⟩ = .ok code draft' ∧
      Checkable (Resolver.ofClassPath ∅).superclass? readsBehindJumpContext
        (readsBehindJumpEntry .long .top) .stackMap (readsBehindJumpAnalysis .long .top)
        ⟨readsBehindJump, ∅⟩ draft' code := by
  have hpaired : Paired (readsBehindJumpEntry .long .top).locals := by
    intro slot hwidth
    rcases slot with _ | slot
    · rfl
    · exfalso
      rcases slot with _ | _ | slot
      · cases hwidth
      · cases hwidth
      · rw [localAt_of_le (Nat.le_add_left 3 slot)] at hwidth
        cases hwidth
  rcases @readsBehindJump_emit .long .top _ rfl with ⟨code, pool, hemit⟩
  exact ⟨code, ⟨readsBehindJump, pool⟩, hpaired, hemit, emit_checkable Resolver.rooted_of_empty
    hpaired (readsBehindJump_analyze .long .top (.ofClassPath ∅)) hemit⟩

/-- If the local is where the second half of a value of two slots should be, the frame does not say
what it holds, and it cannot be read by the frame. -/
theorem readsBehindJump_not_checkable : ∃ code draft',
    (Resolver.ofClassPath ∅).superclass?.Rooted ∧
      readsBehindJump.analyze (readsBehindJumpEntry .top .long) readsBehindJumpContext
        (.ofClassPath ∅) = .ok (readsBehindJumpAnalysis .top .long) (.ofClassPath ∅) ∧
      emit (readsBehindJumpAnalysis .top .long) (readsBehindJumpEntry .top .long) .stackMap
        ⟨readsBehindJump, ∅⟩ = .ok code draft' ∧
      ¬ Checkable (Resolver.ofClassPath ∅).superclass? readsBehindJumpContext
        (readsBehindJumpEntry .top .long) .stackMap (readsBehindJumpAnalysis .top .long)
        ⟨readsBehindJump, ∅⟩ draft' code := by
  rcases @readsBehindJump_emit .top .long _ rfl with ⟨code, pool, hemit⟩
  refine ⟨code, ⟨readsBehindJump, pool⟩, Resolver.rooted_of_empty,
    readsBehindJump_analyze .top .long (.ofClassPath ∅), hemit, ?_⟩
  rintro ⟨targets, layout, frames, htargets, _, rfl, _, hchecks⟩
  rcases readsBehindJump_frameTargets.symm.trans htargets with ⟨⟩
  rcases hchecks.passes (Nat.zero_le 2) rfl with ⟨_, before, after, hstarts, hpasses⟩
  -- the frame replaces what was known in front of the label
  have hframe : before =
      (readsBehindJumpEntry .top .long).toFrame.state := hstarts.1
  have hruns := hpasses.runs
  rw [hframe] at hruns
  cases hruns

end Emission

end Preverification

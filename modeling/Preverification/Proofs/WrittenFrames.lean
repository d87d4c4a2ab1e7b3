import Preverification.Proofs.DeclaredSlots
import Preverification.Proofs.FrameDeltas
import Preverification.Proofs.WrittenCode
import Mathlib.Data.List.Infix

/-!
# Frames that are written

The frames in emitted code are those of states that were recorded in front of operations to which
control may jump. The offsets of these operations ascend, and the numbers of slots were checked, so
the frames can be counted and are decoded as they are. No other attribute of the code holds frames.

* `Pool.addFrames_tells`: frames that ascend and fit are told by the attribute that is added for
  them.
* `Emission.Run.written_spec`: the frames that are written are those of the states, and they can be
  counted.
* `Emission.emit_showsFrames`: emitted code shows the frames of states that were recorded where
  control may jump.
-/

namespace Preverification

/-- A type is written as another one. What number stands for a class depends on the pool. -/
def Layout.Serializes (layout : Layout) (type : InferredType) (written : SerializedType) : Prop :=
  ∃ pool pool', type.serialize layout pool = .ok written pool'

/-- A frame in full is that of a state, at an offset. -/
structure FullFrame.IsOf (frame : FullFrame) (layout : Layout) (offset : Nat) (state : TypeState) :
    Prop where
  offset_eq : frame.offset = offset
  locals : List.Forall₂ layout.Serializes state.toFrame.locals.toList frame.locals
  stack : List.Forall₂ layout.Serializes state.stack.toList frame.stack

/-- The name of the attributes of a format. -/
def FrameFormat.attributeName : FrameFormat → String
  | .stackMapTable => AttributeContents.name StackMapTable
  | .stackMap => AttributeContents.name StackMap

/-- An attribute of a format tells frames. What those in a table are depends on the locals with
which the method is entered. -/
def FrameFormat.Tells (format : FrameFormat) (layout : Layout) (entry : TypeState) (attr : Attribute)
    (frames : List FullFrame) : Prop :=
  match format with
  | .stackMapTable => ∃ table locals, attr.decode StackMapTable = .ok table ∧
      List.Forall₂ layout.Serializes entry.toFrame.locals.toList locals ∧
      table.expand locals = some frames
  | .stackMap => ∃ map, attr.decode StackMap = .ok map ∧
      map.entries.map StackMapEntry.inFull = frames

/-- Some code shows frames: every attribute that can hold frames is of one format and tells them,
and there is such an attribute if there are frames. -/
structure Code.ShowsFrames (code : Code) (pool : Pool) (format : FrameFormat) (layout : Layout)
    (entry : TypeState) (frames : List FullFrame) : Prop where
  present : frames ≠ [] →
    ∃ attr ∈ code.attributes, attr.nameIn pool = .ok format.attributeName
  told : ∀ attr ∈ code.attributes, ∀ name ∈ Pool.frameNames, attr.nameIn pool = .ok name →
    name = format.attributeName ∧ format.Tells layout entry attr frames

/-! ### Types that are written -/

section Serializes

variable {layout : Layout}

/-- A type that is written has as many slots, and it can be used if it could be. -/
theorem Layout.Serializes.width_eq {type : InferredType} {written : SerializedType}
    (h : layout.Serializes type written) :
    width written = width type ∧ (written ≠ .top → type ≠ .top) := by
  rcases h with ⟨pool, pool', h⟩
  cases type with
  | object class' =>
    rcases state_bind_ok.1 h with ⟨index, _, _, h⟩
    rcases state_pure_ok.1 h with ⟨rfl, _⟩
    exact ⟨rfl, fun _ => nofun⟩
  | uninitialized site =>
    rcases state_bind_ok.1 h with ⟨offset, _, _, h⟩
    rcases state_pure_ok.1 h with ⟨rfl, _⟩
    exact ⟨rfl, fun _ => nofun⟩
  | top =>
    rcases state_pure_ok.1 h with ⟨rfl, _⟩
    exact ⟨rfl, fun hne => absurd rfl hne⟩
  | integer | float | double | long | null | uninitializedThis =>
    rcases state_pure_ok.1 h with ⟨rfl, _⟩
    exact ⟨rfl, fun _ => nofun⟩

theorem Layout.map_width_eq {types : List InferredType} {written : List SerializedType}
    (h : List.Forall₂ layout.Serializes types written) : written.map width = types.map width := by
  induction h with
  | nil => rfl
  | cons hhead _ ih => rw [List.map_cons, List.map_cons, hhead.width_eq.1, ih]

theorem Frame.serialize_ok {frame : Frame InferredType} {written : Frame SerializedType}
    {pool pool' : Pool} (h : frame.serialize layout pool = .ok written pool') :
    List.Forall₂ layout.Serializes frame.locals.toList written.locals.toList ∧
      List.Forall₂ layout.Serializes frame.stack.toList written.stack.toList := by
  have hall : ∀ {types : List InferredType} {found : List SerializedType} {pool pool' : Pool},
      types.mapM (InferredType.serialize layout) pool = .ok found pool' →
        List.Forall₂ layout.Serializes types found := fun hrun =>
    (state_mapM_ok (fun _ => True) layout.Serializes
      (fun _ _ before _ after _ hone => ⟨trivial, before, after, hone⟩) trivial hrun).2
  unfold serialize at h
  rcases state_bind_ok.1 h with ⟨stack, _, hstack, h⟩
  rcases state_bind_ok.1 h with ⟨locals, _, hlocals, h⟩
  rcases state_pure_ok.1 h with ⟨rfl, _⟩
  rw [WidthVector.toList_ofList, WidthVector.toList_ofList]
  exact ⟨hall hlocals, hall hstack⟩

end Serializes

/-! ### Slots of frames -/

namespace SlotsFit

variable {C S : Type} {maxStack maxLocals : Nat} {locals stack : List (VerificationType C S)}

/-- Each type has a slot at least. -/
theorem length_le_sum (types : List (VerificationType C S)) : types.length ≤ (types.map width).sum := by
  induction types with
  | nil => exact Nat.le_refl 0
  | cons type types ih =>
    have hpos : 1 ≤ width type := by
      cases type with
      | double | long => exact Nat.le_succ 1
      | _ => exact Nat.le_refl 1
    rw [List.length_cons, List.map_cons, List.sum_cons]
    omega

/-- There are no more values than slots. -/
theorem length_stack_le (h : SlotsFit maxStack maxLocals locals stack) : stack.length ≤ maxStack :=
  Nat.le_trans (length_le_sum stack) h.stack

/-- There are no more entries than slots if the last one can be used. -/
theorem length_locals_le (h : SlotsFit maxStack maxLocals locals stack)
    (hlast : ∀ type, locals.getLast? = some type → type ≠ .top) : locals.length ≤ maxLocals := by
  rcases List.eq_nil_or_concat locals with rfl | ⟨front, type, rfl⟩
  · exact Nat.zero_le _
  · have hend := h.locals front.length type (by simp) (hlast type (by simp))
    rw [List.concat_eq_append, List.take_left] at hend
    have hfront := length_le_sum (front ++ [type])
    rw [List.map_append, List.sum_append] at hfront
    rw [List.concat_eq_append]
    exact Nat.le_trans hfront hend

/-- Types that are written down end where they ended. -/
theorem serialized {layout : Layout} {locals stack : List InferredType}
    {locals' stack' : List SerializedType} (h : SlotsFit maxStack maxLocals locals stack)
    (hlocals : List.Forall₂ layout.Serializes locals locals')
    (hstack : List.Forall₂ layout.Serializes stack stack') :
    SlotsFit maxStack maxLocals locals' stack' where
  stack := by
    rw [Layout.map_width_eq hstack]
    exact h.stack
  locals index written hwritten hne := by
    have hlt : index < locals.length := by
      rw [hlocals.length_eq]
      exact (List.getElem?_eq_some_iff.1 hwritten).1
    have htype := List.getElem?_eq_getElem hlt
    have hwidth := (forall₂_getElem? hlocals htype hwritten).width_eq
    have hle := h.locals index _ htype (hwidth.2 hne)
    rwa [hwidth.1, List.map_take, Layout.map_width_eq hlocals, ← List.map_take]

end SlotsFit

namespace TypeState

/-- The entries of local variables start at the slots of these. -/
theorem localEntries_starts (locals : List InferredType) (paired : Bool) (index : Nat)
    (type : InferredType) (h : (localEntries paired locals)[index]? = some type) :
    locals[paired.toNat + (((localEntries paired locals).take index).map width).sum]? =
      some type := by
  induction locals generalizing paired index with
  | nil => cases paired <;> cases h
  | cons first rest ih =>
    cases paired with
    | true =>
      rw [Bool.toNat_true, Nat.add_comm, List.getElem?_cons_succ]
      have hnext := ih false index h
      rwa [Bool.toNat_false, Nat.zero_add] at hnext
    | false =>
      rw [Bool.toNat_false, Nat.zero_add]
      rw [localEntries] at h ⊢
      cases index with
      | zero => exact h
      | succ index =>
        -- behind a wide type the next slot is passed over
        have hnext := ih (width first = 2) index h
        rw [List.take_succ_cons, List.map_cons, List.sum_cons]
        rcases first.width_cases with hwidth | hwidth
        · rw [hwidth] at hnext ⊢
          rw [Nat.add_comm 1, List.getElem?_cons_succ]
          simpa using hnext
        · rw [hwidth] at hnext ⊢
          rw [Nat.add_right_comm 1 1, List.getElem?_cons_succ]
          simpa using hnext

variable {state : TypeState} {maxStack maxLocals : Nat}

/-- Slots that are enough for a state are enough for its frame. -/
theorem FitsIn.toFrame (h : state.FitsIn maxStack maxLocals) :
    SlotsFit maxStack maxLocals state.toFrame.locals.toList state.stack.toList where
  stack := by
    rw [← totalWidth_eq_sum, ← totalWidth_reverse]
    exact h.stack
  locals index type hentry hne := by
    -- the entries of the frame are the first ones of all
    have hfront : state.toFrame.locals.toList <+: localEntries false state.locals := by
      rw [toList_toFrame]
      have hsuffix := List.dropWhile_suffix (l := (localEntries false state.locals).reverse)
        fun type => decide (type = .top)
      have hreverse := List.reverse_prefix.2 hsuffix
      rwa [List.reverse_reverse] at hreverse
    rcases hfront with ⟨more, hmore⟩
    have hlt := (List.getElem?_eq_some_iff.1 hentry).1
    have hall : (localEntries false state.locals)[index]? = some type := by
      rw [← hmore, List.getElem?_append_left hlt]
      exact hentry
    have hstarts := localEntries_starts state.locals false index type hall
    rw [Bool.toNat_false, Nat.zero_add, ← hmore,
      List.take_append_of_le_length (Nat.le_of_lt hlt)] at hstarts
    have hlocal := localAt_of_lt (List.getElem?_eq_some_iff.1 hstarts).1
    have htype : localAt state.locals
        ((state.toFrame.locals.toList.take index).map width).sum = type :=
      Option.some.inj (hlocal.symm.trans hstarts)
    have hle := h.locals _ (htype ▸ hne)
    rwa [htype] at hle

/-- The last entry of a frame can be used. -/
theorem getLast?_toFrame {type : InferredType}
    (h : state.toFrame.locals.toList.getLast? = some type) : type ≠ .top := by
  rw [toList_toFrame, List.getLast?_reverse] at h
  rintro rfl
  have hhead := List.head?_dropWhile_not (fun type : InferredType => decide (type = .top))
    (localEntries false state.locals).reverse
  rw [h] at hhead
  cases hhead

end TypeState

theorem Analysis.Measures.fitsIn {analysis : Analysis} {state : TypeState}
    (h : analysis.Measures state) {maxStack maxLocals : Nat} (hstack : analysis.maxStack ≤ maxStack)
    (hlocals : analysis.maxLocals ≤ maxLocals) : state.FitsIn maxStack maxLocals where
  stack := by
    rw [← state.stack.height_eq]
    exact Nat.le_trans h.stack hstack
  locals := TypeState.usedLocals_le_iff.1 (Nat.le_trans h.locals hlocals)

/-! ### Attributes with frames -/

/-- Frames that ascend and fit are told by the attribute that is added for them. -/
theorem Pool.addFrames_tells {format : FrameFormat} {layout : Layout} {entry : TypeState}
    {frames : List PlacedFrame} {attributes : List Attribute} {pool pool' : Pool}
    (hvalid : pool.Valid)
    (h : Pool.addFrames format layout entry.toFrame frames pool = .ok attributes pool')
    (hascending : frames.Pairwise (·.offset < ·.offset)) (hfits : FramesFit frames) :
    frames = [] ∧ attributes = [] ∨ ∃ attr, attributes = [attr] ∧
      pool'.utf8 attr.name = .ok format.attributeName ∧
      format.Tells layout entry attr (frames.map PlacedFrame.inFull) := by
  unfold Pool.addFrames at h
  split at h
  · rename_i hempty
    exact .inl ⟨List.isEmpty_iff.1 hempty, (state_pure_ok.1 h).1.symm⟩
  · right
    cases format with
    | stackMapTable =>
      rcases state_bind_ok.1 h with ⟨first, between, hfirst, h⟩
      rcases state_bind_ok.1 h with ⟨attr, _, hattr, h⟩
      rcases state_pure_ok.1 h with ⟨rfl, rfl⟩
      have hbetween := ((Pool.adds_serializeFrame layout entry.toFrame pool).ok hvalid _ _ hfirst).1
      rcases ((Pool.adds_addAttribute between _).ok hbetween _ _ hattr).2.2 with ⟨hname, hcontents⟩
      rcases (frames_restored attr.name first frames hascending hfits).1 with ⟨table, hdecode, hall⟩
      rw [← hcontents] at hdecode
      exact ⟨attr, rfl, hname, table, _, hdecode, (Frame.serialize_ok hfirst).1, hall⟩
    | stackMap =>
      rcases state_bind_ok.1 h with ⟨attr, _, hattr, h⟩
      rcases state_pure_ok.1 h with ⟨rfl, rfl⟩
      rcases ((Pool.adds_addAttribute pool _).ok hvalid _ _ hattr).2.2 with ⟨hname, hcontents⟩
      rcases (frames_restored attr.name ⟨∅, ∅⟩ frames hascending hfits).2 with ⟨map, hdecode, hall⟩
      rw [← hcontents] at hdecode
      exact ⟨attr, rfl, hname, map, hdecode, hall⟩

/-- If the attributes of a body do not hold frames, only extra attributes of its code do. -/
theorem Layout.Writes.mem_extra {layout : Layout} {body : Body} {extra : List Attribute} {code : Code}
    {pool : Pool} (h : layout.Writes body extra code pool) (hp : pool.Formed)
    (hbody : ∀ attr ∈ body.attributes, ∀ name ∈ Pool.frameNames, attr.nameIn pool ≠ .ok name) :
    ∀ attr ∈ code.attributes, ∀ name ∈ Pool.frameNames, attr.nameIn pool = .ok name →
      attr ∈ extra := by
  rcases h with ⟨lines, localVariables, variableTypes, hlines, hvariables, htypes, rfl⟩
  intro attr hattr name hframe hname
  have hother : ∀ {found : String}, found ∉ Pool.frameNames → pool.utf8 attr.name ≠ .ok found := by
    intro found hnot hfound
    cases hfound.symm.trans hname
    exact hnot hframe
  simp only [List.mem_append] at hattr
  rcases hattr with (((hattr | hattr) | hattr) | hattr) | hattr
  · exact absurd hname (hbody attr hattr name hframe)
  · exact absurd (hlines.utf8 hp attr hattr) (hother (by decide))
  · exact absurd (hvariables.utf8 hp attr hattr) (hother (by decide))
  · exact absurd (htypes.utf8 hp attr hattr) (hother (by decide))
  · exact hattr

/-- Where something is known, there is an operation. -/
theorem Analysis.Explored.exists_operation {analysis : Analysis} {body : Body}
    (he : analysis.Explored body) {position : Nat} (hlive : analysis.isLive position) :
    ∃ operation, body.nodes[position]? = some (.operation operation) := by
  rcases ((he.isLive_iff position).1 hlive).arrives with ⟨_, harrives⟩
  exact harrives.operation

namespace Emission

variable {analysis : Analysis}

theorem ite_map_eq_some {wanted : Bool} {offset : Nat} {known : Option TypeState}
    {found : Nat × TypeState} : (if wanted then known.map ((offset, ·)) else none) = some found ↔
      wanted = true ∧ offset = found.1 ∧ known = some found.2 := by
  cases wanted with
  | false => simp
  | true =>
    rw [if_pos rfl, Option.map_eq_some_iff]
    constructor
    · rintro ⟨state, hstate, rfl⟩
      exact ⟨rfl, rfl, hstate⟩
    · rintro ⟨_, rfl, hstate⟩
      exact ⟨found.2, hstate, rfl⟩

/-- States are collected for the operations that are targets, at their offsets. -/
theorem mem_frameStates {targets positions : List Nat} {layout : Layout} {found : Nat × TypeState} :
    found ∈ frameStates analysis targets positions layout ↔ ∃ place position : Nat,
      positions[place]? = some position ∧ position ∈ targets ∧
        layout.offset? place = some found.1 ∧ analysis.state? position = some found.2 := by
  unfold frameStates Layout.offset?
  simp only [List.mem_filterMap, ite_map_eq_some]
  simp only [Std.HashSet.contains_ofList, List.contains_iff_mem, Option.map_eq_some_iff]
  constructor
  · rintro ⟨⟨position, entry⟩, hmem, htarget, hoffset, hstate⟩
    rcases List.mem_iff_getElem?.1 hmem with ⟨place, hplace⟩
    rcases List.getElem?_zip_eq_some.1 hplace with ⟨hposition, hentry⟩
    exact ⟨place, position, hposition, htarget, ⟨entry, hentry, hoffset⟩, hstate⟩
  · rintro ⟨place, position, hposition, htarget, ⟨entry, hentry, hoffset⟩, hstate⟩
    have hplace : (positions.zip layout.nodes)[place]? = some (position, entry) :=
      List.getElem?_zip_eq_some.2 ⟨hposition, hentry⟩
    exact ⟨(position, entry), List.mem_of_getElem? hplace, htarget, hoffset, hstate⟩

namespace Run

variable {entry : TypeState} {format : FrameFormat} {draft draft' : MethodDraft} {code : Code}

/-- The states that frames are made of, by offset. -/
def states (run : Run analysis entry format draft draft' code) : List (Nat × TypeState) :=
  frameStates analysis run.targets (analysis.keptPositions draft.body.nodes) run.layout

theorem mem_states (run : Run analysis entry format draft draft' code) {found : Nat × TypeState} :
    found ∈ run.states ↔ ∃ place position : Nat,
      (analysis.keptPositions draft.body.nodes)[place]? = some position ∧
        draft.body.IsJumpTarget position ∧ run.layout.offset? place = some found.1 ∧
          analysis.state? position = some found.2 := by
  unfold states
  simp only [mem_frameStates, Body.mem_frameTargets run.targets_ok]

/-- Where there is a state, there is an operation. -/
theorem exists_operation (run : Run analysis entry format draft draft' code)
    (he : analysis.Explored draft.body) {place position : Nat} {state : TypeState}
    (hposition : (analysis.keptPositions draft.body.nodes)[place]? = some position)
    (hstate : analysis.state? position = some state) : ∃ operation,
      draft.body.nodes[position]? = some (.operation operation) ∧
        draft'.body.nodes[place]? = some (.operation operation) := by
  have hlive : analysis.isLive position := by
    unfold Analysis.isLive
    rw [hstate]
    rfl
  rcases he.exists_operation hlive with ⟨operation, ho⟩
  exact ⟨operation, ho, (run.keeps.node hposition).trans ho⟩

/-- The offsets of frames ascend, and all of them are in the code. -/
theorem states_ascend (run : Run analysis entry format draft draft' code)
    (he : analysis.Explored draft.body) :
    (run.states.map (·.1)).Pairwise (· < ·) ∧
      ∀ found ∈ run.states, found.1 < run.layout.codeLength := by
  constructor
  · unfold states frameStates
    rw [List.pairwise_map, List.pairwise_filterMap, List.pairwise_iff_getElem]
    intro place place' hlt hlt' hless found hfound found' hfound'
    have hentry := List.getElem?_zip_eq_some.1 (List.getElem?_eq_getElem hlt)
    have hentry' := List.getElem?_zip_eq_some.1 (List.getElem?_eq_getElem hlt')
    rcases ite_map_eq_some.1 hfound with ⟨_, hoffset, hstate⟩
    rcases ite_map_eq_some.1 hfound' with ⟨_, hoffset', _⟩
    rcases run.exists_operation he hentry.1 hstate with ⟨operation, _, hnode⟩
    rw [← hoffset, ← hoffset']
    refine (run.places.lt_iff (Nat.le_of_lt hless) ?_ ?_).2
      ⟨place, operation, Nat.le_refl _, hless, hnode⟩
    · unfold Layout.offset?
      rw [hentry.2]
      rfl
    · unfold Layout.offset?
      rw [hentry'.2]
      rfl
  · intro found hmem
    rcases run.mem_states.1 hmem with ⟨place, position, hposition, _, hoffset, hstate⟩
    rcases run.exists_operation he hposition hstate with ⟨_, _, hnode⟩
    exact run.places.offset_lt hnode hoffset

/-- The frames that are written are those of the states, and they can be counted. -/
theorem written_spec (run : Run analysis entry format draft draft' code)
    (he : analysis.Explored draft.body)
    (hfits : ∀ found ∈ run.states, found.2.FitsIn 65535 65535) :
    List.Forall₂ (fun found frame => frame.IsOf run.layout found.1 found.2) run.states
        (run.written.map PlacedFrame.inFull) ∧
      run.written.Pairwise (·.offset < ·.offset) ∧ FramesFit run.written := by
  rcases run.states_ascend he with ⟨hascend, hinside⟩
  have hlength := run.places.codeLength_le
  have hall : List.Forall₂ (fun found placed => found ∈ run.states ∧
      placed.inFull.IsOf run.layout found.1 found.2) run.states run.written := by
    refine (state_mapM_ok (fun _ => True) _ ?_ trivial run.written_ok).2
    intro found hmem pool placed pool' _ hplaced
    have hlt : found.1 < 65536 := by
      have hless := hinside found hmem
      unfold Layout.maxCodeLength at hlength
      omega
    unfold placeFrame at hplaced
    rcases state_bind_ok.1 hplaced with ⟨frame, _, hframe, hplaced⟩
    rcases state_pure_ok.1 hplaced with ⟨rfl, _⟩
    have htypes := Frame.serialize_ok hframe
    exact ⟨trivial, hmem, UInt16.toNat_ofNat_of_lt' hlt, htypes.1, htypes.2⟩
  have hoffsets : run.states.map (·.1) = run.written.map (·.offset.toNat) := by
    rw [← List.forall₂_eq_eq_eq, List.forall₂_map_left_iff, List.forall₂_map_right_iff]
    exact hall.imp fun _ _ h => h.2.offset_eq.symm
  -- ascending offsets inside the code are no more than its bytes
  have hcount : (run.states.map (·.1)).length ≤ run.layout.codeLength := by
    have hsubset : run.states.map (·.1) ⊆ List.range run.layout.codeLength := by
      intro offset hmem
      rcases List.mem_map.1 hmem with ⟨found, hfound, rfl⟩
      exact List.mem_range.2 (hinside found hfound)
    have hnodup : (run.states.map (·.1)).Nodup := hascend.imp Nat.ne_of_lt
    simpa using (List.subperm_of_subset hnodup hsubset).length_le
  refine ⟨?_, ?_, ?_, ?_⟩
  · rw [List.forall₂_map_right_iff]
    exact hall.imp fun _ _ h => h.2
  · have hpairs := hoffsets ▸ hascend
    rw [List.pairwise_map] at hpairs
    exact hpairs.imp UInt16.lt_iff_toNat_lt.2
  · rw [hoffsets, List.length_map] at hcount
    exact Nat.le_trans hcount hlength
  · intro placed hmem
    rcases forall₂_exists hall.flip hmem with ⟨found, _, hfound, hof⟩
    have hslots := (hfits found hfound).toFrame
    have hlocals := hslots.length_locals_le fun _ => TypeState.getLast?_toFrame
    have hstack := hslots.length_stack_le
    rw [hof.locals.length_eq] at hlocals
    rw [hof.stack.length_eq] at hstack
    exact ⟨hlocals, hstack⟩

/-- Attributes that are passed on do not hold frames. -/
theorem attributes_unframed (run : Run analysis entry format draft draft' code)
    (hvalid : draft.constants.Valid) : ∀ attr ∈ draft'.body.attributes, ∀ name ∈ Pool.frameNames,
      attr.nameIn draft'.constants ≠ .ok name := by
  intro attr hattr name hframe hname
  rcases run.pools hvalid with ⟨_, hextends, _, hextends', _⟩
  rw [run.body_eq] at hattr
  have hpassed := (except_filterM_ok run.attributes_ok attr hattr).2
  rcases except_bind_ok.1 hpassed with ⟨holds, hholds, hnot⟩
  rcases except_bind_ok.1 hholds with ⟨table, htable, hholds⟩
  rcases except_bind_ok.1 hholds with ⟨map, hmap, heither⟩
  rcases except_bind_ok.1 htable with ⟨found, hfound, htable⟩
  rcases except_bind_ok.1 hmap with ⟨found', hfound', hmap⟩
  cases hfound.symm.trans hfound'
  cases ((hextends.trans hextends').utf8 hvalid.built hfound).symm.trans hname
  -- the name was compared with both names of frames
  have hcompared : (name == AttributeContents.name StackMapTable ||
      name == AttributeContents.name StackMap) = false := by
    cases htable
    cases hmap
    cases heither
    simpa using Except.ok.inj hnot
  rw [Bool.or_eq_false_iff, beq_eq_false_iff_ne, beq_eq_false_iff_ne] at hcompared
  rcases List.mem_cons.1 hframe with hsame | hframe
  · exact hcompared.1 hsame
  · exact hcompared.2 (List.mem_singleton.1 hframe)

/-- The frames in emitted code are those of the states. -/
theorem showsFrames (run : Run analysis entry format draft draft' code)
    (hvalid : draft.constants.Valid) (he : analysis.Explored draft.body)
    (hfits : ∀ found ∈ run.states, found.2.FitsIn 65535 65535) :
    ∃ frames, code.ShowsFrames draft'.constants format run.layout entry frames ∧
      List.Forall₂ (fun found frame => frame.IsOf run.layout found.1 found.2) run.states frames := by
  rcases run.written_spec he hfits with ⟨hall, hascending, hcounted⟩
  refine ⟨_, ?_, hall⟩
  rcases run.pools hvalid with ⟨hnamed, _, hvalid', hextends', _⟩
  have hwrites := run.writes hvalid
  have hextra := hwrites.mem_extra hvalid'.toFormed (run.attributes_unframed hvalid)
  have hlast := (Body.encode_ok run.code_ok).subset
  -- there are no frames, or one attribute that tells them
  rcases Pool.addFrames_tells (run.framed_valid hvalid).1 run.extra_ok hascending hcounted with
    ⟨hnone, hempty⟩ | ⟨attr, hattr, hname, htells⟩
  · rw [hempty] at hextra
    rw [hnone]
    exact ⟨fun hne => absurd rfl hne, fun attr hmem name hframe hname =>
      absurd (hextra attr hmem name hframe hname) List.not_mem_nil⟩
  · have hname' := hextends'.utf8 hnamed.built hname
    constructor
    · intro _
      exact ⟨attr, hlast (hattr ▸ List.mem_singleton.2 rfl), hname'⟩
    · intro found hmem name hframe hfound
      have hsame := hextra found hmem name hframe hfound
      rw [hattr] at hsame
      cases List.mem_singleton.1 hsame
      cases hfound.symm.trans hname'
      exact ⟨rfl, htells⟩

end Run

variable {entry : TypeState} {format : FrameFormat} {draft draft' : MethodDraft} {code : Code}

/-- Emitted code shows the frames of states that were recorded where control may jump. -/
theorem emit_showsFrames (hvalid : draft.constants.Valid) {context : MethodContext}
    {resolver resolver' : Resolver}
    (hanalyze : draft.body.analyze entry context resolver = .ok analysis resolver')
    (hemit : emit analysis entry format draft = .ok code draft') :
    ∃ (run : Run analysis entry format draft draft' code) (frames : List FullFrame),
      code.ShowsFrames draft'.constants format run.layout entry frames ∧
        List.Forall₂ (fun found frame => frame.IsOf run.layout found.1 found.2) run.states frames := by
  rcases exists_run hemit with ⟨run⟩
  have hslots := emit_slots hemit
  have hstack := draft'.body.maxStack.toNat_lt
  have hlocals := draft'.body.maxLocals.toNat_lt
  refine ⟨run, run.showsFrames hvalid (Body.analyze_explored hanalyze).1 fun found hfound => ?_⟩
  rcases run.mem_states.1 hfound with ⟨_, position, _, _, _, hstate⟩
  have hmeasures := ((Body.analyze_measures hanalyze).2 position _ hstate).1
  exact hmeasures.fitsIn (by omega) (by omega)

end Emission

end Preverification

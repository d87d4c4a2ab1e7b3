import Mathlib.Data.List.Range
import Preverification.Proofs.RoundTrip

/-!
# Bodies that are decoded

Code is decoded only if operations fill it and its branches and handlers stay on their boundaries.
Then the operations of the body are the ones that fill the code, in the same order, and every offset
that something names has a label of its own in front of the operation there. The labels are numbered
as they come, so what is looked up by its offset is always found.

* `Code.OnBoundaries`: operations fill the code, and what it names is on their boundaries.
* `Body.Consistent`: every offset that something names has a label of its own.
* `Body.decode_consistent`: code is decoded just when it stays on boundaries, and its body is
  consistent.
-/

namespace Preverification

namespace Node

/-- The operation of a node. -/
def operation? : Node → Option (Operation Label)
  | operation op => some op
  | label _ | line _ => none

end Node

/-- A label stands in front of the operation at an offset, with only lines in between. -/
inductive Label.StandsAt (nodes : List Node) (entries : List (Nat × Operation Nat)) (label : Label) :
    Nat → Prop where
  | intro {front back : List Node} {lines : List UInt16} {operation : Operation Label}
    {before behind : List (Nat × Operation Nat)} {entry : Nat × Operation Nat}
    (hnodes : nodes = front ++ .label label :: (lines.map .line ++ .operation operation :: back))
    (hentries : entries = before ++ entry :: behind)
    (hcount : (front.filterMap Node.operation?).length = before.length) :
    StandsAt nodes entries label entry.1

/-- A label marks an offset of some code among its nodes: it stands at the offset, or it is the last
node and the offset is the end of the code. -/
inductive Label.Marks (nodes : List Node) (entries : List (Nat × Operation Nat)) (length : Nat)
    (label : Label) : Nat → Prop where
  | operation {offset : Nat} (h : label.StandsAt nodes entries offset) :
    Marks nodes entries length label offset
  | stop {front : List Node} (hnodes : nodes = front ++ [.label label]) :
    Marks nodes entries length label length

/-- A label stands in front of another one, and an operation stands between them. -/
def Label.Encloses (nodes : List Node) (start stop : Label) : Prop :=
  ∃ (front inside back : List Node) (operation : Operation Label),
    nodes = front ++ .label start :: (inside ++ .label stop :: back) ∧ .operation operation ∈ inside

/-- The branches and handlers of some code stay on the boundaries of its operations, and handlers
protect something. -/
structure Code.OnBoundaries (code : Code) (entries : List (Nat × Operation Nat)) : Prop where
  targets : ∀ entry ∈ entries, ∀ target ∈ entry.2.targets, target ∈ entries.map (·.1)
  starts : ∀ exception ∈ code.exceptions, exception.start.toNat ∈ entries.map (·.1)
  stops : ∀ exception ∈ code.exceptions,
    exception.stop.toNat ∈ entries.map (·.1) ∨ exception.stop.toNat = code.bytecode.length
  handlers : ∀ exception ∈ code.exceptions, exception.handler.toNat ∈ entries.map (·.1)
  nonempty : ∀ exception ∈ code.exceptions, exception.start.toNat < exception.stop.toNat

/-- A body says what the operations say that fill some code. Offsets have become labels, and every
offset that was looked up has one: no label is ever made up. -/
structure Body.Consistent (body : Body) (code : Code) (pool : Pool)
    (entries : List (Nat × Operation Nat)) (labels : Std.HashMap Nat Label) : Prop where
  tiles : Operation.Tiles pool code.bytecode 0 entries
  operations : body.nodes.filterMap Node.operation? =
    entries.map fun entry => entry.2.map (labels.getD · default)
  -- the labels are numbered as they come, and none comes twice
  numbered : body.nodes.filterMap Node.label? = (List.range body.issued).map Label.mk
  marks : ∀ label, .label label ∈ body.nodes → ∃ offset, labels[offset]? = some label ∧
    label.Marks body.nodes entries code.bytecode.length offset
  checked : body.checkLabels = .ok ()
  boundaries : code.OnBoundaries entries
  targets : ∀ entry ∈ entries, ∀ target ∈ entry.2.targets,
    ∃ label, labels[target]? = some label ∧ label.StandsAt body.nodes entries target
  handlers : body.handlers = code.exceptions.map (handler (labels.getD · default))
  starts : ∀ exception ∈ code.exceptions,
    ∀ offset ∈ [exception.start.toNat, exception.handler.toNat],
      ∃ label, labels[offset]? = some label ∧ label.StandsAt body.nodes entries offset
  stops : ∀ exception ∈ code.exceptions, ∃ label, labels[exception.stop.toNat]? = some label ∧
    label.Marks body.nodes entries code.bytecode.length exception.stop.toNat
  guarded : ∀ handler ∈ body.handlers, handler.start.Encloses body.nodes handler.stop
  ranges : ∀ range ∈ body.localVariables ++ body.variableTypes,
    ∃ entry, range = variableRange (labels.getD · default) entry ∧
      (∀ offset ∈ variableOffsets entry, offset ∈ labels) ∧
      range.start.Encloses body.nodes range.stop
  -- the constants that operations name are of the right kinds
  fits : ∀ operation, .operation operation ∈ body.nodes → operation.Fits pool

/-! ### The nodes of a body -/

namespace Body

variable {code : Code} {decoded : DecodedCode} {attributes : CodeAttributes} {pool : Pool}
  {labels : Std.HashMap Nat Label} {lines : Std.HashMap Nat (List UInt16)} {offset : Nat}
  {referenced : Std.HashSet Nat} {label : Label}

/-- The nodes of some operations. -/
def groups (labels : Std.HashMap Nat Label) (lines : Std.HashMap Nat (List UInt16))
    (entries : List (Nat × Operation Nat)) : List Node :=
  entries.flatMap fun entry => operationNodes labels lines entry.1 entry.2

theorem nodes_assembleWith (labels : Std.HashMap Nat Label) (code : Code) (decoded : DecodedCode)
    (attributes : CodeAttributes) : (assembleWith labels code decoded attributes).nodes =
      groups labels (linesByOffset decoded attributes.lines) decoded.operations ++
        labels[decoded.length]?.toList.map Node.label := rfl

/-- The operations of the nodes are the operations that the nodes are made for. -/
theorem filterMap_operation_groups (entries : List (Nat × Operation Nat)) :
    (groups labels lines entries).filterMap Node.operation? =
      entries.map fun entry => entry.2.map (labels.getD · default) := by
  have hone : ∀ entry : Nat × Operation Nat,
      (operationNodes labels lines entry.1 entry.2).filterMap Node.operation? =
        [entry.2.map (labels.getD · default)] := by
    intro entry
    have hheads : (labels[entry.1]?.toList.map Node.label ++
        (lines.getD entry.1 []).map Node.line).filterMap Node.operation? = [] := by
      refine List.filterMap_eq_nil_iff.2 fun node hnode => ?_
      have hsilent := Layout.silent_heads _ _ node hnode
      cases node with
      | label | line => rfl
      | operation => cases hsilent
    unfold operationNodes
    rw [List.filterMap_append, hheads]
    rfl
  unfold groups
  rw [List.filterMap_flatMap]
  simp only [hone]
  exact List.flatMap_pure_eq_map _ _

/-- The operations of a body are those that it is made of, with labels for offsets. -/
theorem operations_assembleWith (labels : Std.HashMap Nat Label) :
    (assembleWith labels code decoded attributes).nodes.filterMap Node.operation? =
      decoded.operations.map fun entry => entry.2.map (labels.getD · default) := by
  rw [nodes_assembleWith, List.filterMap_append, filterMap_operation_groups]
  cases labels[decoded.length]? <;> simp [Node.operation?]

/-- The labels of the nodes, and of the end, are those of the offsets. -/
theorem labels_groups (labels : Std.HashMap Nat Label) (lines : Std.HashMap Nat (List UInt16))
    (entries : List (Nat × Operation Nat)) (stop : Nat) :
    (groups labels lines entries ++ labels[stop]?.toList.map Node.label).filterMap Node.label? =
      (entries.map (·.1) ++ [stop]).filterMap (labels[·]?) := by
  have hone : ∀ entry : Nat × Operation Nat,
      (operationNodes labels lines entry.1 entry.2).filterMap Node.label? =
        labels[entry.1]?.toList := by
    intro entry
    unfold operationNodes
    cases labels[entry.1]? <;> simp [Node.label?, List.filterMap_map, Function.comp_def]
  have hentries : (groups labels lines entries).filterMap Node.label? =
      (entries.map (·.1)).filterMap (labels[·]?) := by
    unfold groups
    rw [List.filterMap_flatMap, List.filterMap_map, List.filterMap_eq_flatMap_toList]
    simp only [hone, Function.comp_apply]
  rw [List.filterMap_append, List.filterMap_append, hentries]
  cases hend : labels[stop]? <;> simp [Node.label?, hend]

/-- The labels of a body that is made of operations are those of the offsets. -/
theorem labels_assembleWith (labels : Std.HashMap Nat Label) :
    (assembleWith labels code decoded attributes).nodes.filterMap Node.label? =
      decoded.places.filterMap (labels[·]?) :=
  labels_groups labels _ decoded.operations decoded.length

/-- The labels of offsets that ascend are numbered as they come. -/
theorem filterMap_labelOffsets (h : decoded.places.Pairwise (· < ·)) :
    decoded.places.filterMap ((labelOffsets decoded referenced)[·]?) =
      (List.range (labelOffsets decoded referenced).size).map Label.mk := by
  -- places without a label are passed over
  have hlabelled : decoded.places.filterMap ((labelOffsets decoded referenced)[·]?) =
      (labelledPlaces decoded referenced).filterMap ((labelOffsets decoded referenced)[·]?) := by
    unfold labelledPlaces
    rw [List.filterMap_filter]
    refine List.filterMap_congr fun offset _ => ?_
    split
    · rfl
    · rename_i hnot
      refine Option.eq_none_iff_forall_ne_some.2 fun label hlabel => hnot ?_
      exact (List.mem_filter.1 (List.mem_of_getElem? ((labelOffsets_eq_some h).1 hlabel))).2
  have hnumber : ∀ found ∈ (labelledPlaces decoded referenced).zipIdx,
      (labelOffsets decoded referenced)[found.1]? = some (Label.mk found.2) := by
    intro found hfound
    exact (labelOffsets_eq_some h).2 (List.mk_mem_zipIdx_iff_getElem?.1 hfound)
  rw [hlabelled, size_labelOffsets h, List.range_eq_range', ← List.zipIdx_map_snd, List.map_map,
    ← List.filterMap_eq_map]
  conv_lhs => rw [← List.zipIdx_map_fst 0 (labelledPlaces decoded referenced), List.filterMap_map]
  exact List.filterMap_congr hnumber

/-- The label of an operation stands there. -/
theorem standsAt_assembleWith (hoffset : offset ∈ decoded.operations.map (·.1))
    (hlabel : labels[offset]? = some label) :
    label.StandsAt (assembleWith labels code decoded attributes).nodes decoded.operations offset := by
  obtain ⟨entry, hentry, rfl⟩ := List.mem_map.1 hoffset
  obtain ⟨before, behind, heq⟩ := List.append_of_mem hentry
  have hnodes : (assembleWith labels code decoded attributes).nodes =
      groups labels (linesByOffset decoded attributes.lines) before ++ .label label ::
        (((linesByOffset decoded attributes.lines).getD entry.1 []).map .line ++
          .operation (entry.2.map (labels.getD · default)) ::
            (groups labels (linesByOffset decoded attributes.lines) behind ++
              labels[decoded.length]?.toList.map Node.label)) := by
    rw [nodes_assembleWith, heq]
    simp [groups, operationNodes, hlabel]
  refine .intro hnodes heq ?_
  rw [filterMap_operation_groups, List.length_map]

/-- The label of a place marks it. -/
theorem marks_assembleWith (hoffset : offset ∈ decoded.places)
    (hlabel : labels[offset]? = some label) :
    label.Marks (assembleWith labels code decoded attributes).nodes decoded.operations
      decoded.length offset := by
  rcases List.mem_append.1 hoffset with hstart | hend
  · exact .operation (standsAt_assembleWith hstart hlabel)
  · obtain rfl := List.mem_singleton.1 hend
    have hnodes : (assembleWith labels code decoded attributes).nodes =
        groups labels (linesByOffset decoded attributes.lines) decoded.operations ++
          [.label label] := by
      rw [nodes_assembleWith, hlabel]
      rfl
    exact .stop hnodes

/-- A range of places that have labels is enclosed by the labels, with an operation in between. -/
theorem encloses_assembleWith (hread : decoded.Read pool) {start stop : Nat} {last : Label}
    (hrange : decoded.isRange start stop = true) (hstart : labels[start]? = some label)
    (hstop : labels[stop]? = some last) :
    label.Encloses (assembleWith labels code decoded attributes).nodes last := by
  obtain ⟨hlt, hmem, hplace⟩ := hread.isRange_iff.1 hrange
  obtain ⟨entry, hentry, rfl⟩ := List.mem_map.1 hmem
  obtain ⟨before, behind, heq⟩ := List.append_of_mem hentry
  have hascends := hread.places_ascend
  unfold DecodedCode.places at hascends hplace
  rw [heq, List.map_append, List.map_cons, List.append_assoc, List.cons_append] at hascends hplace
  -- the end comes behind the operation at the start
  have hbehind : stop ∈ behind.map (·.1) ++ [decoded.length] := by
    rcases List.mem_append.1 hplace with hearly | hlate
    · have hless := (List.pairwise_append.1 hascends).2.2 stop hearly entry.1 List.mem_cons_self
      exact absurd hlt (Nat.lt_asymm hless)
    · exact List.mem_of_ne_of_mem (Nat.ne_of_gt hlt) hlate
  have hlast : Node.label last ∈ groups labels (linesByOffset decoded attributes.lines) behind ++
      labels[decoded.length]?.toList.map .label := by
    rw [← mem_filterMap_label, labels_groups]
    exact List.mem_filterMap.2 ⟨stop, hbehind, hstop⟩
  obtain ⟨middle, back, hmiddle⟩ := List.append_of_mem hlast
  refine ⟨groups labels (linesByOffset decoded attributes.lines) before,
    ((linesByOffset decoded attributes.lines).getD entry.1 []).map .line ++
      .operation (entry.2.map (labels.getD · default)) :: middle, back, _, ?_,
    List.mem_append_right _ List.mem_cons_self⟩
  have hgroup : groups labels (linesByOffset decoded attributes.lines) (before ++ entry :: behind) =
      groups labels (linesByOffset decoded attributes.lines) before ++ .label label ::
        (((linesByOffset decoded attributes.lines).getD entry.1 []).map .line ++
          .operation (entry.2.map (labels.getD · default)) ::
            groups labels (linesByOffset decoded attributes.lines) behind) := by
    simp [groups, operationNodes, hstart]
  rw [nodes_assembleWith, heq, hgroup, List.append_assoc, List.cons_append, List.append_assoc,
    List.cons_append, hmiddle, List.append_assoc, List.cons_append]

/-! ### What is decoded -/

/-- Code that stays on the boundaries of the operations that fill it is accepted. -/
theorem accepted_of_onBoundaries (hread : decoded.Read pool)
    (hlength : decoded.length = code.bytecode.length)
    (hboundaries : code.OnBoundaries decoded.operations) : decoded.checkTargets = .ok () ∧
      ∀ exception ∈ code.exceptions, decoded.checkException exception = .ok () := by
  constructor
  · unfold DecodedCode.checkTargets
    rw [except_forM_ok]
    rintro ⟨place, operation⟩ hentry
    -- no operation names anything but an operation
    have hnone : operation.targets.find? (!decoded.isStart ·) = none := by
      refine List.find?_eq_none.2 fun target htarget => ?_
      rw [hread.isStart_iff.2 (hboundaries.targets _ hentry target htarget)]
      exact Bool.false_ne_true
    dsimp only
    rw [hnone]
    rfl
  · intro exception hexception
    -- a range may end where the code ends
    have hstop : exception.stop.toNat ∈ decoded.places := by
      refine List.mem_append.2 ((hboundaries.stops exception hexception).imp_right fun heq => ?_)
      rw [heq, ← hlength]
      exact List.mem_singleton_self _
    have hrange := hread.isRange_iff.2
      ⟨hboundaries.nonempty exception hexception, hboundaries.starts exception hexception, hstop⟩
    have hhandler := hread.isStart_iff.2 (hboundaries.handlers exception hexception)
    simp [DecodedCode.checkException, hrange, hhandler, pure, Except.pure]

theorem exists_range {range : VariableRange}
    (hrange : range ∈ (assemble code decoded attributes).localVariables ++
      (assemble code decoded attributes).variableTypes) :
    ∃ entry ∈ attributes.localVariables.filter decoded.admits ++
        attributes.variableTypes.filter decoded.admits,
      range = variableRange ((labelTable code decoded attributes).getD · default) entry := by
  have hrange : range ∈ (attributes.localVariables.filter decoded.admits ++
      attributes.variableTypes.filter decoded.admits).map
        (variableRange ((labelTable code decoded attributes).getD · default)) := by
    rw [List.map_append]
    exact hrange
  obtain ⟨entry, hentry, rfl⟩ := List.mem_map.1 hrange
  exact ⟨entry, hentry, rfl⟩

theorem label_mem_assemble : .label label ∈ (assemble code decoded attributes).nodes ↔
    ∃ offset ∈ decoded.places, (labelTable code decoded attributes)[offset]? = some label := by
  have hlabels : (assemble code decoded attributes).nodes.filterMap Node.label? =
      decoded.places.filterMap ((labelTable code decoded attributes)[·]?) := labels_assembleWith _
  rw [← mem_filterMap_label, hlabels, List.mem_filterMap]

section Checked

variable (h : decoded.Checked code pool)
include h

theorem onBoundaries (hlength : decoded.length = code.bytecode.length) :
    code.OnBoundaries decoded.operations where
  targets := fun entry hentry target htarget => h.isStart_iff.1 (h.targets entry hentry target htarget)
  starts := fun exception hexception =>
    (h.isRange_iff.1 (h.ranges exception hexception).1).2.1
  stops := by
    intro exception hexception
    obtain ⟨-, -, hstop⟩ := h.isRange_iff.1 (h.ranges exception hexception).1
    rw [← hlength]
    exact (List.mem_append.1 hstop).imp_right List.mem_singleton.1
  handlers := fun exception hexception => h.isStart_iff.1 (h.ranges exception hexception).2
  nonempty := fun exception hexception =>
    (h.isRange_iff.1 (h.ranges exception hexception).1).1

/-- The places of an exception table entry have labels. -/
theorem labelTable_exception {exception : ExceptionEntry} (hexception : exception ∈ code.exceptions)
    (hoffset : offset ∈ [exception.start.toNat, exception.stop.toNat, exception.handler.toNat]) :
    offset ∈ decoded.places ∧ (labelTable code decoded attributes)[offset]? =
      some ((labelTable code decoded attributes).getD offset default) := by
  obtain ⟨hstart, hstop, hhandler⟩ := h.stands hexception
  have hplace : offset ∈ decoded.places := by
    rcases List.mem_cons.1 hoffset with rfl | hoffset
    · exact hstart
    · rcases List.mem_cons.1 hoffset with rfl | hoffset
      · exact hstop
      · exact List.mem_singleton.1 hoffset ▸ hhandler
  exact ⟨hplace, labelTable_eq_some h.places_ascend hplace
    (mem_referencedOffsets_of_exception hexception hoffset)⟩

theorem labelTable_target {entry : Nat × Operation Nat} (hentry : entry ∈ decoded.operations)
    (hoffset : offset ∈ entry.2.targets) :
    offset ∈ decoded.places ∧ (labelTable code decoded attributes)[offset]? =
      some ((labelTable code decoded attributes).getD offset default) := by
  have hplace := h.mem_places_of_isStart (h.targets entry hentry offset hoffset)
  exact ⟨hplace, labelTable_eq_some h.places_ascend hplace
    (mem_referencedOffsets_of_target hentry hoffset)⟩

/-- The ends of the range of a variable have labels, if the range is admitted. -/
theorem labelTable_range {entry : VariableEntry}
    (hentry : entry ∈ attributes.localVariables.filter decoded.admits ++
      attributes.variableTypes.filter decoded.admits) (hoffset : offset ∈ variableOffsets entry) :
    offset ∈ decoded.places ∧ (labelTable code decoded attributes)[offset]? =
      some ((labelTable code decoded attributes).getD offset default) := by
  obtain ⟨hstart, hstop⟩ := h.admits_ranges (admits_of_mem hentry)
  have hplace : offset ∈ decoded.places := by
    rcases List.mem_cons.1 hoffset with rfl | hoffset
    · exact hstart
    · exact List.mem_singleton.1 hoffset ▸ hstop
  exact ⟨hplace, labelTable_eq_some h.places_ascend hplace
    (mem_referencedOffsets_of_range hentry hoffset)⟩

/-- Every label that something refers to is the label of a place. -/
theorem exists_offset (hlabel : label ∈ (assemble code decoded attributes).referencedLabels) :
    ∃ offset ∈ decoded.places, (labelTable code decoded attributes)[offset]? = some label := by
  -- operations, handlers and ranges of variables refer to labels
  rcases List.mem_append.1 hlabel with hlabel | hrange
  · rcases List.mem_append.1 hlabel with hnode | hhandler
    · obtain ⟨node, hnode, htarget⟩ := List.mem_flatMap.1 hnode
      cases node with
      | label | line => exact absurd htarget List.not_mem_nil
      | operation operation =>
        obtain ⟨entry, hentry, rfl⟩ := exists_entry hnode
        rw [Node.targets, Operation.targets_map] at htarget
        obtain ⟨offset, hoffset, rfl⟩ := List.mem_map.1 htarget
        exact ⟨offset, labelTable_target h hentry hoffset⟩
    · obtain ⟨handler, hhandler, hlabel⟩ := List.mem_flatMap.1 hhandler
      obtain ⟨exception, hexception, rfl⟩ := List.mem_map.1 hhandler
      obtain ⟨offset, hoffset, rfl⟩ := List.mem_map.1
        (show label ∈ [exception.start.toNat, exception.stop.toNat, exception.handler.toNat].map
          ((labelTable code decoded attributes).getD · default) from hlabel)
      exact ⟨offset, labelTable_exception h hexception hoffset⟩
  · obtain ⟨range, hrange, hlabel⟩ := List.mem_flatMap.1 hrange
    obtain ⟨entry, hentry, rfl⟩ := exists_range hrange
    obtain ⟨offset, hoffset, rfl⟩ := List.mem_map.1
      (show label ∈ (variableOffsets entry).map
        ((labelTable code decoded attributes).getD · default) from hlabel)
    exact ⟨offset, labelTable_range h hentry hoffset⟩

theorem numbered_assemble : (assemble code decoded attributes).nodes.filterMap Node.label? =
    (List.range (labelTable code decoded attributes).size).map Label.mk :=
  (labels_assembleWith _).trans (filterMap_labelOffsets h.places_ascend)

/-- No label is placed twice, and none that something refers to is missing. -/
theorem checked_assemble : (assemble code decoded attributes).checkLabels = .ok () := by
  refine checkLabels_of_placed ?_ fun label hlabel =>
    label_mem_assemble.2 (exists_offset h hlabel)
  rw [numbered_assemble h]
  exact List.nodup_range.map fun _ _ => Label.mk.inj

/-- The range of an exception table entry starts at an operation, and so does its handler. -/
theorem standsAt_exception (hboundaries : code.OnBoundaries decoded.operations)
    {exception : ExceptionEntry} (hexception : exception ∈ code.exceptions)
    (hoffset : offset ∈ [exception.start.toNat, exception.handler.toNat]) :
    ∃ label, (labelTable code decoded attributes)[offset]? = some label ∧
      label.StandsAt (assemble code decoded attributes).nodes decoded.operations offset := by
  have hstart : offset ∈ decoded.operations.map (·.1) := by
    rcases List.mem_cons.1 hoffset with rfl | hoffset
    · exact hboundaries.starts exception hexception
    · exact List.mem_singleton.1 hoffset ▸ hboundaries.handlers exception hexception
  have hreferenced :
      offset ∈ [exception.start.toNat, exception.stop.toNat, exception.handler.toNat] := by
    simp only [List.mem_cons] at hoffset ⊢
    tauto
  obtain ⟨-, hlabel⟩ := labelTable_exception h hexception hreferenced
  exact ⟨_, hlabel, standsAt_assembleWith hstart hlabel⟩

/-- A handler protects an operation. -/
theorem encloses_handler {handler : Handler}
    (hhandler : handler ∈ (assemble code decoded attributes).handlers) :
    handler.start.Encloses (assemble code decoded attributes).nodes handler.stop := by
  obtain ⟨exception, hexception, rfl⟩ := List.mem_map.1 hhandler
  obtain ⟨-, hstart⟩ := @labelTable_exception _ _ attributes _ exception.start.toNat h _
    hexception (by simp)
  obtain ⟨-, hstop⟩ := @labelTable_exception _ _ attributes _ exception.stop.toNat h _
    hexception (by simp)
  exact encloses_assembleWith h.toRead (h.ranges exception hexception).1 hstart hstop

/-- The range of a variable is that of an entry whose ends have labels. -/
theorem encloses_range {range : VariableRange}
    (hrange : range ∈ (assemble code decoded attributes).localVariables ++
      (assemble code decoded attributes).variableTypes) :
    ∃ entry, range = variableRange ((labelTable code decoded attributes).getD · default) entry ∧
      (∀ offset ∈ variableOffsets entry, offset ∈ labelTable code decoded attributes) ∧
      range.start.Encloses (assemble code decoded attributes).nodes range.stop := by
  obtain ⟨entry, hentry, rfl⟩ := exists_range hrange
  have hfound : ∀ offset ∈ variableOffsets entry, (labelTable code decoded attributes)[offset]? =
      some ((labelTable code decoded attributes).getD offset default) :=
    fun offset hoffset => (labelTable_range h hentry hoffset).2
  have hadmits : decoded.admits entry = true := admits_of_mem hentry
  refine ⟨entry, rfl, fun offset hoffset => ?_, encloses_assembleWith h.toRead hadmits
    (hfound _ (by simp [variableOffsets])) (hfound _ (by simp [variableOffsets]))⟩
  rw [Std.HashMap.mem_iff_isSome_getElem?, hfound offset hoffset]
  rfl

/-- The body that is made of code that was checked is consistent. -/
theorem consistent_assemble (htiles : Operation.Tiles pool code.bytecode 0 decoded.operations)
    (hlength : decoded.length = code.bytecode.length) :
    (assemble code decoded attributes).Consistent code pool decoded.operations
      (labelTable code decoded attributes) where
  tiles := htiles
  operations := operations_assembleWith _
  numbered := numbered_assemble h
  boundaries := onBoundaries h hlength
  handlers := rfl
  marks label hlabel := by
    obtain ⟨offset, hoffset, hfound⟩ := label_mem_assemble.1 hlabel
    exact ⟨offset, hfound, hlength ▸ marks_assembleWith hoffset hfound⟩
  checked := checked_assemble h
  -- an offset that was checked is that of an operation, whose label stands there
  targets entry hentry target htarget := by
    obtain ⟨-, hlabel⟩ := labelTable_target h hentry htarget
    have hstart := (onBoundaries h hlength).targets entry hentry target htarget
    exact ⟨_, hlabel, standsAt_assembleWith hstart hlabel⟩
  starts exception hexception offset hoffset :=
    standsAt_exception h (onBoundaries h hlength) hexception hoffset
  -- a range may also end where the code does
  stops exception hexception := by
    obtain ⟨hplace, hlabel⟩ := @labelTable_exception _ _ attributes _ exception.stop.toNat h _
      hexception (by simp)
    exact ⟨_, hlabel, hlength ▸ marks_assembleWith hplace hlabel⟩
  guarded handler hhandler := encloses_handler h hhandler
  ranges range hrange := encloses_range h hrange
  fits operation hoperation := by
    obtain ⟨entry, hentry, rfl⟩ := exists_entry hoperation
    exact Operation.fits_map.2 (h.sound entry hentry).1

end Checked

/-- A body that is decoded is consistent, and the attributes were read for it. -/
theorem consistent_of_decode {body : Body} (h : decode code pool = .ok body) :
    (∃ entries labels, body.Consistent code pool entries labels) ∧
      ∃ attributes, CodeAttributes.ofList pool code.attributes = .ok attributes := by
  obtain ⟨decoded, attributes, hbytes, htargets, hexceptions, hattributes, rfl⟩ := decode_ok.1 h
  have hchecked := DecodedCode.checked hbytes htargets hexceptions
  obtain ⟨entries, htiles, rfl⟩ := DecodedCode.ofBytes_ok_iff.1 hbytes
  exact ⟨⟨entries, _, consistent_assemble hchecked htiles rfl⟩, attributes, hattributes⟩

/-- Code is decoded just when operations fill it, its branches and handlers stay on the boundaries
of these, and its attributes can be read. The body that is made of it is consistent. -/
theorem decode_consistent (code : Code) (pool : Pool) :
    (∀ body, decode code pool = .ok body →
      ∃ entries labels, body.Consistent code pool entries labels) ∧
    ((∃ body, decode code pool = .ok body) ↔
      (∃ entries, Operation.Tiles pool code.bytecode 0 entries ∧ code.OnBoundaries entries) ∧
        ∃ attributes, CodeAttributes.ofList pool code.attributes = .ok attributes) ∧
    ∀ entries, Operation.Tiles pool code.bytecode 0 entries → ¬ code.OnBoundaries entries →
      ∃ error, decode code pool = .error error := by
  refine ⟨fun body hbody => (consistent_of_decode hbody).1, ⟨?_, ?_⟩, ?_⟩
  · rintro ⟨body, hbody⟩
    obtain ⟨⟨entries, labels, hconsistent⟩, hattributes⟩ := consistent_of_decode hbody
    exact ⟨⟨entries, hconsistent.tiles, hconsistent.boundaries⟩, hattributes⟩
  · rintro ⟨⟨entries, htiles, hboundaries⟩, attributes, hattributes⟩
    have hbytes := DecodedCode.ofBytes_ok_iff.2 ⟨entries, htiles, rfl⟩
    obtain ⟨htargets, hexceptions⟩ :=
      accepted_of_onBoundaries (DecodedCode.ofBytes_ok hbytes) rfl hboundaries
    exact ⟨_, decode_ok.2 ⟨_, attributes, hbytes, htargets, hexceptions, hattributes, rfl⟩⟩
  · intro entries htiles hboundaries
    cases hdecode : decode code pool with
    | error error => exact ⟨error, rfl⟩
    | ok body =>
      obtain ⟨⟨entries', labels, hconsistent⟩, -⟩ := consistent_of_decode hdecode
      obtain rfl := htiles.unique hconsistent.tiles
      exact absurd hconsistent.boundaries hboundaries

/-- The body of `jumpsFar` is consistent. -/
theorem jumpsFarBody_consistent : decode jumpsFar jumpsFarPool = .ok jumpsFarBody ∧
    ∃ entries labels, jumpsFarBody.Consistent jumpsFar jumpsFarPool entries labels :=
  ⟨jumpsFar_decode, (decode_consistent jumpsFar jumpsFarPool).1 jumpsFarBody jumpsFar_decode⟩

end Body

end Preverification

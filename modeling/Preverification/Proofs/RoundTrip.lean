import Preverification.Proofs.MovedCode

/-!
# Decoding what was decoded and encoded

The nodes of a body that was decoded are the groups of its operations, each made of labels, lines
and the operation. A layout gives all nodes of a group one offset, the new offset of the operation.
So the code that is written is the code that was read, moved to the new offsets, and is decoded as
the same body.

* `Layout.Laid.exists_move`: when nodes are made of groups, there is a new offset for each group.
* `Layout.Moves.operations_eq`: the operations are those that were read, at their new offsets.
* `Layout.Relays.exceptions_eq`, `Layout.Relays.ranges_eq`, `Layout.Relays.lines_eq`: so are the
  tables.
* `Body.decode_encode_eq`: a body that was decoded, laid out and encoded is decoded as it was.
-/

namespace Preverification

namespace Node

/-- Whether the node is a line marker. -/
def isLine : Node → Bool
  | line _ => true
  | label _ | operation _ => false

end Node

/-! ### The groups of a layout -/

namespace Layout

/-- A node that was laid out, with its offset. -/
def offsetNode (entry : Node × Nat × Bool) : Node × Nat := (entry.1, entry.2.1)

variable {start stop : Nat} {laid : List (Node × Nat × Bool)}

/-- Nodes that take up no room all have the offset at which they start. -/
theorem Laid.offsetNodes_silent (h : Laid start laid stop)
    (hsilent : ∀ node ∈ laid.map (·.1), node.isOperation = false) :
    stop = start ∧ laid.map offsetNode = (laid.map (·.1)).map (·, start) := by
  induction h with
  | nil => exact ⟨rfl, rfl⟩
  | @cons node offset stop long rest hrest ih =>
    rw [List.map_cons] at hsilent
    obtain ⟨hnode, hsilent⟩ := List.forall_mem_cons.1 hsilent
    have hwidth : offset + nodeWidth node long offset = offset := by
      cases node with
      | label _ | line _ => rfl
      | operation _ => cases hnode
    rw [hwidth] at ih
    obtain ⟨rfl, hnodes⟩ := ih hsilent
    exact ⟨rfl, congrArg (List.cons _) hnodes⟩

/-- The nodes in front of an operation have the offset of the operation. -/
theorem Laid.offsetNodes_group {heads : List Node} {operation : Operation Label}
    (h : Laid start laid stop) (hnodes : laid.map (·.1) = heads ++ [.operation operation])
    (hsilent : ∀ node ∈ heads, node.isOperation = false) :
    laid.map offsetNode = (laid.map (·.1)).map (·, start) := by
  obtain ⟨front, back, rfl, hfront, hback⟩ := List.map_eq_append_iff.1 hnodes
  obtain ⟨middle, hlaidFront, hlaidBack⟩ := laid_append.1 h
  rw [← hfront] at hsilent
  obtain ⟨rfl, heads⟩ := hlaidFront.offsetNodes_silent hsilent
  obtain ⟨⟨node, offset, long⟩, rest, rfl, -, hrest⟩ := List.map_eq_cons_iff.1 hback
  obtain rfl := List.map_eq_nil_iff.1 hrest
  cases hlaidBack
  rw [List.map_append, List.map_append, List.map_append, heads]
  rfl

/-- When nodes are made of groups, there is a new offset for each group. -/
theorem Laid.exists_move {entries : List (Nat × Operation Nat)} {length : Nat}
    {group : Nat × Operation Nat → List Node} {tail : List Node} (h : Laid start laid stop)
    (hdistinct : (entries.map (·.1) ++ [length]).Nodup)
    (hgroup : ∀ entry ∈ entries, ∃ heads operation, group entry = heads ++ [.operation operation] ∧
      ∀ node ∈ heads, node.isOperation = false)
    (htail : ∀ node ∈ tail, node.isOperation = false)
    (hnodes : laid.map (·.1) = entries.flatMap group ++ tail) :
    ∃ move : Nat → Nat, move length = stop ∧
      laid.map offsetNode =
        entries.flatMap (fun entry => (group entry).map (·, move entry.1)) ++ tail.map (·, stop) := by
  induction entries generalizing start laid with
  | nil =>
    rw [List.flatMap_nil, List.nil_append] at hnodes
    obtain ⟨rfl, hoffsets⟩ := h.offsetNodes_silent (hnodes ▸ htail)
    rw [hnodes] at hoffsets
    exact ⟨fun _ => stop, rfl, hoffsets⟩
  | cons entry entries ih =>
    rw [List.flatMap_cons, List.append_assoc] at hnodes
    obtain ⟨front, back, rfl, hfront, hback⟩ := List.map_eq_append_iff.1 hnodes
    obtain ⟨middle, hlaidFront, hlaidBack⟩ := laid_append.1 h
    obtain ⟨hentry, hgroups⟩ := List.forall_mem_cons.1 hgroup
    obtain ⟨heads, operation, hheads, hsilent⟩ := hentry
    rw [List.map_cons, List.cons_append, List.nodup_cons] at hdistinct
    obtain ⟨hnew, hdistinct⟩ := hdistinct
    obtain ⟨move, hstop, hmove⟩ := ih hlaidBack hdistinct hgroups hback
    have hfirst := hlaidFront.offsetNodes_group (hfront.trans hheads) hsilent
    -- the group that comes first is moved to the start, the others are moved as before
    refine ⟨Function.update move entry.1 start, ?_, ?_⟩
    · rw [Function.update_of_ne, hstop]
      rintro rfl
      exact hnew (List.mem_append_right _ (List.mem_singleton.2 rfl))
    · have hothers : entries.flatMap (fun other =>
          (group other).map (·, Function.update move entry.1 start other.1)) =
          entries.flatMap fun other => (group other).map (·, move other.1) := by
        refine List.flatMap_congr fun other hother => ?_
        rw [Function.update_of_ne]
        intro heq
        exact hnew (heq ▸ List.mem_append_left _ (List.mem_map_of_mem hother))
      rw [List.map_append, hfirst, hmove, hfront, List.flatMap_cons, hothers,
        Function.update_self, List.append_assoc]

/-- Operations that were laid out stand at ascending offsets, in front of the end. -/
theorem Laid.ascends (h : Laid start laid stop) (layout : Layout) :
    ((laid.filterMap layout.placed?).map (·.1) ++ [stop]).Pairwise (· < ·) ∧
      ∀ offset ∈ (laid.filterMap layout.placed?).map (·.1), start ≤ offset := by
  induction h with
  | nil => exact ⟨List.pairwise_singleton _ _, nofun⟩
  | @cons node offset stop long rest hrest ih =>
    obtain ⟨hascends, hstart⟩ := ih
    cases node with
    | label _ | line _ => exact ⟨hascends, hstart⟩
    | operation operation =>
      -- only operations take room, and all of them do
      have hwidth := Operation.nodeWidth_pos long offset operation
      have hle := hrest.le
      rw [List.filterMap_cons_some (show layout.placed? (.operation operation, offset, long) =
        some (offset, operation.map layout.offsetOf) from rfl), List.map_cons, List.cons_append]
      constructor
      · refine List.pairwise_cons.2 ⟨?_, hascends⟩
        intro later hlater
        rcases List.mem_append.1 hlater with hlater | hlater
        · have := hstart later hlater
          omega
        · obtain rfl := List.mem_singleton.1 hlater
          omega
      · refine List.forall_mem_cons.2 ⟨Nat.le_refl _, fun later hlater => ?_⟩
        have := hstart later hlater
        omega

/-- The line at an offset in front of the end. -/
def lineAt? (layout : Layout) : Node × Nat → Option LineEntry
  | (.line number, offset) =>
    if offset < layout.codeLength then some ⟨UInt16.ofNat offset, number⟩ else none
  | _ => none

/-- In a layout, the operations of some code have come to other offsets, and their labels and lines
with them. -/
structure Moves (layout : Layout) (move : Nat → Nat) (decoded : DecodedCode)
    (labels : Std.HashMap Nat Label) (lines : Std.HashMap Nat (List UInt16)) : Prop where
  length_eq : move decoded.length = layout.codeLength
  nodes_eq : layout.nodes.map offsetNode =
    decoded.operations.flatMap (fun entry =>
      (Body.operationNodes labels lines entry.1 entry.2).map (·, move entry.1)) ++
      (labels[decoded.length]?.toList.map Node.label).map (·, layout.codeLength)

theorem silent_map_label (labels : List Label) :
    ∀ node ∈ labels.map Node.label, node.isOperation = false :=
  List.forall_mem_map.2 fun _ _ => rfl

theorem silent_heads (labels : List Label) (lines : List UInt16) :
    ∀ node ∈ labels.map Node.label ++ lines.map Node.line, node.isOperation = false :=
  List.forall_mem_append.2 ⟨silent_map_label labels, List.forall_mem_map.2 fun _ _ => rfl⟩

variable {layout : Layout} {body : Body} {code : Code} {decoded : DecodedCode} {pool : Pool}
  {attributes : CodeAttributes} {move : Nat → Nat} {labels : Std.HashMap Nat Label}
  {lines : Std.HashMap Nat (List UInt16)}

/-- The layout of a decoded body moves its groups. -/
theorem Places.exists_moves (h : layout.Places (Body.assembleWith labels code decoded attributes))
    (hread : decoded.Read pool) :
    ∃ move, layout.Moves move decoded labels (Body.linesByOffset decoded attributes.lines) := by
  have hdistinct : (decoded.operations.map (·.1) ++ [decoded.length]).Nodup :=
    hread.places_ascend.imp Nat.ne_of_lt
  obtain ⟨move, hlength, hnodes⟩ := h.laid.exists_move hdistinct
    (fun entry _ => ⟨_, _, rfl, silent_heads _ _⟩) (silent_map_label _) h.nodes_eq
  exact ⟨move, hlength, hnodes⟩

namespace Moves

variable (h : layout.Moves move decoded labels lines)

include h

/-- Labels have the new offsets of their places. -/
theorem offsetOf_eq (hplaces : layout.Places body) {offset : Nat} {label : Label}
    (hoffset : offset ∈ decoded.places) (hlabel : labels[offset]? = some label) :
    layout.offsetOf label = move offset := by
  have hmem : (Node.label label, move offset) ∈ layout.nodes.map offsetNode := by
    rw [h.nodes_eq]
    -- a label stands in front of an operation, or at the end
    rcases List.mem_append.1 hoffset with hstart | hend
    · obtain ⟨entry, hentry, rfl⟩ := List.mem_map.1 hstart
      refine List.mem_append_left _ (List.mem_flatMap.2 ⟨entry, hentry, ?_⟩)
      refine List.mem_map_of_mem (f := (·, move entry.1)) ?_
      simp [Body.operationNodes, hlabel]
    · obtain rfl := List.mem_singleton.1 hend
      refine List.mem_append_right _ ?_
      simp [hlabel, h.length_eq]
  obtain ⟨⟨node, offset', long⟩, hentry, heq⟩ := List.mem_map.1 hmem
  obtain ⟨rfl, rfl⟩ := Prod.mk.inj heq
  obtain ⟨place, hplace⟩ := List.mem_iff_getElem?.1 hentry
  exact Layout.offsetOf_eq (hplaces.labelOffset_ok.2 ⟨place, long, hplace⟩)

/-- What is found at lines and operations is found group by group. -/
theorem filterMap_nodes {β : Type} {f : Node × Nat → Option β} {g : Nat × Operation Nat → List β}
    (hlabel : ∀ label offset, f (.label label, offset) = none)
    (hgroup : ∀ entry ∈ decoded.operations,
      ((lines.getD entry.1 []).map fun number => (Node.line number, move entry.1)).filterMap f ++
        (f (.operation (entry.2.map (labels.getD · default)), move entry.1)).toList = g entry) :
    (layout.nodes.map offsetNode).filterMap f = decoded.operations.flatMap g := by
  -- labels leave nothing, so that each group is its lines and its operation
  have hnone : ∀ (found : List Label) (offset : Nat),
      ((found.map Node.label).map (·, offset)).filterMap f = [] := by
    intro found offset
    refine List.filterMap_eq_nil_iff.2 ?_
    simp only [List.map_map, List.mem_map]
    rintro _ ⟨label, -, rfl⟩
    exact hlabel label offset
  rw [h.nodes_eq, List.filterMap_append, hnone, List.append_nil, List.filterMap_flatMap]
  refine List.flatMap_congr fun entry hentry => ?_
  unfold Body.operationNodes
  rw [List.map_append, List.map_append, List.filterMap_append, List.filterMap_append, hnone,
    List.nil_append, List.map_map, ← hgroup entry hentry]
  rfl

/-- The operations are those that were read, at their new offsets. -/
theorem operations_eq (htargets : ∀ entry ∈ decoded.operations, ∀ target ∈ entry.2.targets,
    layout.offsetOf (labels.getD target default) = move target) :
    layout.operations = decoded.operations.map fun entry => (move entry.1, entry.2.map move) := by
  have hplaced : layout.operations = (layout.nodes.map offsetNode).filterMap fun entry =>
      layout.placed? (entry.1, entry.2, false) := by
    rw [List.filterMap_map]
    refine List.filterMap_congr ?_
    rintro ⟨node, offset, long⟩ -
    cases node <;> rfl
  rw [hplaced, h.filterMap_nodes (g := fun entry => [(move entry.1, entry.2.map move)])]
  · exact List.flatMap_pure_eq_map _ _
  · exact fun _ _ => rfl
  · intro entry hentry
    have hoperation : (entry.2.map (labels.getD · default)).map layout.offsetOf =
        entry.2.map move := by
      rw [Operation.map_map]
      exact Operation.map_congr (htargets entry hentry)
    rw [← hoperation]
    simp [placed?]

omit h in
/-- The lines of a layout are found at its nodes. -/
theorem lineEntries_eq_filterMap :
    layout.lineEntries = (layout.nodes.map offsetNode).filterMap layout.lineAt? := by
  rw [List.filterMap_map]
  refine List.filterMap_congr ?_
  rintro ⟨node, offset, long⟩ -
  cases node <;> rfl

/-- The lines are those that were read, at their new offsets. -/
theorem lineEntries_eq (hinside : ∀ entry ∈ decoded.operations, move entry.1 < layout.codeLength) :
    layout.lineEntries = decoded.operations.flatMap fun entry =>
      (lines.getD entry.1 []).map fun number => ⟨UInt16.ofNat (move entry.1), number⟩ := by
  rw [lineEntries_eq_filterMap]
  refine h.filterMap_nodes (fun _ _ => rfl) fun entry hentry => ?_
  simp [lineAt?, hinside entry hentry, List.filterMap_map, Function.comp_def]

end Moves

end Layout

/-! ### Code that was checked -/

/-- If a function finds something at one element of a list only, that is what it finds. -/
theorem flatMap_eq_of_nodup {α β : Type} {f : α → List β} {l : List α} {a : α} (hmem : a ∈ l)
    (hnodup : l.Nodup) (hnone : ∀ b ∈ l, b ≠ a → f b = []) : l.flatMap f = f a := by
  obtain ⟨front, back, rfl⟩ := List.append_of_mem hmem
  obtain ⟨-, hback, hdisjoint⟩ := List.nodup_append.1 hnodup
  have hfront : front.flatMap f = [] := by
    refine List.flatMap_eq_nil_iff.2 fun b hb => ?_
    exact hnone b (List.mem_append_left _ hb) (hdisjoint b hb a List.mem_cons_self)
  have hrest : back.flatMap f = [] := by
    refine List.flatMap_eq_nil_iff.2 fun b hb => ?_
    refine hnone b (List.mem_append_right _ (List.mem_cons_of_mem _ hb)) ?_
    rintro rfl
    exact (List.nodup_cons.1 hback).1 hb
  rw [List.flatMap_append, List.flatMap_cons, hfront, hrest, List.nil_append, List.append_nil]

/-- Code that was read, and whose branches and exceptions line up with its operations. -/
structure DecodedCode.Checked (decoded : DecodedCode) (code : Code) (pool : Pool) : Prop
    extends Read decoded pool where
  targets : ∀ entry ∈ decoded.operations, ∀ target ∈ entry.2.targets,
    decoded.isStart target = true
  ranges : ∀ entry ∈ code.exceptions,
    decoded.isRange entry.start.toNat entry.stop.toNat = true ∧
      decoded.isStart entry.handler.toNat = true

namespace DecodedCode

variable {decoded : DecodedCode} {code : Code} {pool : Pool}

/-- Targets that were checked are operations. -/
theorem checkTargets_ok (h : decoded.checkTargets = .ok ()) :
    ∀ entry ∈ decoded.operations, ∀ target ∈ entry.2.targets, decoded.isStart target = true := by
  rintro ⟨offset, operation⟩ hentry target htarget
  have hcheck := except_forM_ok.1 h _ hentry
  dsimp only at hcheck
  split at hcheck
  · cases hcheck
  · rename_i hnone
    simpa using List.find?_eq_none.1 hnone target htarget

/-- The offsets of an exception stand at operations, but that its range may reach to the end. -/
theorem checkException_ok {entry : ExceptionEntry} (h : decoded.checkException entry = .ok ()) :
    decoded.isRange entry.start.toNat entry.stop.toNat = true ∧
      decoded.isStart entry.handler.toNat = true := by
  unfold checkException at h
  dsimp only at h
  split at h
  · cases h
  · rename_i hrange
    split at h
    · cases h
    · rename_i hstart
      exact ⟨by simpa using hrange, by simpa using hstart⟩

/-- Code that was decoded has passed both checks. -/
theorem checked (hbytes : ofBytes pool code.bytecode = .ok decoded)
    (htargets : decoded.checkTargets = .ok ())
    (hexceptions : ∀ entry ∈ code.exceptions, decoded.checkException entry = .ok ()) :
    decoded.Checked code pool where
  toRead := ofBytes_ok hbytes
  targets := checkTargets_ok htargets
  ranges := fun entry hentry => checkException_ok (hexceptions entry hentry)

namespace Checked

variable (h : decoded.Checked code pool)

include h

/-- The exceptions of such code stand at its operations. -/
theorem stands {entry : ExceptionEntry} (hentry : entry ∈ code.exceptions) :
    Body.Stands decoded entry := by
  obtain ⟨hrange, hhandler⟩ := h.ranges entry hentry
  obtain ⟨-, hstart, hstop⟩ := h.isRange_iff.1 hrange
  exact ⟨List.mem_append_left _ hstart, hstop, h.mem_places_of_isStart hhandler⟩

/-- The ranges that are admitted are made of operations. -/
theorem admits_ranges {entry : VariableEntry} (hadmits : decoded.admits entry = true) :
    Body.Ranges decoded entry := by
  obtain ⟨-, hstart, hstop⟩ := h.isRange_iff.1 hadmits
  exact ⟨List.mem_append_left _ hstart, hstop⟩

end Checked

end DecodedCode

namespace Body

variable {decoded : DecodedCode} {referenced : Std.HashSet Nat} {offset : Nat}

/-- Places that something refers to have labels. -/
theorem exists_label (h : decoded.places.Pairwise (· < ·)) (hoffset : offset ∈ decoded.places)
    (hreferenced : referenced.contains offset = true) :
    ∃ label, (labelOffsets decoded referenced)[offset]? = some label := by
  have hmem : offset ∈ labelledPlaces decoded referenced :=
    List.mem_filter.2 ⟨hoffset, hreferenced⟩
  obtain ⟨number, hnumber⟩ := List.mem_iff_getElem?.1 hmem
  exact ⟨⟨number⟩, (labelOffsets_eq_some h).2 hnumber⟩

theorem admits_of_mem {entry : VariableEntry} {attributes : CodeAttributes}
    (hentry : entry ∈ attributes.localVariables.filter decoded.admits ++
      attributes.variableTypes.filter decoded.admits) : decoded.admits entry = true := by
  rcases List.mem_append.1 hentry with hmem | hmem
  · exact (List.mem_filter.1 hmem).2
  · exact (List.mem_filter.1 hmem).2

/-- A place that is referred to has the label that the table gives. -/
theorem labelTable_eq_some {code : Code} {attributes : CodeAttributes}
    (h : decoded.places.Pairwise (· < ·)) (hoffset : offset ∈ decoded.places)
    (hreferenced : offset ∈ labelledOffsets code decoded attributes) :
    (labelTable code decoded attributes)[offset]? =
      some ((labelTable code decoded attributes).getD offset default) := by
  obtain ⟨label, hfound⟩ := exists_label h hoffset
    ((Std.HashSet.contains_ofList).trans (List.contains_iff_mem.2 hreferenced))
  change (labelTable code decoded attributes)[offset]? = some label at hfound
  rw [Std.HashMap.getD_eq_getD_getElem?, hfound]
  rfl

/-- Operations of a body that is made of some code are operations of the code. -/
theorem exists_entry {code : Code} {attributes : CodeAttributes} {operation : Operation Label}
    (h : .operation operation ∈ (assemble code decoded attributes).nodes) :
    ∃ entry ∈ decoded.operations,
      operation = entry.2.map ((labelTable code decoded attributes).getD · default) := by
  rcases List.mem_append.1 h with hmem | hmem
  · rcases List.mem_flatMap.1 hmem with ⟨entry, hentry, hmem⟩
    refine ⟨entry, hentry, ?_⟩
    rcases List.mem_append.1 hmem with hhead | hlast
    · cases Layout.silent_heads _ _ _ hhead
    · exact Node.operation.inj (List.mem_singleton.1 hlast)
  · cases Layout.silent_map_label _ _ hmem

end Body

/-! ### Code that was laid out anew -/

namespace Layout

variable {layout : Layout} {code : Code} {decoded : DecodedCode} {pool : Pool}
  {attributes : CodeAttributes} {move : Nat → Nat}

/-- The body of some code was laid out, and the code has moved to the offsets of the layout. -/
structure Relays (layout : Layout) (move : Nat → Nat) (code : Code) (decoded : DecodedCode)
    (attributes : CodeAttributes) (pool : Pool) : Prop where
  checked : decoded.Checked code pool
  places : layout.Places (Body.assemble code decoded attributes)
  moves : layout.Moves move decoded (Body.labelTable code decoded attributes)
    (Body.linesByOffset decoded attributes.lines)

namespace Relays

variable (h : layout.Relays move code decoded attributes pool)

include h

/-- The label of a place has the new offset of the place. -/
theorem offsetOf_label {offset : Nat} (hoffset : offset ∈ decoded.places)
    (hreferenced : offset ∈ Body.labelledOffsets code decoded attributes) :
    layout.offsetOf ((Body.labelTable code decoded attributes).getD offset default) =
      move offset :=
  h.moves.offsetOf_eq h.places hoffset
    (Body.labelTable_eq_some h.checked.places_ascend hoffset hreferenced)

/-- The label of a target has the offset to which the target moves. -/
theorem offsetOf_target {entry : Nat × Operation Nat} (hentry : entry ∈ decoded.operations)
    {target : Nat} (htarget : target ∈ entry.2.targets) :
    layout.offsetOf ((Body.labelTable code decoded attributes).getD target default) =
      move target := by
  have hstart := h.checked.targets entry hentry target htarget
  exact h.offsetOf_label (h.checked.mem_places_of_isStart hstart)
    (Body.mem_referencedOffsets_of_target hentry htarget)

/-- The operations of the code that is written are those that were read, moved. -/
theorem moved : decoded.Moved move layout.decoded where
  length_eq := h.moves.length_eq.symm
  operations_eq := h.moves.operations_eq fun _ hentry _ htarget => h.offsetOf_target hentry htarget
  ascends := h.checked.places_ascend
  ascends' := (h.places.laid.ascends layout).1
  targets := fun _ hentry _ htarget =>
    h.checked.mem_places_of_isStart (h.checked.targets _ hentry _ htarget)

/-- No operation is moved behind the end. -/
theorem move_lt {offset : Nat} (hoffset : offset ∈ decoded.operations.map (·.1)) :
    move offset < layout.codeLength := by
  rw [← h.moves.length_eq]
  refine (h.moved.lt_iff (List.mem_append_left _ hoffset)
    (List.mem_append_right _ (List.mem_singleton.2 rfl))).2 ?_
  obtain ⟨entry, hentry, rfl⟩ := List.mem_map.1 hoffset
  exact h.checked.inside entry hentry

/-- New offsets fit into two bytes. -/
theorem move_small : ∀ offset ∈ decoded.places, move offset < 65536 := by
  intro offset hoffset
  have hle := h.places.codeLength_le
  unfold maxCodeLength at hle
  rcases List.mem_append.1 hoffset with hstart | hend
  · have hlt := h.move_lt hstart
    omega
  · obtain rfl := List.mem_singleton.1 hend
    rw [h.moves.length_eq]
    omega

/-- The exceptions of the code have moved. -/
theorem exceptions_eq : (Body.assemble code decoded attributes).handlers.filterMap layout.guarded? =
    code.exceptions.map (·.moved move) := by
  -- the offsets of an entry have labels, whose new offsets are where they move
  have hguarded : ∀ entry ∈ code.exceptions, layout.guarded? (Body.handler
      ((Body.labelTable code decoded attributes).getD · default) entry) =
        some (entry.moved move) := by
    intro entry hentry
    have hreferenced : ∀ offset ∈ [entry.start.toNat, entry.stop.toNat, entry.handler.toNat],
        offset ∈ Body.labelledOffsets code decoded attributes :=
      fun offset hoffset => Body.mem_referencedOffsets_of_exception hentry hoffset
    obtain ⟨hstart, hstop, hhandler⟩ := h.checked.stands hentry
    obtain ⟨hlt, -⟩ := h.checked.isRange_iff.1 (h.checked.ranges entry hentry).1
    unfold guarded? Body.handler
    dsimp only
    rw [h.offsetOf_label hstart (hreferenced _ (by simp)),
      h.offsetOf_label hstop (hreferenced _ (by simp)),
      h.offsetOf_label hhandler (hreferenced _ (by simp)),
      if_neg (Nat.not_le.2 ((h.moved.lt_iff hstart hstop).2 hlt))]
    rfl
  change (code.exceptions.map _).filterMap _ = _
  rw [List.filterMap_map, ← List.filterMap_eq_map]
  exact List.filterMap_congr hguarded

/-- The ranges of variables have moved. -/
theorem ranges_eq {entries : List VariableEntry}
    (hentries : entries ⊆ attributes.localVariables.filter decoded.admits ++
      attributes.variableTypes.filter decoded.admits) :
    (entries.map (Body.variableRange
      ((Body.labelTable code decoded attributes).getD · default))).filterMap layout.ranged? =
        entries.map (·.moved move) := by
  -- like the entries of the exception table
  have hranged : ∀ entry ∈ entries, layout.ranged? (Body.variableRange
      ((Body.labelTable code decoded attributes).getD · default) entry) =
        some (entry.moved move) := by
    intro entry hentry
    have hreferenced : ∀ offset ∈ Body.variableOffsets entry,
        offset ∈ Body.labelledOffsets code decoded attributes :=
      fun offset hoffset => Body.mem_referencedOffsets_of_range (hentries hentry) hoffset
    have hadmits := Body.admits_of_mem (hentries hentry)
    obtain ⟨hlt, -⟩ := h.checked.isRange_iff.1 hadmits
    obtain ⟨hstart, hstop⟩ := h.checked.admits_ranges hadmits
    unfold ranged? Body.variableRange
    dsimp only
    rw [h.offsetOf_label hstart (hreferenced _ List.mem_cons_self),
      h.offsetOf_label hstop (hreferenced _ (List.mem_cons_of_mem _ List.mem_cons_self)),
      if_neg (Nat.not_le.2 ((h.moved.lt_iff hstart hstop).2 hlt))]
    rfl
  rw [List.filterMap_map, ← List.filterMap_eq_map]
  exact List.filterMap_congr hranged

/-- The lines at each operation are the same as before. -/
theorem lines_eq {entry : Nat × Operation Nat} (hentry : entry ∈ decoded.operations) :
    (Body.linesByOffset layout.decoded layout.lineEntries).getD (move entry.1) [] =
      (Body.linesByOffset decoded attributes.lines).getD entry.1 [] := by
  have hoperations : layout.operations = decoded.operations.map fun entry =>
      (move entry.1, entry.2.map move) := h.moved.operations_eq
  have hplace : ∀ {entry : Nat × Operation Nat}, entry ∈ decoded.operations →
      entry.1 ∈ decoded.places :=
    fun hentry => List.mem_append_left _ (List.mem_map_of_mem hentry)
  have hstart : layout.decoded.isStart (move entry.1) = true := by
    rw [isStart_iff, hoperations, List.map_map]
    exact List.mem_map_of_mem (f := fun entry : Nat × Operation Nat => move entry.1) hentry
  have hkeys : (decoded.operations.map (·.1)).Nodup := h.checked.ascends.imp Nat.ne_of_lt
  rw [Body.linesByOffset_getD, if_pos hstart,
    h.moves.lineEntries_eq fun _ hentry => h.move_lt (List.mem_map_of_mem hentry),
    List.filter_flatMap, List.map_flatMap]
  -- lines that stand at another operation have another offset
  refine (flatMap_eq_of_nodup hentry hkeys.of_map fun other hother hne => ?_).trans ?_
  · have hkey : other.1 ≠ entry.1 := fun heq =>
      hne (List.inj_on_of_nodup_map hkeys hother hentry heq)
    have hmoved : move other.1 ≠ move entry.1 := fun heq =>
      hkey ((h.moved.injective (hplace hother) (hplace hentry)).1 heq)
    refine List.map_eq_nil_iff.2 (List.filter_eq_nil_iff.2 (List.forall_mem_map.2 ?_))
    intro number _
    simpa [Body.toNat_move h.move_small (hplace hother)] using hmoved
  · rw [List.filter_eq_self.2, List.map_map]
    · exact List.map_id _
    · refine List.forall_mem_map.2 fun number _ => ?_
      simp [Body.toNat_move h.move_small (hplace hentry)]

/-- All that decoding looks at has moved in the same way. -/
theorem follows : Body.Follows move decoded layout.decoded attributes
    (layout.decodedAttributes (Body.assemble code decoded attributes)) where
  localVariables := by
    have hranges := h.ranges_eq (List.subset_append_left
      (attributes.localVariables.filter decoded.admits) _)
    rw [← hranges]
    -- what was written is admitted, so that nothing is filtered out
    refine List.filter_eq_self.2 fun entry hentry => ?_
    obtain ⟨range, hrange, hranged⟩ := List.mem_filterMap.1 hentry
    exact h.places.admits (List.mem_append_left _ hrange) hranged
  variableTypes := by
    have hranges := h.ranges_eq (List.subset_append_right _
      (attributes.variableTypes.filter decoded.admits))
    rw [← hranges]
    refine List.filter_eq_self.2 fun entry hentry => ?_
    obtain ⟨range, hrange, hranged⟩ := List.mem_filterMap.1 hentry
    exact h.places.admits (List.mem_append_right _ hrange) hranged
  lines := fun _ hentry => h.lines_eq hentry
  others := rfl

/-- The operations of the body make sense in a pool with more constants, and jump to places inside
the code. -/
theorem leads {pool' : Pool} (hbuilt : pool.Built) (hextends : pool.Extends pool') :
    layout.Leads (Body.assemble code decoded attributes) pool' := by
  intro operation hmem
  obtain ⟨entry, hentry, rfl⟩ := Body.exists_entry hmem
  refine ⟨Operation.fits_map.2 ?_, ?_⟩
  · exact (h.checked.sound entry hentry).1.extends hextends hbuilt
  · rw [Operation.targets_map]
    refine List.forall_mem_map.2 fun target htarget => ?_
    rw [h.offsetOf_target hentry htarget]
    exact h.move_lt (h.checked.isStart_iff.1 (h.checked.targets entry hentry target htarget))

/-- The code of each handler is inside. -/
theorem handlers_inside : ∀ handler ∈ (Body.assemble code decoded attributes).handlers,
    layout.offsetOf handler.handler < layout.codeLength := by
  refine List.forall_mem_map.2 fun entry hentry => ?_
  obtain ⟨-, -, hhandler⟩ := h.checked.stands hentry
  change layout.offsetOf ((Body.labelTable code decoded attributes).getD entry.handler.toNat
    default) < _
  rw [h.offsetOf_label hhandler (Body.mem_referencedOffsets_of_exception hentry (by simp))]
  exact h.move_lt (h.checked.isStart_iff.1 (h.checked.ranges entry hentry).2)

end Relays

end Layout

/-! ### The round trip -/

namespace Layout

/-- There are no more lines than line markers. -/
theorem Places.length_lineEntries_le {layout : Layout} {body : Body} (h : layout.Places body) :
    layout.lineEntries.length ≤ body.nodes.countP Node.isLine := by
  unfold lineEntries
  rw [List.length_filterMap_eq_countP, ← h.nodes_eq, List.countP_map]
  refine List.countP_mono_left ?_
  rintro ⟨node, offset, long⟩ - hline
  cases node with
  | line _ => rfl
  | label _ | operation _ => cases hline

end Layout

namespace Body

variable {code code' : Code} {pool pool' : Pool} {body : Body} {layout : Layout}

/-- A decoded body is laid out anew, and each place gets its new offset. -/
theorem decode_relays (hdecode : decode code pool = .ok body) (hlayout : body.layout = .ok layout) :
    ∃ decoded attributes move, body = assemble code decoded attributes ∧
      CodeAttributes.ofList pool code.attributes = .ok attributes ∧
      layout.Relays move code decoded attributes pool := by
  obtain ⟨decoded, attributes, hbytes, htargets, hexceptions, hattributes, rfl⟩ :=
    decode_ok.1 hdecode
  have hchecked := DecodedCode.checked hbytes htargets hexceptions
  have hplaces := layout_ok hlayout
  obtain ⟨move, hmoves⟩ := hplaces.exists_moves hchecked.toRead
  exact ⟨decoded, attributes, move, rfl, hattributes, hchecked, hplaces, hmoves⟩

/-- A body that was decoded, laid out and encoded is decoded as it was, by means of the pool to
which the names of its tables were added. The code that is encoded from it once more is the same. -/
theorem decode_encode_eq (hp : pool.Formed) (hdecode : decode code pool = .ok body)
    (hlayout : body.layout = .ok layout) (hencode : body.encode layout [] pool = .ok code' pool')
    (hlines : body.nodes.countP Node.isLine ≤ 65535)
    (hvariables : body.localVariables.length ≤ 65535)
    (htypes : body.variableTypes.length ≤ 65535) :
    decode code' pool' = .ok body ∧ body.encode layout [] pool' = .ok code' pool' := by
  obtain ⟨decoded, attributes, move, rfl, hattributes, hrelays⟩ := decode_relays hdecode hlayout
  have hplaces := hrelays.places
  obtain ⟨hp', hextends, hwrites⟩ := hplaces.encode_ok hp hencode
  -- attributes that were kept as they are mean the same in a larger pool
  have hothers : ∀ attr ∈ (assemble code decoded attributes).attributes,
      CodeAttributes.ofAttribute pool' attr = .ok { others := [attr] } := by
    intro attr hattr
    obtain ⟨name, hname, hother⟩ := CodeAttributes.others_ok hattributes attr hattr
    exact CodeAttributes.ofAttribute_others (hextends.utf8 hp.built hname) hother
  have hlength : ∀ ranges : List VariableRange, ranges.length ≤ 65535 →
      (ranges.filterMap layout.ranged?).length < 65536 :=
    fun ranges hle => Nat.lt_succ_of_le (Nat.le_trans (List.length_filterMap_le _ _) hle)
  have hread := hplaces.decode_eq hp' (hrelays.leads hp.built hextends) hrelays.handlers_inside
    (Nat.lt_succ_of_le (Nat.le_trans hplaces.length_lineEntries_le hlines))
    (hlength _ hvariables) (hlength _ htypes) hothers (fun _ hattr => by cases hattr) hwrites
  refine ⟨?_, hplaces.encode_of_writes hwrites⟩
  obtain ⟨lines, localVariables, variableTypes, -, -, -, rfl⟩ := hwrites
  rw [hread]
  exact congrArg Except.ok (assemble_moved hrelays.moved hrelays.move_small rfl rfl
    (fun _ hentry => hrelays.checked.stands hentry) hrelays.exceptions_eq
    (fun _ hadmits => hrelays.checked.admits_ranges hadmits) hrelays.follows)

/-- Code that jumps to the next line by a long jump. -/
def jumpsFar : Code where
  maxStack := 0
  maxLocals := 1
  bytecode := [200, 0, 0, 0, 5, 177]
  exceptions := []
  attributes := [⟨1, [0, 1, 0, 5, 0, 7]⟩]

/-- The pool of `jumpsFar`. -/
def jumpsFarPool : Pool := .ofConstants [.utf8 "LineNumberTable"]

/-- The body of `jumpsFar`. -/
def jumpsFarBody : Body where
  maxStack := 0
  maxLocals := 1
  nodes := [.operation (.branch (.goto ⟨0⟩)), .label ⟨0⟩, .line 7, .operation (.branch .returnVoid)]
  handlers := []
  localVariables := []
  variableTypes := []
  attributes := []
  issued := 1

/-- The layout of the body of `jumpsFar`, in which the jump is short. -/
def jumpsFarLayout : Layout where
  nodes := jumpsFarBody.nodes.zip [(0, false), (3, false), (3, false), (3, false)]
  codeLength := 4
  labels := (∅ : Std.HashMap Label Nat).insert ⟨0⟩ 3

/-- The code that is written for `jumpsFar`. -/
def jumpsNear : Code :=
  { jumpsFar with bytecode := [167, 0, 3, 177], attributes := [⟨1, [0, 1, 0, 3, 0, 7]⟩] }

/-- The long jump is decoded as any other one. -/
theorem jumpsFar_decode : decode jumpsFar jumpsFarPool = .ok jumpsFarBody := by
  -- the decoded code is named, so that nothing computes its hash set
  obtain ⟨decoded, hdecoded⟩ : ∃ decoded : DecodedCode, decoded =
    ⟨6, [(0, .branch (.goto 5)), (5, .branch .returnVoid)], .ofList [0, 5]⟩ := ⟨_, rfl⟩
  have hbytes : DecodedCode.ofBytes jumpsFarPool jumpsFar.bytecode = .ok decoded := by
    have hread : Reader.run (DecodedCode.readOperations jumpsFarPool 6 [] 6) jumpsFar.bytecode =
        .ok ([(0, .branch (.goto 5)), (5, .branch .returnVoid)], []) := by decide +kernel
    exact except_bind_ok.2 ⟨_, hread, congrArg Except.ok hdecoded.symm⟩
  have hstart : decoded.isStart 5 = true := by simp [hdecoded, DecodedCode.isStart]
  have hoperations : decoded.operations =
      [(0, .branch (.goto 5)), (5, .branch .returnVoid)] := by rw [hdecoded]
  have hlength : decoded.length = 6 := by rw [hdecoded]
  have htargets : decoded.checkTargets = .ok () := by
    unfold DecodedCode.checkTargets
    rw [hoperations]
    simp [Operation.targets, Branch.targets, hstart, bind, Except.bind, pure, Except.pure]
  have hname : jumpsFarPool.utf8 1 = .ok "LineNumberTable" := by decide +kernel
  have hlines : CodeAttributes.ofAttribute jumpsFarPool
      ⟨1, AttributeContents.write (LineNumberTable.mk [⟨5, 7⟩])⟩ = .ok { lines := [⟨5, 7⟩] } :=
    CodeAttributes.ofAttribute_lines hname (by decide)
  have hrest : CodeAttributes.ofList jumpsFarPool [] = .ok {} := rfl
  have hattributes : CodeAttributes.ofList jumpsFarPool jumpsFar.attributes =
      .ok { lines := [⟨5, 7⟩] } := CodeAttributes.ofList_cons hlines hrest
  -- the only label is the one that is jumped to
  have htable : labelTable jumpsFar decoded { lines := [⟨5, 7⟩] } = .ofList [(5, ⟨0⟩)] := by
    have hplaces : labelledPlaces decoded (.ofList [5]) = [5] := by
      simp [labelledPlaces, DecodedCode.places, hoperations, hlength]
    have hoffsets : referencedOffsets jumpsFar decoded [] = [5] := by
      rw [hdecoded]
      rfl
    unfold labelTable labelledOffsets
    rw [List.filter_nil, List.append_nil, hoffsets, labelOffsets_eq, hplaces]
    rfl
  have hexceptions : ∀ entry ∈ jumpsFar.exceptions, decoded.checkException entry = .ok () :=
    fun _ hentry => absurd hentry List.not_mem_nil
  refine decode_ok.2 ⟨decoded, _, hbytes, htargets, hexceptions, hattributes, ?_⟩
  unfold assemble
  rw [htable]
  simp [assembleWith, operationNodes, linesByOffset_getD, hstart, hoperations, hlength,
    Operation.map, Branch.map, jumpsFar, jumpsFarBody, Std.HashMap.size_insert]

/-- Its target is near enough for a short one. -/
theorem jumpsFarBody_layout : jumpsFarBody.layout = .ok jumpsFarLayout := by
  refine layout_of_short [0, 3, 3, 3] (checkLabels_of_placed (by decide) (by decide)) rfl rfl rfl ?_ ?_
    (by decide)
  · simp [jumpsFarBody, jumpsFarLayout, Layout.needsLong, Layout.jumpTarget?, Layout.isShort,
      Branch.isShort]
  · decide

/-- The jump of `jumpsFar` is written as a short one. -/
theorem jumpsFarBody_encode :
    jumpsFarBody.encode jumpsFarLayout [] jumpsFarPool = .ok jumpsNear jumpsFarPool := by
  have hlabel : jumpsFarLayout.offsetOf ⟨0⟩ = 3 := by simp [Layout.offsetOf, jumpsFarLayout]
  have hbytes : jumpsFarLayout.nodes.flatMap jumpsFarLayout.form = jumpsNear.bytecode := by
    have hjump : jumpsFarLayout.form (.operation (.branch (.goto ⟨0⟩)), 0, false) =
        [167, 0, 3] := by
      simp only [Layout.form, Operation.map, Branch.map, hlabel]
      decide
    change jumpsFarLayout.form (.operation (.branch (.goto ⟨0⟩)), 0, false) ++ [177] = _
    rw [hjump]
    rfl
  -- the name of the table is in the pool already
  have hnoted : jumpsFarPool.texts["LineNumberTable"]? = some 1 := by
    change ((∅ : Std.HashMap String PoolIndex).insertIfNew "LineNumberTable" 1)[_]? = _
    rw [Std.HashMap.getElem?_insertIfNew, if_pos ⟨beq_self_eq_true _, Std.HashMap.not_mem_empty⟩]
  refine (layout_ok jumpsFarBody_layout).encode_of_writes ⟨jumpsNear.attributes, [], [], ?_, ?_⟩
  · exact .inr ⟨List.cons_ne_nil _ _, 1, hnoted, rfl⟩
  · refine ⟨.inl ⟨rfl, rfl⟩, .inl ⟨rfl, rfl⟩, ?_⟩
    unfold Layout.bareCode
    rw [hbytes]
    rfl

/-- The code that is written for `jumpsFar` is decoded as the same body. -/
theorem jumpsFar_decode_encode :
    decode jumpsNear jumpsFarPool = .ok jumpsFarBody ∧
      jumpsFarBody.encode jumpsFarLayout [] jumpsFarPool = .ok jumpsNear jumpsFarPool :=
  decode_encode_eq ⟨Pool.built_ofConstants _, by decide +kernel⟩ jumpsFar_decode jumpsFarBody_layout
    jumpsFarBody_encode (by decide) (by decide) (by decide)

end Body

end Preverification

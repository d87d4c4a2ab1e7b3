import Preverification.Proofs.InferenceCauses
import Preverification.Proofs.NewObjects

/-!
# What failing emission is blamed on

Leaving out unreachable code keeps all labels, so that a hygienic body stays hygienic and has a
layout unless it is too long. All labels that are looked up there are placed: those that the body
refers to, and those of allocations in frames. What is left are numbers that do not fit into a class
file.

* `Body.Hygienic.blames_layout`: a hygienic body has a layout, unless something is too far or there
  is too much code.
* `TypeState.blames_serialize`: a frame is written if the allocations of its objects are placed.
* `Emission.blames_emit`: emission fails because of the input only.
-/

namespace Preverification

/-! ### Adding constants -/

namespace Pool

variable {α : Type}

/-- A constant is not added only if the pool is full. -/
theorem blames_add (constant : Constant) : StepBlamesInput (add constant) := by
  intro pool error later hrun
  unfold add at hrun
  split at hrun
  · cases hrun
  · cases hrun
    trivial

/-- A text is not added only if it is too long or the pool is full. -/
theorem blames_addUtf8 (text : String) : StepBlamesInput (addUtf8 text) := by
  refine .bind .get fun pool => ?_
  split
  · exact .pure _
  · exact blames_add _

theorem blames_addClass (name : String) : StepBlamesInput (addClass name) := by
  refine .bind (blames_addUtf8 name) fun index => .bind .get fun pool => ?_
  split
  · exact .pure _
  · exact blames_add _

theorem blames_addAttribute [AttributeContents α] (value : α) :
    StepBlamesInput (addAttribute value) :=
  .bind (blames_addUtf8 _) fun _ => .pure _

/-- A table is written if there is anything in it. -/
theorem blames_addTable {β : Type} [AttributeContents β] (table : List α → β) (entries : List α) :
    StepBlamesInput (addTable table entries) := by
  unfold addTable
  split
  · exact .pure _
  · exact .bind (blames_addAttribute _) fun _ => .pure _

end Pool

/-! ### Frames -/

section Frames

variable {layout : Layout} {body : Body}

/-- A label that is placed has an offset. -/
theorem Layout.Places.exists_labelOffset (h : layout.Places body) {label : Label}
    (hlabel : .label label ∈ body.nodes) : ∃ offset, layout.labelOffset label = .ok offset := by
  rw [← h.nodes_eq] at hlabel
  obtain ⟨⟨_, offset, long⟩, hentry, rfl⟩ := List.mem_map.1 hlabel
  obtain ⟨place, hplace⟩ := List.mem_iff_getElem?.1 hentry
  exact ⟨offset, h.labelOffset_ok.2 ⟨place, long, hplace⟩⟩

/-- The type of an object that is not initialized needs the label of its allocation. -/
theorem InferredType.blames_serialize (h : layout.Places body) (type : InferredType)
    (hsite : ∀ site, type = .uninitialized site → .label site ∈ body.nodes) :
    StepBlamesInput (type.serialize layout) := by
  cases type with
  | object class' => exact .bind (Pool.blames_addClass _) fun _ => .pure _
  | uninitialized site =>
    obtain ⟨offset, hoffset⟩ := h.exists_labelOffset (hsite site rfl)
    exact .bind (.ofExcept (.of_ok hoffset)) fun _ => .pure _
  | _ => exact .pure _

/-- A frame is written if the allocations of its objects are placed. -/
theorem TypeState.blames_serialize (h : layout.Places body) (state : TypeState)
    (hsites : ∀ site, ¬ state.Lacks site → .label site ∈ body.nodes) :
    StepBlamesInput (state.toFrame.serialize layout) := by
  have hplaced : ∀ type ∈ state.toFrame.locals.toList ++ state.stack.toList, ∀ site,
      type = .uninitialized site → .label site ∈ body.nodes := by
    rintro _ hmem site rfl
    exact hsites site (not_lacks_of_mem_frame hmem)
  refine .bind (.mapM fun type hmem => ?_) fun _ => .bind (.mapM fun type hmem => ?_) fun _ => .pure _
  · exact type.blames_serialize h (hplaced type (List.mem_append_right _ hmem))
  · exact type.blames_serialize h (hplaced type (List.mem_append_left _ hmem))

/-- The frame at the entry names no allocation, and those of the others are placed. -/
theorem Pool.blames_addFrames (h : layout.Places body) (format : FrameFormat) {entry : TypeState}
    (hentry : ∀ site, entry.Lacks site) (frames : List PlacedFrame) :
    StepBlamesInput (Pool.addFrames format layout entry.toFrame frames) := by
  unfold addFrames
  split
  · exact .pure _
  · cases format with
    | stackMapTable =>
      refine .bind (entry.blames_serialize h fun site hnot => absurd (hentry site) hnot) fun _ => ?_
      exact .bind (blames_addAttribute _) fun _ => .pure _
    | stackMap => exact .bind (blames_addAttribute _) fun _ => .pure _

/-! ### Bodies -/

/-- All labels that a table refers to have offsets. -/
theorem Body.blames_encode (h : layout.Places body) (extra : List Attribute) :
    StepBlamesInput (body.encode layout extra) := by
  refine .bind (.ofExcept (.of_ok h.bytecode_eq)) fun _ => ?_
  refine .bind (.ofExcept (.of_ok h.exceptionEntries)) fun _ => ?_
  refine .bind (Pool.blames_addTable _ _) fun _ => ?_
  refine .bind (.ofExcept
    (.of_ok (h.variableEntries (List.subset_append_left _ _)))) fun _ => ?_
  refine .bind (Pool.blames_addTable _ _) fun _ => ?_
  refine .bind (.ofExcept
    (.of_ok (h.variableEntries (List.subset_append_right _ _)))) fun _ => ?_
  exact .bind (Pool.blames_addTable _ _) fun _ => .pure _

end Frames

namespace Body

variable {body pruned : Body} {analysis : Analysis}

/-- A hygienic body has a layout, unless something is too far or there is too much code. -/
theorem Hygienic.blames_layout (h : body.Hygienic) : BlamesInput body.layout := by
  have hcheck := checkLabels_of_placed (nodup_of_label_unique h.unique) h.placed
  refine .bind (.of_ok hcheck) fun _ _ => ?_
  dsimp only
  split
  · exact .throw trivial
  · split
    · exact .pure _
    · exact .throw trivial

/-- The operations to which control may jump are found. -/
theorem Hygienic.blames_frameTargets (h : body.Hygienic) : BlamesInput body.frameTargets := by
  obtain ⟨flow, hflow⟩ := h.exists_flow
  refine .bind (.of_ok hflow) fun found hfound => .bind (.mapM fun label hlabel => ?_) fun _ _ => .pure _
  have hplaced : .label label ∈ body.nodes := by
    refine h.placed label ?_
    rcases mem_jumpLabels.1 hlabel with ⟨operation, hnode, htarget⟩ | ⟨handler, hhandler, rfl⟩
    · exact mem_referencedLabels hnode htarget
    · exact (referenced_of_handler hhandler).2.2
  obtain ⟨target, htarget⟩ := exists_operationAt (flow_describes hfound) hplaced
  exact .of_ok htarget

/-- What is left of a hygienic body is hygienic. -/
theorem Hygienic.removeUnreachable (h : body.Hygienic)
    (hremoved : body.removeUnreachable analysis = .ok pruned) :
    pruned.Hygienic ∧ ∀ label, .label label ∈ pruned.nodes ↔ .label label ∈ body.nodes := by
  obtain ⟨flow, hflow⟩ := h.exists_flow
  obtain ⟨found, hfound, hlabels, -⟩ := exists_removeUnreachable hflow analysis
  cases hfound.symm.trans hremoved
  obtain ⟨hkeeps, hhandlers⟩ := removeUnreachable_ok hremoved
  -- all labels stay
  have hmem : ∀ label, .label label ∈ pruned.nodes ↔ .label label ∈ body.nodes := by
    intro label
    rw [← mem_filterMap_label, hlabels, mem_filterMap_label]
  -- ranges stay as well, and no label is handed out
  obtain ⟨hranges, hranges', hissued⟩ : pruned.localVariables = body.localVariables ∧
      pruned.variableTypes = body.variableTypes ∧ pruned.issued = body.issued := by
    unfold Body.removeUnreachable at hremoved
    obtain ⟨_, _, hsame⟩ := except_bind_ok.1 hremoved
    cases hsame
    exact ⟨rfl, rfl, rfl⟩
  refine ⟨⟨fun label place place' => ?_, fun label hlabel => ?_, fun label hlabel => ?_⟩, hmem⟩
  · exact label_unique_of_nodup (hlabels ▸ nodup_of_label_unique h.unique)
  · -- nothing refers to more labels than before
    refine (hmem label).2 (h.placed label (mem_referencedLabels_iff.2 ?_))
    rcases mem_referencedLabels_iff.1 hlabel with
      ⟨node, hnode, htarget⟩ | ⟨handler, hhandler, heq⟩ | ⟨span, hspan, hlabel⟩
    · obtain ⟨place, hplace⟩ := List.mem_iff_getElem?.1 hnode
      obtain ⟨position, -, hposition⟩ := hkeeps.exists_position hplace
      exact .inl ⟨node, List.mem_of_getElem? hposition, htarget⟩
    · exact .inr (.inl ⟨handler, hhandlers hhandler, heq⟩)
    · refine .inr (.inr ⟨span, ?_, hlabel⟩)
      unfold spans at hspan ⊢
      rw [hranges, hranges'] at hspan
      rcases mem_spansOf.1 hspan with ⟨handler, hhandler, heq⟩ | hrange
      · exact mem_spansOf.2 (.inl ⟨handler, hhandlers hhandler, heq⟩)
      · exact mem_spansOf.2 (.inr hrange)
  · rw [hissued]
    exact h.issued label ((hmem label).1 hlabel)

end Body

/-! ### Emission -/

namespace Emission

variable {α : Type} {analysis : Analysis}

/-- The pool of the method is edited, and nothing else. -/
theorem blames_edit {change : Pool.Edit α} (h : StepBlamesInput change) :
    StepBlamesInput (edit change) := by
  intro draft error draft' hrun
  unfold edit at hrun
  split at hrun
  · cases hrun
  · rename_i hchange
    cases hrun
    exact h _ _ _ hchange

theorem blames_slots (needed : Nat) {tooMany : Nat → StructuralError}
    (h : (tooMany needed).CausedByInput) : StepBlamesInput (slots needed tooMany) :=
  .ite (.pure _) (.throw h)

/-- More slots may be needed than can be declared. -/
theorem blames_raiseSlots (analysis : Analysis) : StepBlamesInput (raiseSlots analysis) := by
  refine .bind .get fun draft => .bind (blames_slots _ trivial) fun maxStack => ?_
  refine .bind (.modify _) fun _ => .bind (blames_slots _ trivial) fun maxLocals => ?_
  exact .modify _

/-- Frames that were read are dropped, and nothing can go wrong. -/
theorem blames_dropFrames : StepBlamesInput dropFrames := by
  refine .bind .get fun draft => .bind (.modify _) fun _ => .bind (.ofExcept ?_) fun _ => .modify _
  refine .filterM fun attr _ => .bind ?_ fun _ _ => .pure _
  exact .bind (attr.blames_holds _ _) fun _ _ => .bind (attr.blames_holds _ _) fun _ _ => .pure _

/-- Emission fails because of the input, if the body is hygienic and the allocations of all objects
that were inferred are placed. -/
theorem blames_emit {draft : MethodDraft} (hbody : draft.body.Hygienic) {entry : TypeState}
    (hentry : ∀ site, entry.Lacks site)
    (hsites : ∀ (position : Nat) (state : TypeState) (site : Label),
      analysis.state? position = some state → ¬ state.Lacks site → .label site ∈ draft.body.nodes)
    (format : FrameFormat) :
    StepBlamesAt StructuralError.CausedByInput (emit analysis entry format) draft := by
  obtain ⟨flow, hflow⟩ := hbody.exists_flow
  obtain ⟨pruned, hpruned, -⟩ := Body.exists_removeUnreachable hflow analysis
  obtain ⟨hhygienic, hlabels⟩ := hbody.removeUnreachable hpruned
  -- the stages of emission, one after the other
  unfold emit
  refine .bind (StepBlames.get draft) fun _ _ hget => ?_
  cases hget
  refine .bind (.ofExcept hbody.blames_frameTargets) fun targets _ hcheck => ?_
  obtain ⟨-, rfl⟩ := ofExcept_ok.1 hcheck
  refine .bind (.ofExcept (.of_ok hpruned)) fun found _ hcheck => ?_
  obtain ⟨hfound, rfl⟩ := ofExcept_ok.1 hcheck
  cases hfound.symm.trans hpruned
  refine .bind (StepBlames.modify _ draft) fun _ _ hset => ?_
  cases setBody_ok hset
  refine .bind (blames_raiseSlots analysis _) fun _ _ hraised => ?_
  obtain ⟨maxStack, maxLocals, rfl⟩ := raiseSlots_ok hraised
  refine .bind (blames_dropFrames _) fun _ _ hdropped => ?_
  obtain ⟨attributes, -, rfl⟩ := dropFrames_ok hdropped
  refine .bind (StepBlames.get _) fun _ _ hget => ?_
  cases hget
  -- numbers of slots and attributes do not matter for labels
  have hfinal : ({ pruned with maxStack, maxLocals, attributes } : Body).Hygienic :=
    ⟨hhygienic.unique, hhygienic.placed, hhygienic.issued⟩
  refine .bind (.ofExcept hfinal.blames_layout) fun layout _ hcheck => ?_
  obtain ⟨hlayout, rfl⟩ := ofExcept_ok.1 hcheck
  have hplaces := Body.layout_ok hlayout
  -- a frame is written for a recorded state, whose objects have labels that are placed
  refine .bind (blames_edit (.mapM fun found hmem => ?_) _) fun frames _ _ => ?_
  · obtain ⟨-, position, -, -, -, hstate⟩ := mem_frameStates.1 hmem
    refine .bind (found.2.blames_serialize hplaces fun site hnot => ?_) fun _ => .pure _
    exact (hlabels site).2 (hsites position found.2 site hstate hnot)
  refine .bind (blames_edit (Pool.blames_addFrames hplaces format hentry frames) _) fun extra _ _ => ?_
  exact blames_edit (Body.blames_encode hplaces extra) _

end Emission

end Preverification

import Preverification.Proofs.InferenceCauses

/-!
# What failing inlining is blamed on

In a hygienic body every label is placed that a branch, a handler or a range refers to. Cutting it
into regions looks up such labels only, and no region that is changed loses sight of them. What is
left are subroutines that cannot be inlined, which is the fault of the input.

* `Body.Hygienic.blames_regions`: cutting a hygienic body into regions fails because of the input.
* `Body.blames_inline`: so does inlining it.
-/

namespace Preverification

/-- The input can cause an error, unless it is about where a label was placed. -/
def SubroutineError.CausedByInput : SubroutineError → Prop
  | structural _ => False
  | _ => True

namespace Regions

/-- A step of cutting a body into regions fails because of the input. -/
abbrev BlamesInput {α : Type} (check : Except SubroutineError α) : Prop :=
  Blames SubroutineError.CausedByInput check

variable {body : Body} {regions : Regions}

/-! ### Looking labels up -/

section Lookups

variable (hflow : regions.flow.Describes body.nodes)
include hflow

/-- A label that is placed belongs to a region. -/
theorem exists_ownerOf {label : Label} (hlabel : .label label ∈ body.nodes) :
    ∃ number, regions.ownerOf label = .ok number := by
  obtain ⟨position, hposition⟩ := Body.exists_position hflow hlabel
  exact ⟨_, except_bind_ok.2 ⟨position, except_mapError_ok.2 hposition, rfl⟩⟩

/-- The target of a jump is found, so that the jump is at most in the wrong region. -/
theorem blames_checkJump {source : Nat} {label : Label} (hlabel : .label label ∈ body.nodes) :
    BlamesInput (regions.checkJump source label) := by
  obtain ⟨number, hnumber⟩ := exists_ownerOf hflow hlabel
  refine .bind (.of_ok hnumber) fun owner _ => ?_
  split
  · exact .throw trivial
  · exact .pure _

omit hflow in
/-- There may be nothing behind the end of a body, and then nothing is checked. -/
theorem blames_checkFallThrough (source position : Nat) :
    BlamesInput (regions.checkFallThrough source position) := by
  unfold checkFallThrough
  split
  · exact .pure _
  · dsimp only
    split
    · split
      · exact .pure _
      · exact .throw trivial
    · exact .pure _

/-- An operation is checked by its targets, and by what is behind it. -/
theorem blames_checkOperation {position : Nat} {operation : Operation Label}
    (htargets : ∀ label ∈ operation.targets, .label label ∈ body.nodes) :
    BlamesInput (regions.checkOperation position operation) := by
  by_cases hsubroutine : operation.isSubroutine = true
  · -- a call is not checked, and a return only for being in a subroutine
    obtain ⟨label, rfl⟩ | ⟨slot, rfl⟩ := Operation.jsr_or_ret hsubroutine
    · exact .pure _
    · unfold checkOperation
      dsimp only
      split
      · exact .throw trivial
      · exact .pure _
  · rw [checkOperation_eq regions position (by simpa using hsubroutine)]
    refine .bind (.forM fun label hlabel => blames_checkJump hflow (htargets label hlabel)) ?_
    intro _ _
    split
    · exact blames_checkFallThrough _ _
    · exact .pure _

/-- All operations are checked one by one. -/
theorem blames_checkEntries (hbody : body.Hygienic) :
    BlamesInput (regions.checkEntries body.nodes) := by
  refine .forM fun ⟨node, position⟩ hmem => ?_
  dsimp only
  split
  · rename_i operation
    have hnode := List.mem_of_getElem? (List.mk_mem_zipIdx_iff_getElem?.1 hmem)
    exact blames_checkOperation hflow fun label hlabel =>
      hbody.placed label (Body.mem_referencedLabels hnode hlabel)
  · exact .pure _
  · exact .pure _

/-- A range whose labels are placed may go over the end of a region at most. -/
theorem blames_ofRange {start stop : Label} (hstart : .label start ∈ body.nodes)
    (hstop : .label stop ∈ body.nodes) : BlamesInput (regions.ofRange start stop) := by
  obtain ⟨first, hfirst⟩ := Body.exists_position hflow hstart
  obtain ⟨last, hlast⟩ := Body.exists_position hflow hstop
  refine .bind (.of_ok (except_mapError_ok.2 hfirst)) fun first _ => ?_
  refine .bind (.of_ok (except_mapError_ok.2 hlast)) fun last _ => ?_
  dsimp only
  split
  · exact .pure _
  · split
    · exact .pure _
    · exact .pure _

/-- A handler whose labels are placed may cross a region at most. -/
theorem blames_addHandler {handler : Handler}
    (hplaced : ∀ label ∈ [handler.start, handler.stop, handler.handler], .label label ∈ body.nodes) :
    BlamesInput (regions.addHandler handler) := by
  refine .bind (blames_ofRange hflow (hplaced _ (by simp)) (hplaced _ (by simp))) ?_
  intro home _
  cases home with
  | none => exact .throw trivial
  | some home =>
    obtain ⟨number, hnumber⟩ := exists_ownerOf hflow (hplaced handler.handler (by simp))
    refine .bind (.of_ok hnumber) fun owner _ => ?_
    split
    · exact .pure _
    · exact .throw trivial

/-- A range of a variable is noted or lost. -/
theorem blames_addRange {note : VariableRange → Region → Region} {range : VariableRange}
    (hstart : .label range.start ∈ body.nodes) (hstop : .label range.stop ∈ body.nodes) :
    BlamesInput (regions.addRange note range) := by
  refine .bind (blames_ofRange hflow hstart hstop) fun home _ => ?_
  split
  · exact .pure _
  · exact .pure _

end Lookups

/-! ### Cutting a body -/

/-- A scan fails because of subroutines that do not end. -/
theorem blames_ofNodes (hbody : body.Hygienic) : BlamesInput (ofNodes body) := by
  obtain ⟨flow, hflow⟩ := hbody.exists_flow
  refine .bind (.of_ok (except_mapError_ok.2 hflow)) fun found hfound => ?_
  have hdescribes := Body.flow_describes (except_mapError_ok.1 hfound)
  refine .bind (.forM fun label hcalled => ?_) fun _ _ => ?_
  · have hplaced := hbody.placed label
      (Body.mem_referencedLabels (mem_calledLabels.1 hcalled) (List.mem_singleton_self label))
    obtain ⟨position, hposition⟩ := Body.exists_position hdescribes hplaced
    exact .map (.of_ok (except_mapError_ok.2 hposition))
  · dsimp only
    split
    · exact .pure _
    · exact .throw trivial

/-- Steps that change no more than handlers and ranges all see the same flow. -/
theorem blames_foldlM {α : Type} {l : List α} {step : Regions → α → Except SubroutineError Regions}
    (hstep : ∀ regions : Regions, regions.flow.Describes body.nodes → ∀ a ∈ l,
      BlamesInput (step regions a))
    (hagrees : ∀ regions a regions', step regions a = .ok regions' → regions.Agrees regions')
    (hflow : regions.flow.Describes body.nodes) : BlamesInput (l.foldlM step regions) :=
  .foldlM (fun regions : Regions => regions.flow.Describes body.nodes)
    (fun regions a hmem hregions => ⟨hstep regions hregions a hmem, fun regions' hrun =>
      (hagrees regions a regions' hrun).flow_eq ▸ hregions⟩) hflow

end Regions

namespace Body

variable {body : Body}

/-- The regions of a hygienic body are not found only if it cannot be cut. -/
theorem Hygienic.blames_regions (hbody : body.Hygienic) : Regions.BlamesInput body.regions := by
  have hranges : ∀ range ∈ body.localVariables ++ body.variableTypes,
      .label range.start ∈ body.nodes ∧ .label range.stop ∈ body.nodes := fun range hmem =>
    (referenced_of_range hmem).imp (hbody.placed _) (hbody.placed _)
  refine .bind (Regions.blames_ofNodes hbody) fun bare hbare => ?_
  -- each stage keeps the flow, in which all labels that are put are found
  have hflow := (Regions.ofNodes_cuts hbare).flow
  refine .bind (Regions.blames_checkEntries hflow hbody) fun _ _ => ?_
  refine .bind (Regions.blames_foldlM (fun regions hregions handler hmem => ?_)
    (fun _ _ _ => Regions.addHandler_agrees) hflow) fun guarded hguarded => ?_
  · exact Regions.blames_addHandler hregions fun label hlabel =>
      hbody.placed label (mem_referencedLabels_of_handler hmem hlabel)
  have hagrees := Regions.foldlM_agrees (fun _ _ _ => Regions.addHandler_agrees) hguarded
  have hflow' := hagrees.flow_eq ▸ hflow
  refine .bind (Regions.blames_foldlM (fun regions hregions range hmem => ?_)
    (fun _ _ _ => Regions.addRange_agrees Region.notes_variable) hflow') fun ranged hranged => ?_
  · obtain ⟨hstart, hstop⟩ := hranges range (List.mem_append_left _ hmem)
    exact Regions.blames_addRange hregions hstart hstop
  have hagrees' := Regions.foldlM_addRange_agrees Region.notes_variable hranged
  refine Regions.blames_foldlM (fun regions hregions range hmem => ?_)
    (fun _ _ _ => Regions.addRange_agrees Region.notes_variableType) (hagrees'.flow_eq ▸ hflow')
  obtain ⟨hstart, hstop⟩ := hranges range (List.mem_append_right _ hmem)
  exact Regions.blames_addRange hregions hstart hstop

end Body

/-! ### Sizes and copies -/

namespace Regions

variable (regions : Regions)

/-- Sizes are worked out in steps, none of which may fail for another reason. -/
theorem blames_sizes_bind {α β : Type} {step : Sizes α} {next : α → Sizes β}
    (hstep : ∀ known, BlamesInput (step known))
    (hnext : ∀ a known, BlamesInput (next a known)) (known : KnownSizes) :
    BlamesInput ((step >>= next) known) :=
  .bind (hstep known) fun ⟨a, later⟩ _ => hnext a later

/-- The sizes of several subroutines are found if each of them is. -/
theorem blames_addCalls {find : Nat → Sizes ExpandedSize}
    (hfind : ∀ number known, BlamesInput (find number known)) (callees : List Nat)
    (size : ExpandedSize) (known : KnownSizes) :
    BlamesInput (ExpandedSize.addCalls find callees size known) := by
  induction callees generalizing size known with
  | nil => exact .pure _
  | cons callee callees ih =>
    rw [ExpandedSize.addCalls_cons]
    exact blames_sizes_bind (hfind callee) (fun lower known => ih _ known) known

/-- The size of one region is known, or it is found by way of its calls. -/
theorem blames_visit {graph : CallGraph} {find : Nat → Sizes ExpandedSize}
    (hfind : ∀ number known, BlamesInput (find number known)) (number : Nat) (known : KnownSizes) :
    BlamesInput (graph.visit find number known) := by
  refine blames_sizes_bind (fun _ => .pure _) (fun _ known => ?_) known
  refine blames_sizes_bind (blames_addCalls hfind _ _) (fun size known => ?_) known
  exact blames_sizes_bind (fun _ => .pure _) (fun _ _ => .pure _) known

/-- The size of a region is not found only if subroutines call each other in circles. -/
theorem blames_expandedSize (graph : CallGraph) (rounds number : Nat) (known : KnownSizes) :
    BlamesInput (graph.expandedSize rounds number known) := by
  induction rounds generalizing number known with
  | zero => exact .pure _
  | succ rounds ih =>
    rw [CallGraph.expandedSize]
    refine blames_sizes_bind (fun _ => .pure _) (fun found known => ?_) known
    rcases found[number]? with _ | _ | size
    · exact blames_visit ih number known
    · -- only what has an entry cannot be called while it is in progress
      cases (graph.region number).entry with
      | none => exact blames_visit ih number known
      | some entry => exact .throw trivial
    · exact .pure _

theorem blames_totalSize : BlamesInput regions.totalSize :=
  .map (blames_expandedSize regions.callGraph _ outer ∅)

end Regions

/-- Inlining a hygienic body fails because of the input. -/
theorem Body.blames_inline {body : Body} (hbody : body.Hygienic) (limits : InliningLimits) :
    Regions.BlamesInput (body.inline limits) := by
  unfold inline
  split
  · exact .pure _
  · refine .bind hbody.blames_regions fun regions hregions => ?_
    refine .bind regions.blames_totalSize fun size hsize => ?_
    split
    · exact .throw trivial
    · -- within the limits every copy succeeds
      exact .bind (.of_ok (Regions.emitBody_eq hregions hsize body.issued)) fun _ _ => .pure _

end Preverification

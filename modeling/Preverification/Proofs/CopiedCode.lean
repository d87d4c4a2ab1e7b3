import Preverification.Proofs.Copies
import Preverification.Proofs.Entries
import Preverification.Proofs.Nesting

/-!
# What copies are made of

Inlining makes up no code. Each operation of an inlined body stands for an operation of the body,
and each range of a variable for the range of a variable of the same name and type.

* `Regions.draws_copyToDepth`: copies of subroutines stand for code of the body, at every depth.
* `Body.inline_drawnFrom`: so does an inlined body.
* `Body.DrawnFrom.labelAllocations`: and it still does with labels in front of its allocations.
-/

namespace Preverification

/-! ### Ranges of variables in regions -/

namespace Regions

variable {body : Body} {regions regions' : Regions}

/-- The ranges of variables that belong to regions are those of a body. -/
def DrawnFrom (regions : Regions) (body : Body) : Prop :=
  ∀ region ∈ regions.regions, ∀ range ∈ region.localVariables, range ∈ body.localVariables

/-- No ranges belong to the regions that a scan finds. -/
theorem ofNodes_drawnFrom (h : ofNodes body = .ok regions) : regions.DrawnFrom body := by
  intro region hregion range hrange
  rw [(ofNodes_bare h region hregion).localVariables] at hrange
  exact absurd hrange (Array.not_mem_empty range)

/-- A region may be changed if what it gains is a range of the body. -/
theorem DrawnFrom.update (h : regions.DrawnFrom body) (number : Nat) {f : Region → Region}
    (hf : ∀ region, ∀ range ∈ (f region).localVariables,
      range ∈ region.localVariables ∨ range ∈ body.localVariables) :
    (regions.update number f).DrawnFrom body := by
  intro region hregion range hrange
  obtain ⟨place, hplace⟩ := Array.mem_iff_getElem?.1 hregion
  unfold Regions.update at hplace
  rw [Array.getElem?_modify] at hplace
  -- only the region with this number has changed
  split at hplace
  · obtain ⟨found, hfound, rfl⟩ := Option.map_eq_some_iff.1 hplace
    rcases hf found range hrange with hold | hnew
    · exact h found (Array.mem_of_getElem? hfound) range hold
    · exact hnew
  · exact h region (Array.mem_of_getElem? hplace) range hrange

/-- A handler is no range of a variable. -/
theorem DrawnFrom.addHandler {handler : Handler} (hdrawn : regions.DrawnFrom body)
    (h : regions.addHandler handler = .ok regions') : regions'.DrawnFrom body := by
  obtain ⟨home, -, -, rfl⟩ := addHandler_cases h
  exact hdrawn.update home fun _ _ hrange => .inl hrange

/-- A range is noted in a region, or lost. -/
theorem DrawnFrom.addRange {note : VariableRange → Region → Region} {range : VariableRange}
    (hnote : ∀ region, ∀ found ∈ (note range region).localVariables,
      found ∈ region.localVariables ∨ found ∈ body.localVariables)
    (hdrawn : regions.DrawnFrom body) (h : regions.addRange note range = .ok regions') :
    regions'.DrawnFrom body := by
  rcases addRange_cases h with rfl | ⟨home, -, rfl⟩
  · exact hdrawn
  · exact hdrawn.update home hnote

/-- The ranges of variables that belong to the regions of a body are those of the body. -/
theorem regions_drawnFrom (h : body.regions = .ok regions) : regions.DrawnFrom body := by
  refine Body.regions_keep (P := (DrawnFrom · body)) h (fun _ => ofNodes_drawnFrom)
    (fun _ _ _ _ => DrawnFrom.addHandler) (fun range hmem _ _ => DrawnFrom.addRange ?_)
    fun range _ _ _ => DrawnFrom.addRange fun _ _ => .inl
  intro region found hfound
  rcases Array.mem_push.1 hfound with hold | rfl
  · exact .inl hold
  · exact .inr hmem

theorem localVariables_subset (h : regions.DrawnFrom body) (number : Nat) :
    ∀ range ∈ (regions.region number).localVariables, range ∈ body.localVariables :=
  forall_region (P := fun region => ∀ range ∈ region.localVariables, range ∈ body.localVariables)
    nofun h number

end Regions

/-! ### Copies -/

namespace Body

/-- An operation stands for one of a body. -/
def Supplies (body : Body) (operation : Operation Label) : Prop :=
  ∃ original names continuation, .operation original ∈ body.nodes ∧
    operation = original.copied names continuation

/-- A range stands for one of a body in which a variable has the same name and type. -/
def Declares (body : Body) (range : VariableRange) : Prop :=
  ∃ original ∈ body.localVariables, original.name = range.name ∧
    original.descriptor = range.descriptor

/-- All operations and all ranges of variables in a body stand for some of another one. -/
structure DrawnFrom (drawn body : Body) : Prop where
  operations : ∀ {operation}, .operation operation ∈ drawn.nodes → body.Supplies operation
  localVariables : ∀ range ∈ drawn.localVariables, body.Declares range
  attributes : drawn.attributes = body.attributes

end Body

namespace Inlining

/-- Only what stands for something in a body was added. -/
structure DrawnFrom (inlining : Inlining) (body : Body) : Prop where
  operations : ∀ {operation}, .operation operation ∈ inlining.nodes → body.Supplies operation
  localVariables : ∀ range ∈ inlining.localVariables, body.Declares range

variable {inlining : Inlining} {body : Body}

/-- A node may be added if it is no operation, or stands for one. -/
theorem DrawnFrom.push {node : Node} (h : inlining.DrawnFrom body)
    (hnode : ∀ operation, node = .operation operation → body.Supplies operation) :
    (inlining.push node).DrawnFrom body := by
  refine ⟨fun {operation} hmem => ?_, h.localVariables⟩
  rcases Array.mem_push.1 hmem with hold | heq
  · exact h.operations hold
  · exact hnode operation heq.symm

end Inlining

namespace Regions

variable {body : Body} {regions : Regions} {copy : CopySubroutine}

/-- Copies of subroutines only add what stands for something in a body. -/
def Draws (copy : CopySubroutine) (body : Body) : Prop :=
  ∀ number names continuation inlining, inlining.DrawnFrom body →
    (copy number names continuation inlining).DrawnFrom body

/-- A call is replaced by a null, labels, and a copy of what it calls. -/
theorem copyCall_drawnFrom (hcopy : Draws copy body) {target : Label}
    (hcall : .operation (.branch (.jsr target)) ∈ body.nodes) (names : Renaming)
    {inlining : Inlining} (h : inlining.DrawnFrom body) :
    (regions.copyCall copy names target inlining).DrawnFrom body := by
  rw [copyCall_eq]
  refine (hcopy _ _ _ _ ?_).push nofun
  refine ⟨fun {operation} hmem => ?_, h.localVariables⟩
  rcases Array.mem_push.1 hmem with hold | heq
  · exact h.operations hold
  · obtain rfl := Node.operation.inj heq
    exact ⟨_, id, default, hcall, rfl⟩

/-- Every node is copied as what it is, but for calls. -/
theorem copyNode_drawnFrom (hcopy : Draws copy body) {node : Node} (hnode : node ∈ body.nodes)
    (names : Renaming) (continuation : Label) {inlining : Inlining}
    (h : inlining.DrawnFrom body) :
    (regions.copyNode copy names continuation inlining node).DrawnFrom body := by
  have hoperation : ∀ original, node = .operation original →
      ∀ operation, Node.operation (original.copied names.apply continuation) =
        .operation operation → body.Supplies operation := by
    rintro original rfl operation heq
    obtain rfl := Node.operation.inj heq
    exact ⟨original, names.apply, continuation, hnode, rfl⟩
  -- only operations need an original, and only calls have copies
  cases node with
  | label label => exact h.push nofun
  | line number => exact h.push nofun
  | operation operation =>
    cases operation with
    | step instruction => exact h.push (hoperation _ rfl)
    | branch b =>
      cases b with
      | jsr target => exact copyCall_drawnFrom hcopy hnode names h
      | _ => exact h.push (hoperation _ rfl)

/-- At most a label is made for ranges that end behind the copy. -/
theorem copyStops_drawnFrom (number : Nat) (names : Renaming) {inlining : Inlining}
    (h : inlining.DrawnFrom body) :
    (regions.copyStops number names inlining).2.DrawnFrom body := by
  rcases copyStops_cases regions number names inlining with heq | heq
  · rw [heq]
    exact h
  · have hfresh : inlining.fresh.2.DrawnFrom body := ⟨h.operations, h.localVariables⟩
    rw [heq]
    exact hfresh.push nofun

/-- The ranges of a region are copied with their names and types. -/
theorem copyRanges_drawnFrom (hdrawn : regions.DrawnFrom body) (number : Nat) (names : Renaming)
    {inlining : Inlining} (h : inlining.DrawnFrom body) :
    (regions.copyRanges number names inlining).DrawnFrom body := by
  have hstops : (regions.copyStops number names inlining).2.DrawnFrom body :=
    copyStops_drawnFrom number names h
  refine ⟨hstops.operations, fun range hrange => ?_⟩
  rcases Array.mem_append.1 hrange with hold | hnew
  · exact hstops.localVariables range hold
  · obtain ⟨original, horiginal, rfl⟩ := Array.mem_map.1 hnew
    exact ⟨original, localVariables_subset hdrawn number original horiginal, rfl, rfl⟩

/-- A region is copied node by node. -/
theorem draws_copyRegion (hnodes : regions.flow.nodes = body.nodes.toArray)
    (hdrawn : regions.DrawnFrom body) (hcopy : Draws copy body) :
    Draws (regions.copyRegion copy) body := by
  intro number names continuation inlining h
  refine copyRanges_drawnFrom hdrawn number names ?_
  have hcontents := contents_subset hnodes number
  -- the copy grows while the nodes are gone through
  generalize regions.contents number = nodes at hcontents
  induction nodes generalizing inlining with
  | nil => exact h
  | cons node nodes ih =>
    obtain ⟨hnode, hrest⟩ := List.cons_subset.1 hcontents
    exact ih _ (copyNode_drawnFrom hcopy hnode names continuation h) hrest

/-- What is nested deeper is copied in the same way. -/
theorem draws_copyToDepth (hnodes : regions.flow.nodes = body.nodes.toArray)
    (hdrawn : regions.DrawnFrom body) (depth : Nat) : Draws (regions.copyToDepth depth) body := by
  induction depth with
  | zero => exact draws_copyRegion hnodes hdrawn fun _ _ _ _ h => h
  | succ depth ih => exact draws_copyRegion hnodes hdrawn ih

end Regions

namespace Body

variable {body inlined : Body} {limits : InliningLimits} {copies : Nat}

/-- A body without subroutines stands for itself. -/
theorem drawnFrom_of_not_hasSubroutines (h : body.hasSubroutines = false) :
    body.DrawnFrom body := by
  refine ⟨fun {operation} hmem => ⟨operation, id, default, hmem, ?_⟩,
    fun range hrange => ⟨range, hrange, rfl, rfl⟩, rfl⟩
  rw [Operation.copied_eq (isSubroutine_of_hasSubroutines h hmem), Operation.map_id]

/-- Inlining makes up no code. -/
theorem inline_drawnFrom (h : body.inline limits = .ok (copies, inlined)) :
    inlined.DrawnFrom body := by
  rcases inline_cases h with ⟨hnone, rfl⟩ | ⟨regions, size, -, hregions, -, rfl⟩
  · exact drawnFrom_of_not_hasSubroutines hnone
  · obtain ⟨hc, -⟩ := regions_ok hregions
    have hcopied := Regions.draws_copyToDepth hc.flow.nodes_eq
      (Regions.regions_drawnFrom hregions) size.depth Regions.outer [] default
      { nodes := #[], handlers := #[], localVariables := #[], variableTypes := #[],
        issued := body.issued, copies := 0 }
      ⟨fun hmem => absurd hmem (Array.not_mem_empty _), nofun⟩
    exact ⟨fun hmem => hcopied.operations (Array.mem_toList_iff.1 hmem),
      fun range hrange => hcopied.localVariables range (Array.mem_toList_iff.1 hrange), rfl⟩

/-- Labels in front of allocations add no operation. -/
theorem mem_labelAllocationsFrom {operation : Operation Label} {done nodes : List Node}
    {issued : Nat} (h : .operation operation ∈ (labelAllocationsFrom done issued nodes).1) :
    .operation operation ∈ done ∨ .operation operation ∈ nodes := by
  induction nodes generalizing done issued with
  | nil => exact .inl (List.mem_reverse.1 h)
  | cons node nodes ih =>
    have hkeep : ∀ {done' : List Node} {issued' : Nat},
        (.operation operation ∈ done' → .operation operation ∈ node :: done) →
        .operation operation ∈ (labelAllocationsFrom done' issued' nodes).1 →
          .operation operation ∈ done ∨ .operation operation ∈ node :: nodes := by
      intro done' issued' hdone hmem
      rcases ih hmem with hold | hnew
      · rcases List.mem_cons.1 (hdone hold) with rfl | hold
        · exact .inr List.mem_cons_self
        · exact .inl hold
      · exact .inr (List.mem_cons_of_mem _ hnew)
    unfold labelAllocationsFrom at h
    split at h
    · exact hkeep id h
    · refine hkeep (fun hmem => ?_) h
      simpa using hmem
    · exact hkeep id h

/-- Labels in front of allocations are no operations. -/
theorem DrawnFrom.labelAllocations (h : inlined.DrawnFrom body) :
    inlined.labelAllocations.DrawnFrom body := by
  refine ⟨fun hmem => ?_, h.localVariables, h.attributes⟩
  rcases mem_labelAllocationsFrom hmem with hnone | hold
  · cases hnone
  · exact h.operations hold

end Body

end Preverification

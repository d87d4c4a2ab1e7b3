import Preverification.Proofs.CallPaths
import Preverification.Proofs.Entries

/-!
# Exact sizes

The sizes of regions are worked out by one recursion, which keeps what it has found, and their
copies are made by another one. Here the two are compared: a copy has as many operations as were
counted, copies are nested as deep as was found, and there is one for each path of calls. So the
limits of inlining are those of the inlined body, although it does not exist when they are checked.

* `Regions.adds_copyInside`: there is one copy for each path of calls.
* `Regions.operations_copiedOperations`: the operations that were counted for a region are those of
  its copy.
* `Regions.copyToDepth_stable`: beyond the depth of a region copies do not depend on how deep they
  may be nested.
* `Body.inline_size_exact`: the size that is worked out before anything is copied is that of the
  copy.
-/

namespace Preverification

namespace Inlining

/-- The number of operations that were added. -/
def operationCount (inlining : Inlining) : Nat := inlining.nodes.toList.countP Node.isOperation

/-- A number of copies was made, and a number of operations added. -/
structure Adds (old new : Inlining) (copies operations : Nat) : Prop where
  copies : new.copies = old.copies + copies
  operations : new.operationCount = old.operationCount + operations

variable {old middle new : Inlining} {copies copies' operations operations' : Nat}

theorem Adds.refl (inlining : Inlining) : Adds inlining inlining 0 0 := ⟨rfl, rfl⟩

/-- What is added in two steps adds up. -/
theorem Adds.trans (h : Adds old middle copies operations)
    (h' : Adds middle new copies' operations') :
    Adds old new (copies + copies') (operations + operations') where
  copies := by rw [h'.copies, h.copies, Nat.add_assoc]
  operations := by rw [h'.operations, h.operations, Nat.add_assoc]

/-- An operation is one operation, and no other node is. -/
theorem adds_push (node : Node) (inlining : Inlining) :
    Adds inlining (inlining.push node) 0 ([node].countP Node.isOperation) where
  copies := rfl
  operations := by
    unfold operationCount push
    rw [Array.toList_push, List.countP_append]

theorem adds_called (count : Nat) (inlining : Inlining) :
    Adds inlining (inlining.called count) 1 1 where
  copies := rfl
  operations := by
    unfold operationCount called
    rw [Array.toList_push, List.countP_append]
    rfl

end Inlining

namespace Regions

open Inlining (Adds)

variable {regions : Regions} {body : Body} {known : KnownSizes} {number : Nat}

/-! ### What copies add -/

/-- Copies of regions add as much as two functions say. -/
def AddsFor (copy : CopySubroutine) (copies operations : Nat → Nat) : Prop :=
  ∀ number names continuation inlining,
    Adds inlining (copy number names continuation inlining) (copies number) (operations number)

section Adds

variable {copy : CopySubroutine} {copies operations : Nat → Nat}

/-- A call adds what is copied for it, the copy itself, and the null in its place. -/
theorem adds_copyCall (hcopy : AddsFor copy copies operations) (names : Renaming) (target : Label)
    (inlining : Inlining) :
    Adds inlining (regions.copyCall copy names target inlining)
      (copies (regions.callee target) + 1) (operations (regions.callee target) + 1) := by
  rw [copyCall_eq, Nat.add_comm (copies _), Nat.add_comm (operations _)]
  exact ((Inlining.adds_called _ inlining).trans (hcopy _ _ _ _)).trans (Inlining.adds_push _ _)

/-- A node is copied to one node, and a call to the copy of what it calls as well. -/
theorem adds_copyNode (hcopy : AddsFor copy copies operations) (names : Renaming)
    (continuation : Label) (inlining : Inlining) (node : Node) :
    Adds inlining (regions.copyNode copy names continuation inlining node)
      (([node].filterMap regions.called?).map fun callee => copies callee + 1).sum
      ([node].countP Node.isOperation +
        (([node].filterMap regions.called?).map operations).sum) := by
  cases node with
  | label label => exact Inlining.adds_push _ inlining
  | line number => exact Inlining.adds_push _ inlining
  | operation operation =>
    cases operation with
    | step instruction => exact Inlining.adds_push _ inlining
    | branch b =>
      cases b with
      | jsr target =>
        have hcall := @adds_copyCall regions copy copies operations hcopy names target inlining
        rw [Nat.add_comm (operations _)] at hcall
        exact hcall
      | _ => exact Inlining.adds_push _ inlining

/-- Nodes add what each of them does. -/
theorem adds_copyNodes (hcopy : AddsFor copy copies operations) (names : Renaming)
    (continuation : Label) (nodes : List Node) (inlining : Inlining) :
    Adds inlining (nodes.foldl (regions.copyNode copy names continuation) inlining)
      ((nodes.filterMap regions.called?).map fun callee => copies callee + 1).sum
      (nodes.countP Node.isOperation +
        ((nodes.filterMap regions.called?).map operations).sum) := by
  induction nodes generalizing inlining with
  | nil => exact .refl inlining
  | cons node nodes ih =>
    have hadds := (adds_copyNode hcopy names continuation inlining node).trans
      (ih (regions.copyNode copy names continuation inlining node))
    have hcalled : (node :: nodes).filterMap regions.called? =
        [node].filterMap regions.called? ++ nodes.filterMap regions.called? :=
      @List.filterMap_append _ _ [node] nodes regions.called?
    have hcount : (node :: nodes).countP Node.isOperation =
        [node].countP Node.isOperation + nodes.countP Node.isOperation :=
      @List.countP_append _ Node.isOperation [node] nodes
    rw [List.foldl_cons, hcalled, hcount, List.map_append, List.map_append, List.sum_append,
      List.sum_append, Nat.add_add_add_comm]
    exact hadds

/-- Behind the copy of a region there is at most a label. -/
theorem adds_copyRanges (number : Nat) (names : Renaming) (inlining : Inlining) :
    Adds inlining (regions.copyRanges number names inlining) 0 0 := by
  have hstops : Adds inlining (regions.copyStops number names inlining).2 0 0 := by
    rcases copyStops_cases regions number names inlining with heq | heq
    · rw [heq]
      exact .refl inlining
    · rw [heq]
      exact ⟨rfl, (Inlining.adds_push _ inlining.fresh.2).operations⟩
  exact ⟨hstops.copies, hstops.operations⟩

/-- A copy of a region has the operations of the region, and those of the copies in it. -/
theorem adds_copyRegion (hcopy : AddsFor copy copies operations) (number : Nat) (names : Renaming)
    (continuation : Label) (inlining : Inlining) :
    Adds inlining (regions.copyRegion copy number names continuation inlining)
      ((regions.callees number).map fun callee => copies callee + 1).sum
      ((regions.contents number).countP Node.isOperation +
        ((regions.callees number).map operations).sum) :=
  (adds_copyNodes hcopy names continuation (regions.contents number) inlining).trans
    (adds_copyRanges number names _)

end Adds

/-- The number of operations of a copy of a region in which copies are nested up to some levels. -/
def copiedOperations (regions : Regions) : (levels number : Nat) → Nat
  | 0, _ => 0
  | levels + 1, number => (regions.contents number).countP Node.isOperation +
    ((regions.callees number).map (regions.copiedOperations levels)).sum

/-- There is one copy for each path of calls. -/
theorem adds_copyInside (hc : regions.Cuts body) (levels number : Nat) (names : Renaming)
    (continuation : Label) (inlining : Inlining) :
    Adds inlining (regions.copyInside levels number names continuation inlining)
      (regions.callPaths levels number).length (regions.copiedOperations levels number) := by
  induction levels generalizing number names continuation inlining with
  | zero => exact .refl inlining
  | succ levels ih =>
    rw [length_callPaths_succ hc]
    change Adds inlining (regions.copyToDepth levels number names continuation inlining) _ _
    rw [copyToDepth_eq]
    exact adds_copyRegion ih number names continuation inlining

/-- The copy of a whole body starts with nothing, so what is added is all there is. -/
theorem adds_copyBody (hc : regions.Cuts body) (depth issued : Nat) :
    (regions.copyBody depth issued).copies = (regions.callPaths (depth + 1) outer).length ∧
      (regions.copyBody depth issued).operationCount =
        regions.copiedOperations (depth + 1) outer := by
  have hadds := adds_copyInside hc (depth + 1) outer [] default (Inlining.nothing issued)
  constructor
  · exact hadds.copies.trans (Nat.zero_add _)
  · exact hadds.operations.trans (Nat.zero_add _)

/-! ### Operations that are counted and operations that are copied -/

/-- The operations of copies are counted level by level. -/
theorem copiedOperations_eq (levels number : Nat) : regions.copiedOperations levels number =
    regions.callGraph.nestedOperations levels number := by
  induction levels generalizing number with
  | zero => rfl
  | succ levels ih =>
    rw [copiedOperations, CallGraph.nestedOperations, region_callGraph, funext ih]

/-- The operations that were counted for a region are those of its copy. -/
theorem operations_copiedOperations (ht : regions.callGraph.Tallies known) (levels : Nat)
    {size : ExpandedSize} (hsize : known[number]? = some (some size))
    (hlevels : size.depth < levels) : min size.operations ExpandedSize.maxOperations =
      min (regions.copiedOperations levels number) ExpandedSize.maxOperations := by
  rw [copiedOperations_eq]
  exact ht.operations levels hsize hlevels

/-! ### How deep copies are nested -/

/-- How a region is copied only depends on the copies of what it calls. -/
theorem copyRegion_congr {copy copy' : CopySubroutine}
    (h : ∀ callee ∈ regions.callees number, copy callee = copy' callee) :
    regions.copyRegion copy number = regions.copyRegion copy' number := by
  funext names continuation inlining
  unfold copyRegion
  congr 1
  refine List.foldl_ext _ _ _ fun inlining node hmem => ?_
  cases node with
  | operation operation =>
    cases operation with
    | branch b =>
      cases b with
      | jsr target =>
        have hcallee : regions.callee target ∈ regions.callees number :=
          List.mem_filterMap.2 ⟨_, hmem, rfl⟩
        change regions.copyCall copy names target inlining = regions.copyCall copy' names target _
        rw [copyCall_eq, copyCall_eq, h _ hcallee]
      | _ => rfl
    | _ => rfl
  | _ => rfl

/-- Beyond the depth of a region copies do not depend on how deep they may be nested. -/
theorem copyToDepth_stable (hd : regions.callGraph.Descends known) (depth : Nat) {size : ExpandedSize}
    (hsize : known[number]? = some (some size)) (hdepth : size.depth ≤ depth) {depth' : Nat}
    (hdepth' : size.depth ≤ depth') :
    regions.copyToDepth depth number = regions.copyToDepth depth' number := by
  induction depth generalizing number size depth' with
  | zero =>
    rw [copyToDepth_eq, copyToDepth_eq]
    refine copyRegion_congr fun callee hmem => ?_
    -- at depth zero nothing is called
    rcases descends_callGraph hd hsize hmem with ⟨lower, _, hlt⟩
    omega
  | succ depth ih =>
    rw [copyToDepth_eq, copyToDepth_eq]
    refine copyRegion_congr fun callee hmem => ?_
    rcases descends_callGraph hd hsize hmem with ⟨lower, hlower, hlt⟩
    cases depth' with
    | zero => omega
    | succ depth' => exact ih hlower (by omega) (by omega)

/-- Where a region is copied, what it calls is copied. -/
theorem exists_emit_of_callSite (hc : regions.Cuts body) {emit : EmitSubroutine} {names : Renaming}
    {continuation : Option Label} {inlining inlining' : Inlining}
    (h : regions.emitRegion emit number names continuation inlining = .ok inlining')
    {position : Nat} {target : Label}
    (hnode : body.nodes[position]? = some (.operation (.branch (.jsr target))))
    (howner : regions.owner position = number) :
    ∃ names behind inlining inlining',
      emit (regions.callee target) names (some behind) inlining = .ok inlining' := by
  rcases hc.owned position (List.getElem?_eq_some_iff.1 hnode).1 with ⟨hstart, hstop⟩
  rw [howner] at hstart hstop
  have hmem : .operation (.branch (.jsr target)) ∈ regions.contents number := by
    rw [contents_eq hc (hc.region_stop_le number)]
    exact List.mem_filterMap.2 ⟨position, List.mem_range'_1.2 (by omega),
      hc.content?_eq_some.2 ⟨hnode, .inl howner⟩⟩
  unfold emitRegion at h
  rcases except_bind_ok.1 h with ⟨copied, hfold, _⟩
  rcases except_foldlM_step hfold hmem with ⟨before, after, hcall⟩
  change regions.emitCall emit names target before = .ok after at hcall
  unfold emitCall at hcall
  rcases except_bind_ok.1 hcall with ⟨callee, hcallee, hcall⟩
  rw [ownerOf_callee hc (List.mem_of_getElem? hnode)] at hcallee
  cases hcallee
  rcases except_bind_ok.1 hcall with ⟨inside, hemit, _⟩
  exact ⟨_, _, _, inside, hemit⟩

/-- A copy that does not fail has gone through all paths of calls. -/
theorem CallPath.length_le_of_emitToDepth (hc : regions.Cuts body) {calls : List Nat}
    (h : regions.CallPath body.nodes number calls) {depth : Nat} {names : Renaming}
    {continuation : Option Label} {inlining inlining' : Inlining}
    (hemit : regions.emitToDepth depth number names continuation inlining = .ok inlining') :
    calls.length ≤ depth := by
  induction h generalizing depth names continuation inlining inlining' with
  | nil => exact Nat.zero_le _
  | cons hnode howner _ ih =>
    cases depth with
    | zero =>
      -- at depth zero a call is a failure
      rcases exists_emit_of_callSite hc hemit hnode howner with ⟨_, _, _, _, hinside⟩
      cases hinside
    | succ depth =>
      rcases exists_emit_of_callSite hc hemit hnode howner with ⟨_, _, _, _, hinside⟩
      exact Nat.succ_le_succ (ih hinside)

end Regions

namespace Body

open Regions

variable {body : Body} {regions : Regions} {size : ExpandedSize}

/-- The copy of a body is as large as was found out before. -/
structure CopiedAt (body : Body) (regions : Regions) (size : ExpandedSize) (inlining : Inlining) :
    Prop where
  -- copying ends, and the result does not depend on how much deeper copies might be nested
  ends : ∀ depth, size.depth ≤ depth → regions.emitBody depth body.issued = .ok inlining
  -- copying fails where copies may not be nested as deep as was found
  nested : ∀ depth < size.depth, ∀ other, regions.emitBody depth body.issued ≠ .ok other
  -- the depth is the length of the longest paths of calls
  longest : IsGreatest {length | ∃ calls, regions.CallPath body.nodes outer calls ∧
    calls.length = length} size.depth
  -- there is a copy for each path of calls that is not empty
  copies : {calls | calls ≠ [] ∧ regions.CallPath body.nodes outer calls}.encard = inlining.copies
  -- operations are counted, though not beyond a certain number
  operations : min size.operations ExpandedSize.maxOperations =
    min (body.withCopy inlining).operationCount ExpandedSize.maxOperations

/-- A copy up to the depth that was worked out is the whole copy, and one level less would not do.
-/
theorem copiedAt_copyBody (hregions : body.regions = .ok regions)
    (hsize : regions.totalSize = .ok size) :
    body.CopiedAt regions size (regions.copyBody size.depth body.issued) := by
  rcases regions_ok hregions with ⟨hc, hk⟩
  rcases totalSize_tallies hc hsize with ⟨known, ht, hknown⟩
  rcases adds_copyBody hc size.depth body.issued with ⟨hcopies, hoperations⟩
  have hd := ht.descends
  constructor
  case ends =>
    intro depth hdepth
    unfold copyBody
    rw [copyToDepth_stable hd size.depth hknown (Nat.le_refl _) hdepth]
    exact emitToDepth_eq hc hk hd depth hc.some_region hknown hdepth _ fun hne => absurd rfl hne
  case nested =>
    intro depth hlt other hemit
    -- a chain of calls as long as the depth is there, so a deeper copy would be on a longer one
    rcases exists_callPath hc ht hknown with ⟨calls, hpath, hlength⟩
    have hle := hpath.length_le_of_emitToDepth hc hemit
    omega
  case longest =>
    constructor
    · exact exists_callPath hc ht hknown
    · rintro length ⟨calls, hpath, rfl⟩
      exact hpath.length_le hc hd hknown
  case copies =>
    rw [encard_callPaths hc hd hknown (Nat.le_succ _), hcopies]
  case operations =>
    rw [operations_copiedOperations ht (size.depth + 1) hknown (Nat.lt_succ_self _), ← hoperations]
    rfl

/-- The size that is worked out before anything is copied is that of the copy: copies are nested as
deep, there is one for each path of calls, and there are as many operations. So inlining fails
exactly where the inlined body would be beyond the limits. -/
theorem inline_size_exact (hsub : body.hasSubroutines) (hregions : body.regions = .ok regions)
    (hsize : regions.totalSize = .ok size) :
    ∃ inlining, body.CopiedAt regions size inlining ∧
      ((body.withCopy inlining).operationCount < ExpandedSize.maxOperations →
        size.operations = (body.withCopy inlining).operationCount ∧
        ∀ limits, body.inline limits =
          if limits.maxDepth < size.depth ∨
              limits.maxOperations < (body.withCopy inlining).operationCount then
            .error (.limitExceeded size.depth (body.withCopy inlining).operationCount)
          else
            .ok (inlining.copies, body.withCopy inlining)) := by
  have hcopied := copiedAt_copyBody hregions hsize
  refine ⟨_, hcopied, fun hcount => ?_⟩
  have hoperations : size.operations =
      (body.withCopy (regions.copyBody size.depth body.issued)).operationCount := by
    have hmin := hcopied.operations
    omega
  refine ⟨hoperations, fun limits => ?_⟩
  rw [← hoperations]
  exact inline_eq hsub hregions hsize limits

/-! ### Subroutines that are called twice, one by the other -/

/-- Calls a subroutine twice, which calls another one twice. -/
def nestedTwice : Body where
  maxStack := 1
  maxLocals := 3
  nodes :=
    [.operation (.branch (.jsr ⟨0⟩)), .operation (.branch (.jsr ⟨0⟩)),
      .operation (.branch .returnVoid), .label ⟨0⟩, .operation (.step (.store .reference 1)),
      .operation (.branch (.jsr ⟨1⟩)), .operation (.branch (.jsr ⟨1⟩)),
      .operation (.branch (.ret 1)), .label ⟨1⟩, .operation (.step (.store .reference 2)),
      .operation (.branch (.ret 2))]
  handlers := []
  localVariables := []
  variableTypes := []
  attributes := []
  issued := 2

/-- The regions of `nestedTwice`. -/
def nestedTwiceRegions : Regions where
  flow :=
    { nodes := nestedTwice.nodes.toArray
      positions := ((∅ : Std.HashMap Label Nat).insert ⟨0⟩ 3).insert ⟨1⟩ 8
      next := #[some 0, some 1, some 2, some 4, some 4, some 5, some 6, some 7, some 9, some 9,
        some 10, none]
      numbers := #[0, 1, 2, 3, 3, 4, 5, 6, 7, 7, 8, 9] }
  regions :=
    #[{ entry := none, start := 0, stop := 11 }, { entry := some ⟨0⟩, start := 3, stop := 8 },
      { entry := some ⟨1⟩, start := 8, stop := 11 }]
  owners := #[0, 0, 0, 1, 1, 1, 1, 1, 2, 2, 2]

theorem nestedTwice_regions : nestedTwice.regions = .ok nestedTwiceRegions := by
  have hpositions : nestedTwice.labelPositions = .ok nestedTwiceRegions.flow.positions := by
    simp [nestedTwice, nestedTwiceRegions, labelPositions, placeLabels, Node.label?]
  have hflow : nestedTwice.flow = .ok nestedTwiceRegions.flow := by
    unfold flow
    rw [hpositions]
    rfl
  have hcalled : nestedTwice.calledLabels = [⟨0⟩, ⟨0⟩, ⟨1⟩, ⟨1⟩] := rfl
  refine regions_of_scan hflow ?_ ?_ rfl rfl rfl rfl
  · intro label hmem
    have hlabel : label = ⟨0⟩ ∨ label = ⟨1⟩ := by simpa [hcalled] using hmem
    rcases hlabel with rfl | rfl
    · exact ⟨3, ((flow_describes hflow).position_ok _ _).2 rfl⟩
    · exact ⟨8, ((flow_describes hflow).position_ok _ _).2 rfl⟩
  · rw [hcalled]
    simp [nestedTwice, nestedTwiceRegions, RegionScan.add, RegionScan.pass, RegionScan.enter,
      RegionScan.leave, RegionScan.current, Regions.outer, Array.modify, Array.modifyM]

/-- The search goes down two levels. -/
theorem nestedTwice_totalSize : nestedTwiceRegions.totalSize = .ok ⟨2, 19⟩ := by
  have houter : (nestedTwiceRegions.callGraph.region 0).callees = [1, 1] := by
    have hcallee : nestedTwiceRegions.callee ⟨0⟩ = 1 := by
      simp [Regions.callee, nestedTwiceRegions, Regions.owner, Std.HashMap.getD_insert]
    have hcontents : nestedTwiceRegions.contents 0 =
        [.operation (.branch (.jsr ⟨0⟩)), .operation (.branch (.jsr ⟨0⟩)),
          .operation (.branch .returnVoid), .label ⟨0⟩, .label ⟨1⟩] := rfl
    simp [region_callGraph, Regions.callees, hcontents, hcallee]
  have hmiddle : (nestedTwiceRegions.callGraph.region 1).callees = [2, 2] := by
    have hcallee : nestedTwiceRegions.callee ⟨1⟩ = 2 := by
      simp [Regions.callee, nestedTwiceRegions, Regions.owner]
    have hcontents : nestedTwiceRegions.contents 1 =
        [.label ⟨0⟩, .operation (.step (.store .reference 1)), .operation (.branch (.jsr ⟨1⟩)),
          .operation (.branch (.jsr ⟨1⟩)), .operation (.branch (.ret 1))] := rfl
    simp [region_callGraph, Regions.callees, hcontents, hcallee]
  have hnone : (nestedTwiceRegions.callGraph.region 2).callees = [] := by
    rw [region_callGraph]
    rfl
  -- the innermost region calls nothing
  have hinner := @CallGraph.expandedSize_of_no_callee nestedTwiceRegions.callGraph 2
    (((∅ : KnownSizes).insert 0 none).insert 1 none) 1 (by simp) hnone
  have hcalled := @CallGraph.expandedSize_of_one_callee nestedTwiceRegions.callGraph 1 2 1
    ((∅ : KnownSizes).insert 0 none) _ _ 1 (by simp) hmiddle hinner
    Std.HashMap.getElem?_insert_self
  have htotal := @CallGraph.expandedSize_of_one_callee nestedTwiceRegions.callGraph 0 1 1 ∅ _ _ 2
    Std.HashMap.getElem?_empty houter hcalled Std.HashMap.getElem?_insert_self
  unfold CallGraph.tally at htotal
  simp only [region_callGraph] at htotal
  exact totalSize_ok.2 ⟨_, htotal⟩

/-- Copies of `nestedTwice` are nested two levels deep, and there are 19 operations. -/
theorem nestedTwice_size_exact : nestedTwice.hasSubroutines ∧
    nestedTwice.regions = .ok nestedTwiceRegions ∧ nestedTwiceRegions.totalSize = .ok ⟨2, 19⟩ ∧
    ∃ inlining, nestedTwice.CopiedAt nestedTwiceRegions ⟨2, 19⟩ inlining ∧
      (nestedTwice.withCopy inlining).operationCount = 19 ∧
      nestedTwice.inline ⟨2, 19⟩ = .ok (inlining.copies, nestedTwice.withCopy inlining) ∧
      nestedTwice.inline ⟨1, 19⟩ = .error (.limitExceeded 2 19) ∧
      nestedTwice.inline ⟨2, 18⟩ = .error (.limitExceeded 2 19) := by
  refine ⟨rfl, nestedTwice_regions, nestedTwice_totalSize, ?_⟩
  rcases inline_size_exact rfl nestedTwice_regions nestedTwice_totalSize with
    ⟨inlining, hcopied, hlimits⟩
  have hcount : (nestedTwice.withCopy inlining).operationCount = 19 := by
    have hmin := hcopied.operations
    have hmax : ExpandedSize.maxOperations = 18446744073709551615 := rfl
    simp only at hmin
    omega
  have hsmall : (19 : Nat) < ExpandedSize.maxOperations := by decide
  rw [hcount] at hlimits
  rcases hlimits hsmall with ⟨_, hinline⟩
  exact ⟨inlining, hcopied, hcount, hinline _, hinline _, hinline _⟩

end Body

end Preverification

import Preverification.Proofs.CallDepth

/-!
# Copies that do not fail

A copy could fail at a call of a label that is nowhere placed, at a return in the outer region, or
where a chain of calls is too long. There is none of these in a body whose regions and sizes were
found. So its regions are copied by functions that do not fail, which are simpler to reason about.

* `Regions.contents_eq`: what is in a region, looked up position by position.
* `Regions.emitNode_eq`, `Regions.emitRegion_eq`, `Regions.emitToDepth_eq`: copies do not fail.
* `Regions.emitBody_eq`: the copy of a body is that of functions that do not fail.
-/

namespace Preverification

/-- A way to copy a subroutine: by its number, the labels around it, and the place behind the call.
-/
abbrev CopySubroutine := Nat → Renaming → Label → Inlining → Inlining

namespace Regions

variable {regions : Regions} {body : Body}

/-! ### Copying without failures -/

/-- Replaces a call by a copy. -/
def copyCall (regions : Regions) (copy : CopySubroutine) (names : Renaming) (target : Label)
    (inlining : Inlining) : Inlining :=
  let callee := regions.callee target
  let (labels, inlining) := inlining.freshFor (regions.labels callee)
  let (behind, inlining) := inlining.fresh
  let inlining := { inlining with copies := inlining.copies + 1 }
  let inlining := inlining.push (.operation (.step .nullConst))
  (copy callee (labels :: names) behind inlining).push (.label behind)

/-- Copies a node. Returns lead to `continuation`. -/
def copyNode (regions : Regions) (copy : CopySubroutine) (names : Renaming)
    (continuation : Label) (inlining : Inlining) : Node → Inlining
  | .label label => inlining.push (.label (names.apply label))
  | .operation (.branch (.jsr target)) => regions.copyCall copy names target inlining
  | .operation (.branch (.ret _)) => inlining.push (.operation (.branch (.goto continuation)))
  | .operation (.branch b) => inlining.push (.operation (.branch (b.map names.apply)))
  | node => inlining.push node

/-- Copies a region, whose calls are replaced by `copy`. -/
def copyRegion (regions : Regions) (copy : CopySubroutine) : CopySubroutine :=
  fun number names continuation inlining =>
    regions.copyRanges number names
      ((regions.contents number).foldl (regions.copyNode copy names continuation) inlining)

/-- Copies a region in which chains of calls are not longer than `depth`. -/
def copyToDepth (regions : Regions) : (depth : Nat) → CopySubroutine
  | 0 => regions.copyRegion fun _ _ _ inlining => inlining
  | depth + 1 => regions.copyRegion (regions.copyToDepth depth)

/-- Copies the outer region, in which there are no returns. -/
def copyBody (regions : Regions) (depth issued : Nat) : Inlining :=
  regions.copyToDepth depth outer [] default
    { nodes := #[], handlers := #[], localVariables := #[], variableTypes := #[],
      issued, copies := 0 }

/-! ### What a region contains -/

/-- The node at a position, if a copy of a region contains it. -/
def content? (regions : Regions) (number position : Nat) : Option Node :=
  regions.flow.nodes[position]?.bind fun node =>
    if regions.owner position = number || node.label?.isSome then some node else none

/-- The positions of a region, one after the other. -/
def span (regions : Regions) (number : Nat) : List Nat :=
  List.range' (regions.region number).start
    ((regions.region number).stop - (regions.region number).start)

/-- Two lists of the same length, looked up from a position on. -/
theorem zip_drop_take {α β : Type} (l : List α) (l' : List β) (default : β)
    (hlength : l.length = l'.length) (count position : Nat) (h : position + count ≤ l.length) :
    ((l.drop position).take count).zip ((l'.drop position).take count) =
      (List.range' position count).filterMap fun position =>
        l[position]?.map fun a => (a, l'.getD position default) := by
  induction count generalizing position with
  | zero => rfl
  | succ count ih =>
    have hlt : position < l.length := by omega
    have hlt' : position < l'.length := by omega
    -- one element of both lists at a time
    have hd : l'.getD position default = l'[position] := by simp [List.getD, hlt']
    rw [List.drop_eq_getElem_cons hlt, List.drop_eq_getElem_cons hlt', List.take_succ_cons,
      List.take_succ_cons, List.zip_cons_cons, ih (position + 1) (by omega), List.range'_succ,
      List.filterMap_cons]
    simp only [List.getElem?_eq_getElem hlt, Option.map_some, hd]

/-- What a region contains is found position by position. -/
theorem contents_eq (hc : regions.Cuts body) {number : Nat}
    (hstop : (regions.region number).stop ≤ body.nodes.length) :
    regions.contents number = (regions.span number).filterMap (regions.content? number) := by
  have hnodes := hc.flow.nodes_eq
  have hsize := hc.size
  have hzip : (regions.flow.nodes.extract (regions.region number).start
        (regions.region number).stop).toList.zip
      (regions.owners.extract (regions.region number).start
        (regions.region number).stop).toList =
      (regions.span number).filterMap fun position =>
        regions.flow.nodes[position]?.map fun node => (node, regions.owner position) := by
    -- regions are looked up like elements of a list
    have howner : ∀ position, regions.owner position =
        regions.owners.toList.getD position outer := by
      intro position
      unfold owner
      rw [Array.getD_eq_getD_getElem?, List.getD_eq_getElem?_getD, Array.getElem?_toList]
    unfold span
    simp only [hnodes, Array.toList_extract, List.extract_eq_take_drop, List.getElem?_toArray,
      howner]
    rcases Nat.eq_zero_or_pos ((regions.region number).stop - (regions.region number).start) with
      hzero | hpos
    · rw [hzero]
      rfl
    · exact zip_drop_take _ _ outer (by simpa using hsize.symm) _ _ (by omega)
  unfold contents
  dsimp only
  rw [hzip, List.filterMap_filterMap]
  refine List.filterMap_congr ?_
  intro position _
  unfold content?
  cases regions.flow.nodes[position]? <;> rfl

/-- A region ends with the body at the latest. -/
theorem Cuts.stop_le (hc : regions.Cuts body) {number : Nat}
    (hlt : number < regions.regions.size) : (regions.region number).stop ≤ body.nodes.length := by
  by_cases houter : number = outer
  · rw [houter, hc.whole.2]
  · rcases hc.ended number houter hlt with ⟨position, node, hstop, hnode, _⟩
    rw [hstop]
    exact (List.getElem?_eq_some_iff.1 hnode).1

/-- A copy of a region contains the nodes at its own positions, and all labels in its range. -/
theorem Cuts.content?_eq_some (hc : regions.Cuts body) {number position : Nat}
    {node : Node} : regions.content? number position = some node ↔
      body.nodes[position]? = some node ∧
        (regions.owner position = number ∨ node.label?.isSome) := by
  unfold content?
  rw [hc.flow.nodes_eq, List.getElem?_toArray, Option.bind_eq_some_iff]
  constructor
  · rintro ⟨found, hfound, hnode⟩
    split at hnode
    · rename_i hin
      cases hnode
      exact ⟨hfound, by simpa using hin⟩
    · cases hnode
  · rintro ⟨hnode, hin⟩
    exact ⟨node, hnode, if_pos (by simpa using hin)⟩

/-- What is in a region is in the body, and belongs to the region if it is no label. -/
theorem Cuts.mem_contents (hc : regions.Cuts body) {number : Nat}
    (hlt : number < regions.regions.size) {node : Node} (h : node ∈ regions.contents number) :
    ∃ position : Nat, body.nodes[position]? = some node ∧
      (regions.owner position = number ∨ node.label?.isSome) := by
  rw [contents_eq hc (hc.stop_le hlt)] at h
  obtain ⟨position, -, hposition⟩ := List.mem_filterMap.1 h
  exact ⟨position, hc.content?_eq_some.1 hposition⟩

/-! ### Copying does not fail -/

/-- A label that is called is in the region of the subroutine. -/
theorem ownerOf_callee (hc : regions.Cuts body) {target : Label} (h : body.Calls target) :
    regions.ownerOf target = .ok (regions.callee target) := by
  obtain ⟨place, hplace⟩ := hc.placed target h
  exact (ownerOf_ok hc).2 ⟨place, hplace, (callee_eq hc hplace).symm⟩

/-- The copy of a node does not fail, if that of a subroutine that it calls does not, and if a
return has somewhere to go to. -/
theorem emitNode_eq {emit : EmitSubroutine} {copy : CopySubroutine} {names : Renaming}
    {continuation : Option Label} {node : Node} (inlining : Inlining)
    (hcall : ∀ target, node = .operation (.branch (.jsr target)) →
      regions.ownerOf target = .ok (regions.callee target) ∧ ∀ names behind inlining,
        emit (regions.callee target) names (some behind) inlining =
          .ok (copy (regions.callee target) names behind inlining))
    (hreturn : node.isReturn = true → continuation.isSome = true) :
    regions.emitNode emit names continuation inlining node =
      .ok (regions.copyNode copy names (continuation.getD default) inlining node) := by
  cases node with
  | label _ | line _ => rfl
  | operation operation =>
    cases operation with
    | step _ => rfl
    | branch b =>
      cases b with
      | jsr target =>
        obtain ⟨howner, hemit⟩ := hcall target rfl
        change regions.emitCall emit names target inlining = _
        unfold emitCall
        rw [howner]
        dsimp only [bind, Except.bind]
        rw [hemit]
        rfl
      | ret slot =>
        obtain ⟨behind, rfl⟩ := Option.isSome_iff_exists.1 (hreturn rfl)
        rfl
      | _ => rfl

/-- The copy of a region does not fail, if those of subroutines that it calls do not. -/
theorem emitRegion_eq (hc : regions.Cuts body) (hk : regions.Checked body) {emit : EmitSubroutine}
    {copy : CopySubroutine} {number : Nat} {names : Renaming} {continuation : Option Label}
    (inlining : Inlining) (hlt : number < regions.regions.size)
    (hcopy : ∀ callee ∈ regions.callees number, ∀ names behind inlining,
      emit callee names (some behind) inlining = .ok (copy callee names behind inlining))
    (hcontinuation : number ≠ outer → continuation.isSome = true) :
    regions.emitRegion emit number names continuation inlining =
      .ok (regions.copyRegion copy number names (continuation.getD default) inlining) := by
  have hnode : ∀ node ∈ regions.contents number, ∀ inlining,
      regions.emitNode emit names continuation inlining node =
        .ok (regions.copyNode copy names (continuation.getD default) inlining node) := by
    intro node hmem inlining
    obtain ⟨position, hposition, hhome⟩ := hc.mem_contents hlt hmem
    refine emitNode_eq inlining ?_ fun hreturn => hcontinuation ?_
    · rintro target rfl
      exact ⟨ownerOf_callee hc (List.mem_of_getElem? hposition),
        hcopy _ (List.mem_filterMap.2 ⟨_, hmem, rfl⟩)⟩
    · -- there is no return in the outer region
      rintro rfl
      obtain ⟨slot, rfl⟩ := Node.isReturn_iff.1 hreturn
      exact hk.returns position slot hposition (hhome.resolve_right (by simp [Node.label?]))
  have hfold : (regions.contents number).foldlM (regions.emitNode emit names continuation) inlining =
      .ok ((regions.contents number).foldl
        (regions.copyNode copy names (continuation.getD default)) inlining) :=
    except_foldlM_eq fun inlining node hmem => hnode node hmem inlining
  unfold emitRegion
  rw [hfold]
  rfl

/-- Copies up to the depth of a region do not fail. -/
theorem emitToDepth_eq (hc : regions.Cuts body) (hk : regions.Checked body) {known : KnownSizes}
    (hd : regions.callGraph.Descends known) (depth : Nat) {number : Nat} {size : ExpandedSize}
    (hlt : number < regions.regions.size) (hsize : known[number]? = some (some size))
    (hdepth : size.depth ≤ depth) {names : Renaming} {continuation : Option Label}
    (inlining : Inlining) (hcontinuation : number ≠ outer → continuation.isSome = true) :
    regions.emitToDepth depth number names continuation inlining =
      .ok (regions.copyToDepth depth number names (continuation.getD default) inlining) := by
  induction depth generalizing number size names continuation inlining with
  | zero =>
    -- at depth zero nothing is called
    refine emitRegion_eq hc hk inlining hlt (fun callee hmem => ?_) hcontinuation
    obtain ⟨lower, -, hlower⟩ := descends_callGraph hd hsize hmem
    omega
  | succ depth ih =>
    -- what is called has a lower depth
    refine emitRegion_eq hc hk inlining hlt (fun callee hmem names behind inlining => ?_)
      hcontinuation
    obtain ⟨lower, hlower, hlt'⟩ := descends_callGraph hd hsize hmem
    exact ih (callee_lt hc hmem) hlower (by omega) inlining fun _ => rfl

/-- The copy of a body does not fail, when its regions and sizes are known. -/
theorem emitBody_eq (hregions : body.regions = .ok regions) {size : ExpandedSize}
    (hsize : regions.totalSize = .ok size) (issued : Nat) :
    regions.emitBody size.depth issued = .ok (regions.copyBody size.depth issued) := by
  obtain ⟨hc, hk⟩ := Body.regions_ok hregions
  obtain ⟨known, hd, hknown⟩ := totalSize_descends hc hsize
  exact emitToDepth_eq hc hk hd size.depth hc.some_region hknown (Nat.le_refl _) _
    fun hne => absurd rfl hne

end Regions

end Preverification

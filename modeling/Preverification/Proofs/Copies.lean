import Preverification.Proofs.TotalCopies

/-!
# What a copy of a region looks like

A copy of a region stands where the nodes of the region are looked up one after the other. Each node
has its own place in the copy; a call takes up more room, for there is the copy of the subroutine,
and a label behind it. What stands at the place of a node is said for copies up to a depth of calls.

* `Inlining.Extends`: copying only adds nodes.
* `Regions.copyNode_copied`, `Regions.copyRegion_copied`: what stands where a node or a region was
  copied.
* `Regions.copyToDepth_copied`: a copy up to the depth of a region has copies of all that is called.
* `Regions.copyBody_copied`: what the copy of a whole body looks like.
-/

namespace Preverification

namespace Inlining

/-- Nodes and labels are only added. -/
structure Extends (old new : Inlining) : Prop where
  nodes : old.nodes.toList <+: new.nodes.toList
  issued : old.issued ≤ new.issued

variable {old middle new : Inlining}

theorem Extends.refl (inlining : Inlining) : Extends inlining inlining :=
  ⟨List.prefix_rfl, Nat.le_refl _⟩

theorem Extends.trans (h : Extends old middle) (h' : Extends middle new) : Extends old new :=
  ⟨h.nodes.trans h'.nodes, Nat.le_trans h.issued h'.issued⟩

/-- A node is added at the end. -/
theorem extends_push (node : Node) (inlining : Inlining) :
    Extends inlining (inlining.push node) :=
  ⟨by simp [push], Nat.le_refl _⟩

/-- In front of a copy there is a null. Labels are handed out for the copy, and one for the place
behind it. -/
def called (count : Nat) (inlining : Inlining) : Inlining :=
  { inlining with
    nodes := inlining.nodes.push (.operation (.step .nullConst))
    issued := inlining.issued + count + 1
    copies := inlining.copies + 1 }

theorem extends_called (count : Nat) (inlining : Inlining) :
    Extends inlining (inlining.called count) :=
  ⟨by simp [called], Nat.le_succ_of_le (Nat.le_add_right _ _)⟩

/-- Nothing has been copied yet. -/
def nothing (issued : Nat) : Inlining where
  nodes := #[]
  handlers := #[]
  localVariables := #[]
  variableTypes := #[]
  issued := issued
  copies := 0

end Inlining

namespace Regions

variable {regions : Regions}

/-- Copies what is at a position, if a copy of a region contains it. -/
def copyAt (regions : Regions) (copy : CopySubroutine) (number : Nat) (names : Renaming)
    (continuation : Label) (inlining : Inlining) (position : Nat) : Inlining :=
  match regions.content? number position with
  | some node => regions.copyNode copy names continuation inlining node
  | none => inlining

/-- A region contains nothing from a position, a call, or another node. -/
theorem content?_cases (regions : Regions) (number position : Nat) :
    regions.content? number position = none ∨
      (∃ target, regions.content? number position = some (.operation (.branch (.jsr target)))) ∨
      ∃ node, regions.content? number position = some node ∧
        ∀ target, node ≠ .operation (.branch (.jsr target)) := by
  rcases hcontent : regions.content? number position with _ | node
  · exact .inl rfl
  · by_cases hcall : ∃ target, node = .operation (.branch (.jsr target))
    · obtain ⟨target, rfl⟩ := hcall
      exact .inr (.inl ⟨target, rfl⟩)
    · exact .inr (.inr ⟨node, rfl, fun target heq => hcall ⟨target, heq⟩⟩)

/-- Where the region contains nothing, nothing is copied. -/
theorem copyAt_of_none {number position : Nat} (h : regions.content? number position = none)
    (copy : CopySubroutine) (names : Renaming) (continuation : Label) (inlining : Inlining) :
    regions.copyAt copy number names continuation inlining position = inlining := by
  unfold copyAt
  rw [h]

/-- A position of the region has its node copied. -/
theorem copyAt_of_some {number position : Nat} {node : Node}
    (h : regions.content? number position = some node) (copy : CopySubroutine) (names : Renaming)
    (continuation : Label) (inlining : Inlining) :
    regions.copyAt copy number names continuation inlining position =
      regions.copyNode copy names continuation inlining node := by
  unfold copyAt
  rw [h]

/-- A region is copied by going through its positions, and then its handlers and ranges follow. -/
theorem copyRegion_eq {body : Body} (hc : regions.Cuts body) {number : Nat}
    (hstop : (regions.region number).stop ≤ body.nodes.length) (copy : CopySubroutine)
    (names : Renaming) (continuation : Label) (inlining : Inlining) :
    regions.copyRegion copy number names continuation inlining =
      regions.copyRanges number names
        ((regions.span number).foldl (regions.copyAt copy number names continuation) inlining) := by
  unfold copyRegion
  rw [contents_eq hc hstop, List.foldl_filterMap]
  congr 2
  funext inlining position
  unfold copyAt
  cases regions.content? number position <;> rfl

/-- The labels of a copy, which are handed out from a number on. -/
def freshLabels (regions : Regions) (number issued : Nat) : Std.HashMap Label Label :=
  .ofList ((regions.labels number).zipIdx.map fun (label, index) => (label, ⟨issued + index⟩))

/-- A call is copied as a copy of what is called, with fresh labels, and with the label behind it.
-/
theorem copyCall_eq (copy : CopySubroutine) (names : Renaming) (target : Label)
    (inlining : Inlining) :
    regions.copyCall copy names target inlining =
      (copy (regions.callee target)
        (regions.freshLabels (regions.callee target) inlining.issued :: names)
        ⟨inlining.issued + (regions.labels (regions.callee target)).length⟩
        (inlining.called (regions.labels (regions.callee target)).length)).push
          (.label ⟨inlining.issued + (regions.labels (regions.callee target)).length⟩) := rfl

/-- For the ends of ranges nothing is added, or a fresh label is placed. -/
theorem copyStops_cases (regions : Regions) (number : Nat) (names : Renaming) (inlining : Inlining) :
    (regions.copyStops number names inlining).2 = inlining ∨
      (regions.copyStops number names inlining).2 =
        inlining.fresh.2.push (.label ⟨inlining.issued⟩) := by
  unfold copyStops
  split
  · exact .inl rfl
  · split
    · exact .inl rfl
    · exact .inr rfl

/-! ### Copying only adds nodes -/

/-- Copies of subroutines only add nodes. -/
def OnlyAdds (copy : CopySubroutine) : Prop :=
  ∀ number names continuation inlining,
    Inlining.Extends inlining (copy number names continuation inlining)

section OnlyAdds

variable {copy : CopySubroutine}

/-- A copy of a call only adds nodes if copies of subroutines do. -/
theorem extends_copyCall (hcopy : OnlyAdds copy) (names : Renaming) (target : Label)
    (inlining : Inlining) :
    Inlining.Extends inlining (regions.copyCall copy names target inlining) := by
  rw [copyCall_eq]
  exact (Inlining.extends_called _ inlining).trans
    ((hcopy _ _ _ _).trans (Inlining.extends_push _ _))

/-- The copy of a node adds one node, or all that a call adds. -/
theorem extends_copyNode (hcopy : OnlyAdds copy) (names : Renaming) (continuation : Label)
    (inlining : Inlining) (node : Node) :
    Inlining.Extends inlining (regions.copyNode copy names continuation inlining node) := by
  unfold copyNode
  split
  · exact Inlining.extends_push _ _
  · exact extends_copyCall hcopy names _ inlining
  · exact Inlining.extends_push _ _
  · exact Inlining.extends_push _ _
  · exact Inlining.extends_push _ _

/-- What is copied for a position only adds nodes. -/
theorem extends_copyAt (hcopy : OnlyAdds copy) (number : Nat) (names : Renaming)
    (continuation : Label) (inlining : Inlining) (position : Nat) :
    Inlining.Extends inlining
      (regions.copyAt copy number names continuation inlining position) := by
  unfold copyAt
  split
  · exact extends_copyNode hcopy names continuation inlining _
  · exact .refl inlining

/-- Steps that only add nodes do so one after the other. -/
theorem extends_foldl {α : Type} {step : Inlining → α → Inlining}
    (hstep : ∀ inlining a, Inlining.Extends inlining (step inlining a)) (l : List α)
    (inlining : Inlining) : Inlining.Extends inlining (l.foldl step inlining) := by
  induction l generalizing inlining with
  | nil => exact .refl inlining
  | cons a l ih => exact (hstep inlining a).trans (ih (step inlining a))

/-- Labels for the ends of ranges are added, too. -/
theorem extends_copyStops (number : Nat) (names : Renaming) (inlining : Inlining) :
    Inlining.Extends inlining (regions.copyStops number names inlining).2 := by
  rcases copyStops_cases regions number names inlining with heq | heq
  · rw [heq]
    exact .refl inlining
  · rw [heq]
    exact ⟨by simp [Inlining.fresh, Inlining.push], Nat.le_succ _⟩

theorem extends_copyRanges (number : Nat) (names : Renaming) (inlining : Inlining) :
    Inlining.Extends inlining (regions.copyRanges number names inlining) :=
  (extends_copyStops number names inlining).trans ⟨List.prefix_rfl, Nat.le_refl _⟩

/-- Regions only add nodes if their calls do. -/
theorem onlyAdds_copyRegion (hcopy : OnlyAdds copy) : OnlyAdds (regions.copyRegion copy) := by
  intro number names continuation inlining
  exact (extends_foldl (extends_copyNode hcopy names continuation) _ inlining).trans
    (extends_copyRanges number names _)

/-- Copies up to any depth only add nodes. -/
theorem onlyAdds_copyToDepth (depth : Nat) : OnlyAdds (regions.copyToDepth depth) := by
  induction depth with
  | zero => exact onlyAdds_copyRegion fun _ _ _ inlining => .refl inlining
  | succ depth ih => exact onlyAdds_copyRegion ih

end OnlyAdds

/-! ### What stands where -/

/-- What a copy of a subroutine looks like: by its number, the labels around it, the place behind
the call, and the places of its nodes. -/
abbrev CopyShape := Nat → Renaming → Label → (Nat → Nat) → Prop

/-- The copy of a node among some nodes, from a place up to another one. -/
def CopiedNode (regions : Regions) (nodes : List Node) (shape : CopyShape) (names : Renaming)
    (continuation : Label) (node : Node) (place behind : Nat) : Prop :=
  match node with
  | .label label => nodes[place]? = some (.label (names.apply label)) ∧ behind = place + 1
  | .operation (.branch (.jsr target)) =>
    nodes[place]? = some (.operation (.step .nullConst)) ∧
      ∃ labels last places, shape (regions.callee target) (labels :: names) last places ∧
        places (regions.region (regions.callee target)).start = place + 1 ∧
        (∀ label, label ∉ regions.labels (regions.callee target) → labels[label]? = none) ∧
        ∃ stop, nodes[stop]? = some (.label last) ∧ behind = stop + 1
  | .operation (.branch (.ret _)) =>
    nodes[place]? = some (.operation (.branch (.goto continuation))) ∧ behind = place + 1
  | .operation (.branch b) =>
    nodes[place]? = some (.operation (.branch (b.map names.apply))) ∧ behind = place + 1
  | node => nodes[place]? = some node ∧ behind = place + 1

/-- A copy of a region in which there are copies of a certain shape. -/
def CopiedRegion (regions : Regions) (nodes : List Node) (shape : CopyShape) : CopyShape :=
  fun number names continuation places =>
    ∀ position node, (regions.region number).start ≤ position →
      position < (regions.region number).stop → regions.content? number position = some node →
      regions.CopiedNode nodes shape names continuation node (places position)
        (places (position + 1))

/-- A copy of a region in which chains of calls are not longer than a depth. -/
def CopiedToDepth (regions : Regions) (nodes : List Node) : Nat → CopyShape
  | 0 => regions.CopiedRegion nodes fun _ _ _ _ => False
  | depth + 1 => regions.CopiedRegion nodes (regions.CopiedToDepth nodes depth)

/-- The labels of a region are those that are placed in its range. -/
theorem Cuts.mem_labels {body : Body} (hc : regions.Cuts body) {number : Nat}
    (hlt : number < regions.regions.size) {label : Label} : label ∈ regions.labels number ↔
      ∃ position, (regions.region number).start ≤ position ∧
        position < (regions.region number).stop ∧
        body.nodes[position]? = some (.label label) := by
  unfold labels
  rw [contents_eq hc (hc.stop_le hlt)]
  constructor
  · intro hmem
    rcases List.mem_filterMap.1 hmem with ⟨node, hnode, hlabel⟩
    rcases List.mem_filterMap.1 hnode with ⟨position, hposition, hcontent⟩
    have hrange := List.mem_range'_1.1 hposition
    cases node with
    | label =>
      cases hlabel
      exact ⟨position, hrange.1, by omega, (hc.content?_eq_some.1 hcontent).1⟩
    | line | operation => cases hlabel
  · rintro ⟨position, hstart, hstop, hnode⟩
    refine List.mem_filterMap.2 ⟨.label label, List.mem_filterMap.2 ⟨position, ?_, ?_⟩, rfl⟩
    · exact List.mem_range'_1.2 (by omega)
    · exact hc.content?_eq_some.2 ⟨hnode, .inr rfl⟩

/-- No subroutine has a label of the outer region. -/
theorem Cuts.not_mem_labels_of_outer {body : Body} (hc : regions.Cuts body) {number place : Nat}
    {label : Label} (hne : number ≠ outer) (hlt : number < regions.regions.size)
    (hplace : body.nodes[place]? = some (.label label)) (howner : regions.owner place = outer) :
    label ∉ regions.labels number := by
  intro hmem
  obtain ⟨found, hstart, hstop, hfound⟩ := (hc.mem_labels hlt).1 hmem
  obtain rfl := hc.flow.label_unique hplace hfound
  have hle := hc.inside number hne hlt place hstart hstop
  rw [howner] at hle
  exact hne (Nat.le_zero.1 hle)

/-- A node that was added stands where the nodes that were there before end. -/
theorem getElem?_of_push {nodes : List Node} {inlining : Inlining} {node : Node}
    (h : (inlining.push node).nodes.toList <+: nodes) :
    nodes[inlining.nodes.size]? = some node := by
  have hlt : inlining.nodes.size < (inlining.push node).nodes.toList.length := by
    simp [Inlining.push]
  rw [List.prefix_iff_getElem?.1 h _ hlt]
  simp [Inlining.push]

/-- A label that the innermost copy does not have is called as around the copy. -/
theorem apply_cons_of_none {labels : Std.HashMap Label Label} {label : Label}
    (h : labels[label]? = none) (names : Renaming) :
    Renaming.apply (labels :: names) label = names.apply label := by
  unfold Renaming.apply
  rw [List.findSome?_cons, h]

/-- Only labels of the region are called anew. -/
theorem getElem?_freshLabels_eq_none {number issued : Nat} {label : Label}
    (h : label ∉ regions.labels number) : (regions.freshLabels number issued)[label]? = none := by
  unfold freshLabels
  rw [Std.HashMap.getElem?_ofList_of_contains_eq_false]
  rw [List.map_map, ← Bool.not_eq_true, List.contains_iff_mem, List.mem_map]
  rintro ⟨⟨found, index⟩, hmem, rfl⟩
  exact h (List.fst_mem_of_mem_zipIdx hmem)

/-- A copy of a node stands behind the nodes that were there before. -/
theorem copyNode_copied {nodes : List Node} {copy : CopySubroutine} {shape : CopyShape}
    {names : Renaming} {continuation : Label} {inlining : Inlining} {node : Node}
    (honly : OnlyAdds copy)
    (hcopy : ∀ target, node = .operation (.branch (.jsr target)) →
      ∀ names continuation inlining,
        (copy (regions.callee target) names continuation inlining).nodes.toList <+: nodes →
          ∃ places, shape (regions.callee target) names continuation places ∧
            places (regions.region (regions.callee target)).start = inlining.nodes.size)
    (h : (regions.copyNode copy names continuation inlining node).nodes.toList <+: nodes) :
    regions.CopiedNode nodes shape names continuation node inlining.nodes.size
      (regions.copyNode copy names continuation inlining node).nodes.size := by
  have hpush : ∀ copied : Node,
      (inlining.push copied).nodes.size = inlining.nodes.size + 1 := fun copied => by
    simp [Inlining.push]
  cases node with
  | label label => exact ⟨getElem?_of_push h, hpush _⟩
  | line number => exact ⟨getElem?_of_push h, hpush _⟩
  | operation operation =>
    cases operation with
    | step instruction => exact ⟨getElem?_of_push h, hpush _⟩
    | branch b =>
      cases b with
      | jsr target =>
        change (regions.copyCall copy names target inlining).nodes.toList <+: nodes at h
        change regions.CopiedNode nodes shape names continuation _ _
          (regions.copyCall copy names target inlining).nodes.size
        -- a null, the copy of the subroutine, and the label behind it
        rw [copyCall_eq] at h ⊢
        set count := (regions.labels (regions.callee target)).length with hcount
        have hinner := (Inlining.extends_push _ _).nodes.trans h
        rcases hcopy target rfl _ _ _ hinner with ⟨places, hplaces, hstart⟩
        have hnull : (inlining.push (.operation (.step .nullConst))).nodes.toList <+: nodes :=
          (honly _ _ _ (inlining.called count)).nodes.trans hinner
        refine ⟨getElem?_of_push hnull, _, _, places, hplaces, hstart.trans (by
          simp [Inlining.called]), fun label => getElem?_freshLabels_eq_none, _,
          getElem?_of_push h, by simp [Inlining.push]⟩
      | _ => exact ⟨getElem?_of_push h, hpush _⟩

/-- The number of nodes in front of the copy of a node, while a region is copied. -/
def copyPlaces (regions : Regions) (copy : CopySubroutine) (number : Nat) (names : Renaming)
    (continuation : Label) (inlining : Inlining) (position : Nat) : Nat :=
  ((List.range' (regions.region number).start
      (position - (regions.region number).start)).foldl
    (regions.copyAt copy number names continuation) inlining).nodes.size

/-- The first node of a copy stands behind what was there before. -/
theorem copyPlaces_start (copy : CopySubroutine) (number : Nat) (names : Renaming)
    (continuation : Label) (inlining : Inlining) :
    regions.copyPlaces copy number names continuation inlining (regions.region number).start =
      inlining.nodes.size := by
  unfold copyPlaces
  rw [Nat.sub_self]
  rfl

/-- Behind a copy of the outer region there is nothing. -/
theorem copyPlaces_stop {body : Body} (hc : regions.Cuts body) (copy : CopySubroutine)
    (continuation : Label) (inlining : Inlining) :
    regions.copyPlaces copy outer [] continuation inlining (regions.region outer).stop =
      (regions.copyRegion copy outer [] continuation inlining).nodes.size := by
  rw [copyRegion_eq hc (hc.stop_le hc.some_region)]
  rfl

/-- A copy of a region has a copy of each node. -/
theorem copyRegion_copied {body : Body} (hc : regions.Cuts body) {nodes : List Node}
    {copy : CopySubroutine} {shape : CopyShape} (honly : OnlyAdds copy) {number : Nat}
    (hlt : number < regions.regions.size)
    (hcopy : ∀ callee ∈ regions.callees number, ∀ names continuation inlining,
      (copy callee names continuation inlining).nodes.toList <+: nodes →
        ∃ places, shape callee names continuation places ∧
          places (regions.region callee).start = inlining.nodes.size)
    {names : Renaming} {continuation : Label} {inlining : Inlining}
    (h : (regions.copyRegion copy number names continuation inlining).nodes.toList <+: nodes) :
    regions.CopiedRegion nodes shape number names continuation
      (regions.copyPlaces copy number names continuation inlining) := by
  intro position node hstart hstop hcontent
  have hmem : node ∈ regions.contents number := by
    rw [contents_eq hc (hc.stop_le hlt)]
    exact List.mem_filterMap.2 ⟨position, List.mem_range'_1.2 (by omega), hcontent⟩
  -- the copy of the node follows on those of the earlier ones
  have hfold : (List.range' (regions.region number).start
        (position + 1 - (regions.region number).start)).foldl
          (regions.copyAt copy number names continuation) inlining =
      regions.copyNode copy names continuation
        ((List.range' (regions.region number).start
          (position - (regions.region number).start)).foldl
            (regions.copyAt copy number names continuation) inlining) node := by
    rw [Nat.succ_sub hstart, List.range'_1_concat, List.foldl_append,
      Nat.add_sub_cancel' hstart, List.foldl_cons, List.foldl_nil, copyAt, hcontent]
  -- and later ones follow on it
  have hspan : regions.span number =
      List.range' (regions.region number).start (position + 1 - (regions.region number).start) ++
        List.range' (position + 1) ((regions.region number).stop - (position + 1)) := by
    have happend := @List.range'_append_1 (regions.region number).start
      (position + 1 - (regions.region number).start)
      ((regions.region number).stop - (position + 1))
    rw [Nat.add_sub_cancel' (Nat.le_succ_of_le hstart)] at happend
    rw [happend]
    unfold span
    congr 1
    omega
  have hstep : regions.copyPlaces copy number names continuation inlining (position + 1) =
      (regions.copyNode copy names continuation
        ((List.range' (regions.region number).start
          (position - (regions.region number).start)).foldl
            (regions.copyAt copy number names continuation) inlining) node).nodes.size := by
    unfold copyPlaces
    rw [hfold]
  rw [hstep]
  refine copyNode_copied honly ?_ ?_
  · rintro target rfl
    exact hcopy _ (List.mem_filterMap.2 ⟨_, hmem, rfl⟩)
  · -- what comes behind the node is only added
    refine .trans ?_ h
    rw [copyRegion_eq hc (hc.stop_le hlt)]
    refine .trans ?_ (extends_copyRanges number names _).nodes
    rw [hspan, List.foldl_append, hfold]
    exact (extends_foldl (extends_copyAt honly number names continuation) _ _).nodes

/-- The way in which called subroutines are copied inside of a copy up to a depth. -/
def copyInside (regions : Regions) : (depth : Nat) → CopySubroutine
  | 0 => fun _ _ _ inlining => inlining
  | depth + 1 => regions.copyToDepth depth

/-- Copies up to a depth are those of regions, where calls are copied up to a depth that is less by
one. -/
theorem copyToDepth_eq (depth : Nat) :
    regions.copyToDepth depth = regions.copyRegion (regions.copyInside depth) := by
  cases depth <;> rfl

theorem onlyAdds_copyInside (depth : Nat) : OnlyAdds (regions.copyInside depth) := by
  cases depth with
  | zero => exact fun _ _ _ inlining => .refl inlining
  | succ depth => exact onlyAdds_copyToDepth depth

/-- A copy up to the depth of a region has copies of all that is called. -/
theorem copyToDepth_copied {body : Body} (hc : regions.Cuts body) {known : KnownSizes}
    (hd : regions.callGraph.Descends known) {nodes : List Node} (depth : Nat) {number : Nat}
    {size : ExpandedSize} (hlt : number < regions.regions.size)
    (hsize : known[number]? = some (some size)) (hdepth : size.depth ≤ depth) {names : Renaming}
    {continuation : Label} {inlining : Inlining}
    (h : (regions.copyToDepth depth number names continuation inlining).nodes.toList <+: nodes) :
    regions.CopiedToDepth nodes depth number names continuation
      (regions.copyPlaces (regions.copyInside depth) number names continuation inlining) := by
  induction depth generalizing number size names continuation inlining with
  | zero =>
    -- at depth zero nothing is called
    refine copyRegion_copied hc (onlyAdds_copyInside 0) hlt ?_ h
    intro callee hmem
    rcases descends_callGraph hd hsize hmem with ⟨lower, _, hlower⟩
    omega
  | succ depth ih =>
    -- what is called has a lower depth
    refine copyRegion_copied hc (onlyAdds_copyInside (depth + 1)) hlt ?_ h
    intro callee hmem names continuation inlining hprefix
    rcases descends_callGraph hd hsize hmem with ⟨lower, hlower, hlt'⟩
    exact ⟨_, ih (callee_lt hc hmem) hlower (by omega) hprefix, copyPlaces_start _ _ _ _ _⟩

/-- The copy of a whole body starts with nothing. -/
theorem copyBody_eq (depth issued : Nat) : regions.copyBody depth issued =
    regions.copyToDepth depth outer [] default (Inlining.nothing issued) := rfl

/-- What the copy of a whole body looks like. -/
theorem copyBody_copied {body : Body} (hc : regions.Cuts body) {size : ExpandedSize}
    (h : regions.totalSize = .ok size) (issued : Nat) :
    ∃ places, regions.CopiedToDepth (regions.copyBody size.depth issued).nodes.toList size.depth
        outer [] default places ∧
      places 0 = 0 ∧
      places body.nodes.length = (regions.copyBody size.depth issued).nodes.toList.length := by
  rcases totalSize_descends hc h with ⟨known, hd, hknown⟩
  rcases hc.whole with ⟨hstart, hstop⟩
  rw [copyBody_eq]
  refine ⟨_, copyToDepth_copied hc hd size.depth hc.some_region hknown (Nat.le_refl _)
    List.prefix_rfl, ?_, ?_⟩
  · have hfirst := @copyPlaces_start regions (regions.copyInside size.depth) outer [] default
      (Inlining.nothing issued)
    rw [hstart] at hfirst
    exact hfirst
  · have hlast := copyPlaces_stop hc (regions.copyInside size.depth) default
      (Inlining.nothing issued)
    rw [hstop] at hlast
    rw [hlast, Array.length_toList, copyToDepth_eq]

end Regions

end Preverification

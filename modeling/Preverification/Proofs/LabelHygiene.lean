import Preverification.Proofs.CopiedCode
import Preverification.Proofs.LinesInForce

/-!
# Labels of inlined bodies

A body is hygienic when no label is placed twice, every label that is referred to is placed, and
the next fresh label is a new one. Inlining keeps bodies hygienic. A copied branch or range refers
to names that labels have in the copy, and these are placed: those of the region itself in the copy,
and those of the outer region by their own names. A range that ends behind its subroutine ends
behind the copy, at a label that is made for it.

* `Body.Hygienic`: labels are placed once, and only labels are referred to that are placed.
* `Regions.copyBody_tidy`: the copy of a whole body refers to labels that it places.
* `Regions.copyBody_labelFrom`: each label in it is that at its origin, or a new one.
* `Body.inline_hygienic`: a hygienic body is inlined within the limits, and the result is clean.
-/

namespace Preverification

/-! ### Ranges of labels -/

/-- The labels between which handlers apply and variables have names. -/
def spansOf (handlers : List Handler) (ranges : List VariableRange) : List (Label × Label) :=
  handlers.map (fun handler => (handler.start, handler.stop)) ++
    ranges.map fun range => (range.start, range.stop)

/-- The spans are those of handlers and of variables. -/
theorem mem_spansOf {handlers : List Handler} {ranges : List VariableRange}
    {span : Label × Label} : span ∈ spansOf handlers ranges ↔
      (∃ handler ∈ handlers, (handler.start, handler.stop) = span) ∨
        ∃ range ∈ ranges, (range.start, range.stop) = span := by
  unfold spansOf
  rw [List.mem_append, List.mem_map, List.mem_map]

/-- The labels between which handlers and ranges of a body are. -/
def Body.spans (body : Body) : List (Label × Label) :=
  spansOf body.handlers (body.localVariables ++ body.variableTypes)

/-- The labels between which handlers and ranges of a region are. -/
def Region.spans (region : Region) : List (Label × Label) :=
  spansOf region.handlers.toList (region.localVariables.toList ++ region.variableTypes.toList)

/-- The labels between which the handlers and ranges are that were copied. -/
def Inlining.spans (inlining : Inlining) : List (Label × Label) :=
  spansOf inlining.handlers.toList
    (inlining.localVariables.toList ++ inlining.variableTypes.toList)

/-- A label is placed in front of another one. -/
def Body.Before (body : Body) (start stop : Label) : Prop :=
  ∃ place place' : Nat, place < place' ∧ body.nodes[place]? = some (.label start) ∧
    body.nodes[place']? = some (.label stop)

/-- Labels that are placed one behind the other have places of which one is behind the other. -/
theorem Body.before_of_sublist {body : Body} {start stop : Label}
    (h : [start, stop].Sublist (body.nodes.filterMap Node.label?)) : body.Before start stop := by
  obtain ⟨front, back, hsplit, hstart, hstop⟩ := List.cons_sublist_iff.1 h
  obtain ⟨nodes, nodes', hnodes, rfl, rfl⟩ := List.filterMap_eq_append_iff.1 hsplit
  obtain ⟨place, hplace⟩ := List.mem_iff_getElem?.1 (mem_filterMap_label.1 hstart)
  obtain ⟨place', hplace'⟩ :=
    List.mem_iff_getElem?.1 (mem_filterMap_label.1 (List.singleton_sublist.1 hstop))
  have hlt := (List.getElem?_eq_some_iff.1 hplace).1
  refine ⟨place, nodes.length + place', by omega, ?_, ?_⟩
  · rw [hnodes, List.getElem?_append_left hlt]
    exact hplace
  · rw [hnodes, List.getElem?_append_right (Nat.le_add_right _ _), Nat.add_sub_cancel_left]
    exact hplace'

namespace Regions

variable {regions regions' : Regions} {body : Body}

/-! ### Ranges of regions -/

/-- A range of a region is one of the body. It starts in the region, and ends there or right behind
it. -/
structure Spans (regions : Regions) (body : Body) (number : Nat) (span : Label × Label) : Prop where
  mem : span ∈ body.spans
  start : ∃ place : Nat, body.nodes[place]? = some (.label span.1) ∧ regions.owner place = number
  stop : ∃ place : Nat, body.nodes[place]? = some (.label span.2) ∧
    place ≤ (regions.region number).stop

/-- Regions cut a body, their ranges are where they should be, and so is the code of their handlers.
-/
structure Settled (regions : Regions) (body : Body) : Prop where
  cuts : regions.Cuts body
  spans : ∀ number, ∀ span ∈ (regions.region number).spans, regions.Spans body number span
  codes : ∀ number, ∀ handler ∈ (regions.region number).handlers.toList,
    ∃ place : Nat, body.nodes[place]? = some (.label handler.handler) ∧
      regions.owner place = number

theorem Spans.agrees {number : Nat} {span : Label × Label} (h : regions.Spans body number span)
    (ha : regions.Agrees regions') : regions'.Spans body number span where
  mem := h.mem
  start := by
    rw [ha.owner_eq]
    exact h.start
  stop := by
    rw [(ha.region_eq number).2.2]
    exact h.stop

/-- A region may be given a range that belongs there, with a handler whose code belongs there. -/
theorem Settled.give (h : regions.Settled body) (span : Label × Label) {home : Nat}
    (hmem : span ∈ body.spans) (hrange : regions.ofRange span.1 span.2 = .ok (some home))
    {f : Region → Region} (ha : regions.Agrees (regions.update home f))
    (hspans : ∀ found ∈ (f (regions.region home)).spans,
      found ∈ (regions.region home).spans ∨ found = span)
    (hcodes : ∀ handler ∈ (f (regions.region home)).handlers.toList,
      handler ∈ (regions.region home).handlers.toList ∨
        regions.ownerOf handler.handler = .ok home) :
    (regions.update home f).Settled body := by
  obtain ⟨place, place', hstart, hstop, howner, hle⟩ := ofRange_ok h.cuts hrange
  have hlt : home < regions.regions.size := by
    rw [← howner]
    exact owner_lt h.cuts place
  refine ⟨ha.cuts h.cuts, fun number found hfound => Spans.agrees ?_ ha, ?_⟩
  · -- only the region at home is another one
    rw [region_update hlt] at hfound
    split at hfound
    · rename_i heq
      rw [heq] at hfound ⊢
      rcases hspans found hfound with hold | rfl
      · exact h.spans home found hold
      · exact ⟨hmem, ⟨place, hstart, howner⟩, place', hstop, hle⟩
    · exact h.spans number found hfound
  · intro number handler hhandler
    rw [ha.owner_eq]
    rw [region_update hlt] at hhandler
    split at hhandler
    · rename_i heq
      rw [heq] at hhandler ⊢
      exact (hcodes handler hhandler).elim (h.codes home handler) (ownerOf_ok h.cuts).1
    · exact h.codes number handler hhandler

/-- A handler is given to the region in which its range is. -/
theorem Settled.addHandler {handler : Handler} (hmem : handler ∈ body.handlers)
    (h : regions.Settled body) (hadd : regions.addHandler handler = .ok regions') :
    regions'.Settled body := by
  have ha := addHandler_agrees hadd
  obtain ⟨home, hrange, hcode, rfl⟩ := addHandler_cases hadd
  refine h.give (handler.start, handler.stop)
    (mem_spansOf.2 (.inl ⟨handler, hmem, rfl⟩)) hrange ha (fun found hfound => ?_)
    fun found hfound => ?_
  · simp only [Region.spans, spansOf, Array.toList_push, List.map_append, List.map_cons,
      List.map_nil, List.mem_append, List.mem_singleton] at hfound ⊢
    tauto
  · rcases Array.mem_push.1 (Array.mem_toList_iff.1 hfound) with hold | rfl
    · exact .inl (Array.mem_toList_iff.2 hold)
    · exact .inr hcode

/-- Regions stay settled when the range of a variable is added. -/
theorem Settled.addRange {note : VariableRange → Region → Region} (hnote : Region.Notes note)
    {range : VariableRange} (hmem : range ∈ body.localVariables ++ body.variableTypes)
    (h : regions.Settled body) (hadd : regions.addRange note range = .ok regions') :
    regions'.Settled body := by
  have ha := addRange_agrees hnote hadd
  rcases addRange_cases hadd with rfl | ⟨home, hrange, rfl⟩
  · exact h
  · refine h.give (range.start, range.stop) (mem_spansOf.2 (.inr ⟨range, hmem, rfl⟩)) hrange ha
      (fun span hspan => ?_) fun handler hhandler => .inl ?_
    · rcases mem_spansOf.1 hspan with ⟨handler, hhandler, rfl⟩ | ⟨found, hfound, rfl⟩
      · rw [hnote.handlers] at hhandler
        exact .inl (mem_spansOf.2 (.inl ⟨handler, hhandler, rfl⟩))
      · rcases hnote.ranges range _ found hfound with hold | rfl
        · exact .inl (mem_spansOf.2 (.inr ⟨found, hold, rfl⟩))
        · exact .inr rfl
    · rwa [hnote.handlers] at hhandler

/-- The regions that a scan finds have no ranges yet. -/
theorem ofNodes_settled (h : ofNodes body = .ok regions) : regions.Settled body := by
  have hbare := forall_region (P := Region.Bare) ⟨rfl, rfl, rfl⟩ (ofNodes_bare h)
  refine ⟨ofNodes_cuts h, fun number => ?_, fun number => ?_⟩
  · unfold Region.spans
    rw [(hbare number).handlers, (hbare number).localVariables, (hbare number).variableTypes]
    exact nofun
  · rw [(hbare number).handlers]
    exact nofun

/-- The ranges of the regions of a body are where they should be. -/
theorem regions_settled (h : body.regions = .ok regions) : regions.Settled body :=
  Body.regions_keep (P := (Settled · body)) h (fun _ => ofNodes_settled)
    (fun _ hmem _ _ => Settled.addHandler hmem)
    (fun _ hmem _ _ => Settled.addRange Region.notes_variable (List.mem_append_left _ hmem))
    fun _ hmem _ _ => Settled.addRange Region.notes_variableType (List.mem_append_right _ hmem)

/-! ### Labels of copies are placed -/

section Placed

variable {copy : CopySubroutine} {names : Renaming} {continuation : Label} {number : Nat}

theorem placed_extends {old new : Inlining} (h : Inlining.Extends old new) :
    old.placed <+: new.placed := h.nodes.filterMap _

/-- A copy of a node places its name, behind what was there. -/
theorem sublist_copyNode (honly : OnlyAdds copy) (inlining : Inlining) (node : Node) :
    (inlining.placed ++ node.label?.toList.map names.apply).Sublist
      (regions.copyNode copy names continuation inlining node).placed := by
  cases hlabel : node.label? with
  | none =>
    rw [Option.toList_none, List.map_nil, List.append_nil]
    exact (placed_extends (extends_copyNode honly names continuation inlining node)).sublist
  | some label =>
    cases node with
    | label found =>
      obtain rfl := Option.some.inj hlabel
      simp [copyNode, Inlining.placed, Inlining.push, Node.label?]
    | line | operation => cases hlabel

/-- Behind the labels that were placed before, a copy places the names of the labels of its nodes.
-/
theorem sublist_foldl (honly : OnlyAdds copy) (nodes : List Node) (inlining : Inlining) :
    (inlining.placed ++ (nodes.filterMap Node.label?).map names.apply).Sublist
      (nodes.foldl (regions.copyNode copy names continuation) inlining).placed := by
  induction nodes generalizing inlining with
  | nil => simp
  | cons node nodes ih =>
    rw [map_labels_cons, ← List.append_assoc]
    exact ((sublist_copyNode honly inlining node).append_right _).trans (ih _)

/-- Labels of a region keep the order of their places. -/
theorem Cuts.labels_pair (hc : regions.Cuts body) (hlt : number < regions.regions.size)
    {start stop : Label} {place place' : Nat} (hstart : body.nodes[place]? = some (.label start))
    (hstop : body.nodes[place']? = some (.label stop)) (hle : (regions.region number).start ≤ place)
    (hless : place < place') (hinside : place' < (regions.region number).stop) :
    [start, stop].Sublist (regions.labels number) := by
  have hpair : [place, place'].Sublist (regions.span number) := by
    have hmem : place' ∈ List.range' (place + 1) ((regions.region number).stop - (place + 1)) :=
      List.mem_range'_1.2 (by omega)
    rw [span_eq hle (Nat.lt_trans hless hinside)]
    exact ((List.singleton_sublist.2 hmem).cons_cons place).trans (List.sublist_append_right _ _)
  have hcontent : ∀ {position label}, body.nodes[position]? = some (.label label) →
      (regions.content? number position).bind Node.label? = some label := fun hnode => by
    rw [hc.content?_eq_some.2 ⟨hnode, .inr rfl⟩]
    rfl
  have hlabels : [place, place'].filterMap (fun position =>
      (regions.content? number position).bind Node.label?) = [start, stop] := by
    simp only [List.filterMap_cons, List.filterMap_nil, hcontent hstart, hcontent hstop]
  unfold labels
  rw [contents_eq hc (hc.stop_le hlt), List.filterMap_filterMap, ← hlabels]
  exact hpair.filterMap _

end Placed

end Regions

/-! ### What is copied refers to labels that are placed -/

/-- Both labels are among some others, and if so desired, one is in front of the other. -/
structure Between (labels : List Label) (ordered : Prop) (span : Label × Label) : Prop where
  start : span.1 ∈ labels
  stop : span.2 ∈ labels
  before : ordered → [span.1, span.2].Sublist labels

/-- All that was copied refers to some labels, which are those that will be placed. -/
structure Inlining.Tidy (labels : List Label) (ordered : Prop) (inlining : Inlining) : Prop where
  targets : ∀ node ∈ inlining.nodes, node.targets ⊆ labels
  codes : ∀ handler ∈ inlining.handlers, handler.handler ∈ labels
  spans : ∀ span ∈ inlining.spans, Between labels ordered span

namespace Regions

variable {regions : Regions} {body : Body} {labels : List Label} {ordered : Prop} {number : Nat}
  {names : Renaming} {continuation : Label} {inlining : Inlining} {copy : CopySubroutine}

theorem tidy_push (h : inlining.Tidy labels ordered) {node : Node} (hnode : node.targets ⊆ labels) :
    (inlining.push node).Tidy labels ordered := by
  refine ⟨fun found hfound => ?_, h.codes, h.spans⟩
  rcases Array.mem_push.1 hfound with hold | rfl
  · exact h.targets found hold
  · exact hnode

/-- What a copy needs to know about its surroundings: labels of the outer region are called by names
that are placed, and a subroutine has a place to return to. -/
structure Surrounded (regions : Regions) (body : Body) (labels : List Label) (number : Nat)
    (names : Renaming) (continuation : Label) : Prop where
  named : ∃ calls, regions.NamedBy calls number names
  outside : ∀ {label : Label} {place : Nat}, body.nodes[place]? = some (.label label) →
    regions.owner place = outer → names.apply label ∈ labels
  behind : number ≠ outer → continuation ∈ labels

/-- Copies of subroutines keep tidy what was copied, if all that they place is placed. -/
def KeepsTidy (regions : Regions) (body : Body) (labels : List Label) (ordered : Prop)
    (copy : CopySubroutine) : Prop :=
  ∀ {number : Nat} {names : Renaming} {continuation : Label} {inlining : Inlining},
    number < regions.regions.size → regions.Surrounded body labels number names continuation →
      (copy number names continuation inlining).placed <+: labels → inlining.Tidy labels ordered →
        (copy number names continuation inlining).Tidy labels ordered

/-- What is copied for a call leads to names of its labels, or to the label behind it. -/
theorem tidy_copyCall (hc : regions.Cuts body) (hcopy : regions.KeepsTidy body labels ordered copy)
    (hsurrounded : regions.Surrounded body labels number names continuation) {target : Label}
    (hcall : body.Calls target)
    (hplaced : (regions.copyCall copy names target inlining).placed <+: labels)
    (h : inlining.Tidy labels ordered) :
    (regions.copyCall copy names target inlining).Tidy labels ordered := by
  rw [copyCall_eq] at hplaced ⊢
  obtain ⟨position, hposition⟩ := List.mem_iff_getElem?.1 hcall
  obtain ⟨_, _, _, hne, _⟩ := callee_entered hc hposition
  have hlt : regions.callee target < regions.regions.size := owner_lt hc _
  -- the copy of the subroutine is followed by the label behind it
  have hpush : ∀ (label : Label) (inlining : Inlining),
      (inlining.push (.label label)).placed = inlining.placed ++ [label] := by
    simp [Inlining.placed, Inlining.push, Node.label?]
  rw [hpush] at hplaced
  have hcalled : (inlining.called (regions.labels (regions.callee target)).length).Tidy labels
      ordered := ⟨(tidy_push h (List.nil_subset _)).targets, h.codes, h.spans⟩
  refine tidy_push (hcopy hlt ⟨?_, fun hplace howner => ?_, fun _ => ?_⟩
    ((List.prefix_append _ _).trans hplaced) hcalled) (List.nil_subset _)
  · exact ⟨[position], .inr ⟨hne, List.cons_ne_nil _ _, _, _, rfl, contains_freshLabels _ _⟩⟩
  · rw [apply_cons_of_none (getElem?_freshLabels_eq_none
      (hc.not_mem_labels_of_outer hne hlt hplace howner))]
    exact hsurrounded.outside hplace howner
  · exact hplaced.subset (List.mem_append_right _ (List.mem_singleton.2 rfl))

/-- Copied branches lead to names of labels of the region, or of the outer one. -/
theorem tidy_copyNode (hc : regions.Cuts body) (hk : regions.Checked body)
    (hcopy : regions.KeepsTidy body labels ordered copy) (hlt : number < regions.regions.size)
    (hsurrounded : regions.Surrounded body labels number names continuation)
    (hown : (regions.labels number).map names.apply ⊆ labels) {node : Node}
    (hnode : node ∈ regions.contents number)
    (hplaced : (regions.copyNode copy names continuation inlining node).placed <+: labels)
    (h : inlining.Tidy labels ordered) :
    (regions.copyNode copy names continuation inlining node).Tidy labels ordered := by
  obtain ⟨position, hposition, hhome⟩ := hc.mem_contents hlt hnode
  cases node with
  | label | line => exact tidy_push h (List.nil_subset _)
  | operation operation =>
    have howner : regions.owner position = number := hhome.resolve_right (by simp [Node.label?])
    -- where an operation may go, there is a label of the region or of the outer one
    have htargets : operation.isSubroutine = false →
        (Node.operation (operation.map names.apply)).targets ⊆ labels := by
      intro hsub label hmem
      change label ∈ (operation.map names.apply).targets at hmem
      rw [Operation.targets_map] at hmem
      obtain ⟨target, htarget, rfl⟩ := List.mem_map.1 hmem
      obtain ⟨place, hplace, hmay⟩ := hk.jumps position operation target hposition hsub htarget
      rcases Cuts.mayEnter_iff.1 hmay with hsame | houter
      · refine hown (List.mem_map.2 ⟨target, (hc.mem_labels hlt).2 ⟨place, ?_⟩, rfl⟩)
        have howned := hc.owned place (List.getElem?_eq_some_iff.1 hplace).1
        rw [hsame, howner] at howned
        exact ⟨howned.1, howned.2, hplace⟩
      · exact hsurrounded.outside hplace houter
    cases operation with
    | step instruction => exact tidy_push h (List.nil_subset _)
    | branch b =>
      cases b with
      | jsr target =>
        exact tidy_copyCall hc hcopy hsurrounded (List.mem_of_getElem? hposition) hplaced h
      | ret slot =>
        have hne : number ≠ outer := howner ▸ hk.returns position slot hposition
        exact tidy_push h (List.cons_subset.2 ⟨hsurrounded.behind hne, List.nil_subset _⟩)
      | _ => exact tidy_push h (htargets rfl)

/-- Nodes are copied one after the other. -/
theorem tidy_foldl (honly : OnlyAdds copy) {nodes : List Node}
    (hnode : ∀ node ∈ nodes, ∀ inlining : Inlining,
      (regions.copyNode copy names continuation inlining node).placed <+: labels →
        inlining.Tidy labels ordered →
          (regions.copyNode copy names continuation inlining node).Tidy labels ordered)
    (hplaced : (nodes.foldl (regions.copyNode copy names continuation) inlining).placed <+: labels)
    (h : inlining.Tidy labels ordered) :
    (nodes.foldl (regions.copyNode copy names continuation) inlining).Tidy labels ordered := by
  induction nodes generalizing inlining with
  | nil => exact h
  | cons node nodes ih =>
    obtain ⟨hfirst, hrest⟩ := List.forall_mem_cons.1 hnode
    have hextends := @extends_foldl _ (regions.copyNode copy names continuation)
      (extends_copyNode honly names continuation) nodes
      (regions.copyNode copy names continuation inlining node)
    exact ih hrest hplaced (hfirst inlining ((placed_extends hextends).trans hplaced) h)

/-! ### Copied ranges -/

/-- The ranges that were copied are those from before and the copies of those of the region. -/
theorem mem_spans_copyRanges {span : Label × Label}
    (h : span ∈ (regions.copyRanges number names inlining).spans) :
    span ∈ (regions.copyStops number names inlining).2.spans ∨
      ∃ found ∈ (regions.region number).spans, span =
        (names.apply found.1, (regions.copyStops number names inlining).1 found.2) := by
  simp only [copyRanges, Inlining.spans, Region.spans, spansOf, Array.toList_append,
    Array.toList_map, List.map_append, List.map_map, List.mem_append, List.mem_map] at h ⊢
  rcases h with (h | ⟨handler, hmem, rfl⟩) | (h | ⟨range, hmem, rfl⟩) | (h | ⟨range, hmem, rfl⟩)
  · exact .inl (.inl h)
  · exact .inr ⟨_, .inl ⟨handler, hmem, rfl⟩, rfl⟩
  · exact .inl (.inr (.inl h))
  · exact .inr ⟨_, .inr (.inl ⟨range, hmem, rfl⟩), rfl⟩
  · exact .inl (.inr (.inr h))
  · exact .inr ⟨_, .inr (.inr ⟨range, hmem, rfl⟩), rfl⟩

/-- The ends of ranges are the stops of a region. -/
theorem mem_stops {span : Label × Label} (h : span ∈ (regions.region number).spans) :
    span.2 ∈ regions.stops number := by
  simp only [stops, Array.toList_append, Array.toList_map, List.mem_append, List.mem_map]
  rcases mem_spansOf.1 h with ⟨handler, hmem, rfl⟩ | ⟨range, hmem, rfl⟩
  · exact .inl (.inl ⟨handler, hmem, rfl⟩)
  · rcases List.mem_append.1 hmem with hmem | hmem
    · exact .inl (.inr ⟨range, hmem, rfl⟩)
    · exact .inr ⟨range, hmem, rfl⟩

/-- The copy of a range starts at the copy of its start. It ends at that of its stop if that is in
the region, and otherwise at a label that is placed behind the copy. -/
theorem between_copyStops (hsettled : regions.Settled body)
    (hordered : ordered → ∀ span ∈ body.spans, body.Before span.1 span.2)
    (hlt : number < regions.regions.size) {calls : List Nat}
    (hnamed : regions.NamedBy calls number names)
    (hown : ((regions.labels number).map names.apply).Sublist inlining.placed)
    (hplaced : (regions.copyStops number names inlining).2.placed <+: labels)
    {span : Label × Label} (hspan : span ∈ (regions.region number).spans) :
    Between labels ordered
      (names.apply span.1, (regions.copyStops number names inlining).1 span.2) := by
  have hc := hsettled.cuts
  obtain ⟨hmem, ⟨start, hstart, howner⟩, stop, hstop, hle⟩ := hsettled.spans number span hspan
  have howned := hc.owned start (List.getElem?_eq_some_iff.1 hstart).1
  rw [howner] at howned
  -- the start is in the region, so the copy places its name
  have hcopied : names.apply span.1 ∈ inlining.placed :=
    hown.subset (List.mem_map.2 ⟨_, (hc.mem_labels hlt).2 ⟨start, howned.1, howned.2, hstart⟩, rfl⟩)
  by_cases hin : span.2 ∈ regions.labels number
  · have hfront := (placed_extends (extends_copyStops number names inlining)).trans hplaced
    rw [copyStops_fst_of_mem hnamed hin]
    refine ⟨hfront.subset hcopied,
      hfront.subset (hown.subset (List.mem_map.2 ⟨_, hin, rfl⟩)), fun horder => ?_⟩
    obtain ⟨place, place', hless, hplace, hplace'⟩ := hordered horder span hmem
    obtain rfl := hc.flow.label_unique hstart hplace
    obtain ⟨found, -, hinside, hfound⟩ := (hc.mem_labels hlt).1 hin
    obtain rfl := hc.flow.label_unique hplace' hfound
    have hpair := hc.labels_pair hlt hplace hplace' howned.1 hless hinside
    exact ((hpair.map names.apply).trans hown).trans hfront.sublist
  · -- all labels are in the outer region
    have hne : number ≠ outer := by
      rintro rfl
      refine hin ((hc.mem_labels hlt).2 ⟨stop, ?_, ?_, hstop⟩)
      · rw [hc.whole.1]
        exact Nat.zero_le stop
      · rw [hc.whole.2]
        exact (List.getElem?_eq_some_iff.1 hstop).1
    -- the stop is behind the region, where a label is made for it
    have hpush : (regions.copyStops number names inlining).2.placed =
        inlining.placed ++ [(regions.copyStops number names inlining).1 span.2] := by
      unfold Inlining.placed
      rw [copyStops_fst_of_not_mem hnamed hne (mem_stops hspan) hin]
      simp [Node.label?]
    rw [hpush] at hplaced
    have hpair := ((List.singleton_sublist.2 hcopied).append
      (.refl [(regions.copyStops number names inlining).1 span.2])).trans hplaced.sublist
    exact ⟨hpair.subset (by simp), hpair.subset (by simp), fun _ => hpair⟩

/-- The ranges of a copy are between labels that it places. -/
theorem tidy_copyRanges (hsettled : regions.Settled body)
    (hordered : ordered → ∀ span ∈ body.spans, body.Before span.1 span.2)
    (hlt : number < regions.regions.size) {calls : List Nat}
    (hnamed : regions.NamedBy calls number names)
    (hown : ((regions.labels number).map names.apply).Sublist inlining.placed)
    (hplaced : (regions.copyRanges number names inlining).placed <+: labels)
    (h : inlining.Tidy labels ordered) :
    (regions.copyRanges number names inlining).Tidy labels ordered := by
  -- stops of ranges get one label more, and nothing refers to it yet
  have hstops : (regions.copyStops number names inlining).2.Tidy labels ordered := by
    rcases copyStops_cases regions number names inlining with heq | heq
    · rw [heq]
      exact h
    · have hfresh : inlining.fresh.2.Tidy labels ordered := ⟨h.targets, h.codes, h.spans⟩
      rw [heq]
      exact tidy_push hfresh (List.nil_subset _)
  have hfront : inlining.placed <+: labels :=
    (placed_extends (extends_copyRanges number names inlining)).trans hplaced
  refine ⟨hstops.targets, fun handler hmem => ?_, fun span hmem => ?_⟩
  · rcases Array.mem_append.1 hmem with hold | hnew
    · exact hstops.codes handler hold
    · obtain ⟨original, horiginal, rfl⟩ := Array.mem_map.1 hnew
      obtain ⟨place, hplace, howner⟩ :=
        hsettled.codes number original (Array.mem_toList_iff.2 horiginal)
      have howned := hsettled.cuts.owned place (List.getElem?_eq_some_iff.1 hplace).1
      rw [howner] at howned
      exact hfront.subset (hown.subset (List.mem_map.2
        ⟨_, (hsettled.cuts.mem_labels hlt).2 ⟨place, howned.1, howned.2, hplace⟩, rfl⟩))
  · rcases mem_spans_copyRanges hmem with hold | ⟨found, hfound, rfl⟩
    · exact hstops.spans span hold
    · exact between_copyStops hsettled hordered hlt hnamed hown hplaced hfound

/-! ### Copies of regions -/

/-- A copy of a region is tidy if copies of subroutines are. -/
theorem keepsTidy_copyRegion (hsettled : regions.Settled body) (hk : regions.Checked body)
    (hordered : ordered → ∀ span ∈ body.spans, body.Before span.1 span.2) (honly : OnlyAdds copy)
    (hcopy : regions.KeepsTidy body labels ordered copy) :
    regions.KeepsTidy body labels ordered (regions.copyRegion copy) := by
  intro number names continuation inlining hlt hsurrounded hplaced h
  obtain ⟨calls, hnamed⟩ := hsurrounded.named
  -- the names of all labels of the region are placed before the ranges are copied
  have hown : ((regions.labels number).map names.apply).Sublist ((regions.contents number).foldl
      (regions.copyNode copy names continuation) inlining).placed :=
    (List.sublist_append_right _ _).trans (sublist_foldl honly (regions.contents number) inlining)
  have hnodes := (placed_extends (extends_copyRanges number names _)).trans hplaced
  refine tidy_copyRanges hsettled hordered hlt hnamed hown hplaced
    (tidy_foldl honly (fun node hnode inlining => ?_) hnodes h)
  exact tidy_copyNode hsettled.cuts hk hcopy hlt hsurrounded
    (fun label hmem => hnodes.subset (hown.subset hmem)) hnode

/-- Copies of subroutines up to any depth keep labels tidy. -/
theorem keepsTidy_copyInside (hsettled : regions.Settled body) (hk : regions.Checked body)
    (hordered : ordered → ∀ span ∈ body.spans, body.Before span.1 span.2) (depth : Nat) :
    regions.KeepsTidy body labels ordered (regions.copyInside depth) := by
  induction depth with
  | zero => exact fun _ _ _ h => h
  | succ depth ih =>
    change regions.KeepsTidy body labels ordered (regions.copyToDepth depth)
    rw [copyToDepth_eq]
    exact keepsTidy_copyRegion hsettled hk hordered (onlyAdds_copyInside depth) ih

/-- All labels of a body are placed in the copy of the whole body. -/
theorem labels_sublist_copyBody (depth issued : Nat) :
    (regions.labels outer).Sublist (regions.copyBody depth issued).placed := by
  have hnodes := @sublist_foldl regions (regions.copyInside depth) [] default
    (onlyAdds_copyInside depth) (regions.contents outer) (.nothing issued)
  rw [copyBody_eq, copyToDepth_eq]
  refine .trans ?_ (placed_extends (extends_copyRanges outer [] _)).sublist
  refine .trans ?_ hnodes
  have happly : (regions.labels outer).map (Renaming.apply []) = regions.labels outer :=
    List.map_id _
  change (regions.labels outer).Sublist ([] ++ (regions.labels outer).map (Renaming.apply []))
  rw [happly, List.nil_append]

/-- The copy of a whole body refers to labels that it places. -/
theorem copyBody_tidy (hsettled : regions.Settled body) (hk : regions.Checked body)
    (hordered : ordered → ∀ span ∈ body.spans, body.Before span.1 span.2) (depth issued : Nat) :
    (regions.copyBody depth issued).Tidy (regions.copyBody depth issued).placed ordered := by
  have hc := hsettled.cuts
  have hkeeps := @keepsTidy_copyRegion regions body (regions.copyBody depth issued).placed ordered _
    hsettled hk hordered (onlyAdds_copyInside depth)
    (keepsTidy_copyInside hsettled hk hordered depth)
  rw [← copyToDepth_eq] at hkeeps
  refine hkeeps hc.some_region ⟨⟨[], .inl ⟨rfl, rfl⟩⟩, fun {label place} hplace howner => ?_,
    fun hne => absurd rfl hne⟩ List.prefix_rfl ⟨nofun, nofun, nofun⟩
  have howned := hc.owned place (List.getElem?_eq_some_iff.1 hplace).1
  rw [howner] at howned
  exact (labels_sublist_copyBody depth issued).subset
    ((hc.mem_labels hc.some_region).2 ⟨place, howned.1, howned.2, hplace⟩)

end Regions

/-! ### Labels of copies are new -/

/-- A label that was copied for no call is the label at its origin; any other one is new. -/
def Body.LabelFrom (body : Body) (node : Node) (trail : List Nat) : Prop :=
  ∀ label, node = .label label →
    match trail with
    | [position] => body.nodes[position]? = some (.label label)
    | _ => body.issued ≤ label.number

/-- A label that was not issued before is new. -/
theorem Body.labelFrom_of_new {body : Body} {node : Node} {trail : List Nat}
    (htrail : ∀ position, trail ≠ [position])
    (hnew : ∀ label, node = .label label → body.issued ≤ label.number) :
    body.LabelFrom node trail := by
  intro label heq
  split
  · exact absurd rfl (htrail _)
  · exact hnew label heq

namespace Regions

variable {regions : Regions} {body : Body} {copy : CopySubroutine}
  {inside : List Nat → Nat → List (List Nat)} {inlining : Inlining}

/-- The trail of what is copied for a call has the call and a position inside of it. -/
theorem ne_singleton_of_mem_trailInside {depth call number : Nat} {found : List Nat}
    (h : found ∈ regions.trailInside depth [call] number) (position : Nat) :
    found ≠ [position] := by
  cases depth with
  | zero => cases h
  | succ depth =>
    change found ∈ regions.trail depth [call] number at h
    rw [trail_eq] at h
    rcases List.mem_append.1 h with h | h
    · obtain ⟨inner, -, hat⟩ := List.mem_flatMap.1 h
      rcases mem_trailAt (mem_trailInside depth) hat with rfl | ⟨first, -, rfl, -⟩
      · exact nofun
      · intro heq
        have hlength := congrArg List.length heq
        simp at hlength
    · split at h
      · rw [List.mem_singleton.1 h]
        exact nofun
      · cases h

/-- Labels that are added for trails are new, if those that a copy was given are new. -/
theorem grows_of_places {R : Node → List Nat → Prop} {old new : Inlining}
    {trail : List (List Nat)} {own : List Label} (hgrows : Grows R old new trail)
    (hplaces : Inlining.Places own old new) (hold : body.issued ≤ old.issued)
    (hown : ∀ label ∈ own, body.issued ≤ label.number)
    (htrail : ∀ found ∈ trail, ∀ position, found ≠ [position]) :
    Grows body.LabelFrom old new trail := by
  obtain ⟨added, heq, hall⟩ := hgrows
  obtain ⟨-, labels, hlabels, -, hnew⟩ := hplaces
  obtain rfl : added.filterMap Node.label? = labels := by
    unfold Inlining.placed at hlabels
    rw [heq, List.filterMap_append] at hlabels
    exact List.append_cancel_left hlabels
  refine ⟨added, heq, List.forall₂_iff_zip.2 ⟨hall.length_eq, fun {node found} hmem => ?_⟩⟩
  obtain ⟨hnode, hfound⟩ := List.of_mem_zip hmem
  refine Body.labelFrom_of_new (htrail found hfound) ?_
  rintro label rfl
  rcases hnew label (mem_filterMap_label.2 hnode) with hmem | ⟨hle, -⟩
  · exact hown label hmem
  · exact Nat.le_trans hold hle

/-- Outside of calls labels are kept, and all that are added for a call are new. -/
theorem grows_copyAt_outer (hc : regions.Cuts body) (hcopy : regions.Tracks body copy inside)
    (honce : regions.PlacesOnce copy)
    (htrail : ∀ call number, ∀ found ∈ inside [call] number, ∀ position, found ≠ [position])
    (hissued : body.issued ≤ inlining.issued) (position : Nat) :
    Grows body.LabelFrom inlining (regions.copyAt copy outer [] default inlining position)
      (regions.trailAt inside [] outer position) := by
  -- nothing is there, a call, or any other node
  rcases regions.content?_cases outer position with
    hcontent | ⟨target, hcontent⟩ | ⟨node, hcontent, hno⟩
  · rw [copyAt_of_none hcontent, trailAt_of_none hcontent]
    exact .refl inlining
  · have hnode := (hc.content?_eq_some.1 hcontent).1
    obtain ⟨_, _, _, hne, _⟩ := callee_entered hc hnode
    have hlt : regions.callee target < regions.regions.size := owner_lt hc _
    have hnodup := hc.labels_nodup hlt
    have hcount := Nat.le_add_right inlining.issued
      (regions.labels (regions.callee target)).length
    have hnamed : regions.NamedBy [position] (regions.callee target)
        (regions.freshLabels (regions.callee target) inlining.issued :: []) :=
      .inr ⟨hne, List.cons_ne_nil _ _, _, _, rfl, contains_freshLabels _ _⟩
    rw [copyAt_of_some hcontent, trailAt_of_call hcontent]
    change Grows _ _ (regions.copyCall copy [] target inlining) _
    rw [copyCall_eq]
    -- a null, the copy with its new labels, and one more new label
    have hnull : Grows body.LabelFrom inlining
        (inlining.called (regions.labels (regions.callee target)).length) [[position]] :=
      grows_push rfl fun _ heq => nomatch heq
    refine hnull.trans (.trans ?_ (grows_push rfl ?_))
    · refine grows_of_places (hcopy _ _ _ _ _ hlt hnamed)
        (honce _ _ _ _ hlt (handed_freshLabels hnodup [] inlining)) ?_ ?_
        (htrail position (regions.callee target))
      · change body.issued ≤ inlining.issued + _ + 1
        omega
      · intro label hmem
        exact Nat.le_trans hissued (number_of_freshLabels hnodup [] label hmem).1
    · refine Body.labelFrom_of_new (fun _ => nofun) fun label heq => ?_
      obtain rfl := Node.label.inj heq
      exact Nat.le_trans hissued hcount
  · rw [copyAt_of_some hcontent, trailAt_of_not_call hcontent hno]
    cases node with
    -- outside of calls, a label is called by its own name
    | label label =>
      refine grows_push rfl fun found heq => ?_
      obtain rfl := Node.label.inj heq
      exact (hc.content?_eq_some.1 hcontent).1
    | line => exact grows_push rfl fun _ => nofun
    | operation operation =>
      cases operation with
      | step instruction => exact grows_push rfl fun _ => nofun
      | branch b =>
        cases b with
        | jsr target => exact absurd rfl (hno target)
        | _ => exact grows_push rfl fun _ => nofun

/-- Each label in the copy of a whole body is that at its origin, or a new one. -/
theorem copyBody_labelFrom (hc : regions.Cuts body) (depth : Nat) :
    List.Forall₂ body.LabelFrom (regions.copyBody depth body.issued).nodes.toList
      (regions.trail depth [] outer) := by
  have hfold := grows_foldl (P := fun inlining => body.issued ≤ inlining.issued)
    (fun inlining position h => ⟨Nat.le_trans h (extends_copyAt (onlyAdds_copyInside depth) outer []
        default inlining position).issued,
      grows_copyAt_outer hc (tracks_copyInside hc depth) (placesOnce_copyInside hc depth)
        (fun _ _ _ => ne_singleton_of_mem_trailInside) h position⟩)
    (regions.span outer) (.nothing body.issued) (Nat.le_refl _)
  obtain ⟨added, heq, hall⟩ := hfold
  have hnodes : (regions.copyBody depth body.issued).nodes.toList = added := by
    rw [copyBody_eq, copyToDepth_eq, copyRegion_eq hc (hc.stop_le hc.some_region)]
    exact heq
  have htrail : regions.trail depth [] outer =
      (regions.span outer).flatMap (regions.trailAt (regions.trailInside depth) [] outer) := by
    rw [trail_eq]
    exact List.append_nil _
  rw [hnodes, htrail]
  exact hall

end Regions

/-! ### Hygienic bodies -/

namespace Body

variable {body inlined : Body} {limits : InliningLimits} {copies : Nat}

/-- No label is placed twice, labels that are referred to are placed, and the next fresh label is a
new one. -/
structure Hygienic (body : Body) : Prop where
  unique : ∀ (label : Label) (place place' : Nat), body.nodes[place]? = some (.label label) →
    body.nodes[place']? = some (.label label) → place = place'
  placed : ∀ label ∈ body.referencedLabels, .label label ∈ body.nodes
  issued : ∀ label, .label label ∈ body.nodes → label.number < body.issued

/-- What inlining does to labels: there is no call or return left, the body is hygienic, labels are
kept outside of copies and new in them, and ranges stay in order. -/
structure CleanlyInlined (body inlined : Body) : Prop where
  no_subroutines : ∀ operation, .operation operation ∈ inlined.nodes →
    operation.isSubroutine = false
  hygienic : inlined.Hygienic
  kept : ∀ label, .label label ∈ body.nodes → .label label ∈ inlined.nodes
  fresh : List.Forall₂ body.LabelFrom inlined.nodes body.origins
  ordered : (∀ span ∈ body.spans, body.Before span.1 span.2) →
    ∀ span ∈ inlined.spans, inlined.Before span.1 span.2

theorem inline_no_subroutines (h : body.inline limits = .ok (copies, inlined)) :
    ∀ operation, .operation operation ∈ inlined.nodes → operation.isSubroutine = false := by
  intro operation hmem
  obtain ⟨original, names, continuation, -, rfl⟩ := (inline_drawnFrom h).operations hmem
  exact Operation.isSubroutine_copied names continuation original

/-- A body refers to labels in its operations, as code of handlers, and as ends of ranges. -/
theorem mem_referencedLabels_iff {label : Label} : label ∈ body.referencedLabels ↔
    (∃ node ∈ body.nodes, label ∈ node.targets) ∨
      (∃ handler ∈ body.handlers, label = handler.handler) ∨
        ∃ span ∈ body.spans, label = span.1 ∨ label = span.2 := by
  unfold referencedLabels spans
  simp only [mem_spansOf, List.mem_append, List.mem_flatMap, List.mem_cons, List.not_mem_nil,
    or_false]
  constructor
  · rintro ((hnode | ⟨handler, hmem, rfl | rfl | rfl⟩) | ⟨range, hmem, hlabel⟩)
    · exact .inl hnode
    · exact .inr (.inr ⟨_, .inl ⟨handler, hmem, rfl⟩, .inl rfl⟩)
    · exact .inr (.inr ⟨_, .inl ⟨handler, hmem, rfl⟩, .inr rfl⟩)
    · exact .inr (.inl ⟨handler, hmem, rfl⟩)
    · exact .inr (.inr ⟨_, .inr ⟨range, hmem, rfl⟩, hlabel⟩)
  · rintro (hnode | ⟨handler, hmem, rfl⟩ | ⟨_, ⟨handler, hmem, rfl⟩ | ⟨range, hmem, rfl⟩, hlabel⟩)
    · exact .inl (.inl hnode)
    · exact .inl (.inr ⟨handler, hmem, .inr (.inr rfl)⟩)
    · exact .inl (.inr ⟨handler, hmem, hlabel.imp id .inl⟩)
    · exact .inr ⟨range, hmem, hlabel⟩

/-- The copy of a whole body is clean. -/
theorem cleanlyInlined_copyBody {regions : Regions} {size : ExpandedSize} (h : body.Hygienic)
    (hinline : body.inline limits = .ok (copies, inlined)) (hsub : body.hasSubroutines)
    (hregions : body.regions = .ok regions) (hsize : regions.totalSize = .ok size)
    (heq : inlined = { body with
      nodes := (regions.copyBody size.depth body.issued).nodes.toList
      handlers := (regions.copyBody size.depth body.issued).handlers.toList
      localVariables := (regions.copyBody size.depth body.issued).localVariables.toList
      variableTypes := (regions.copyBody size.depth body.issued).variableTypes.toList
      issued := (regions.copyBody size.depth body.issued).issued }) :
    body.CleanlyInlined inlined := by
  obtain ⟨hc, hk⟩ := regions_ok hregions
  have hsettled := Regions.regions_settled hregions
  have hplaces := @Regions.copyBody_places regions body hc size.depth body.issued h.issued
  have hlabels : ∀ label, label ∈ (regions.copyBody size.depth body.issued).placed ↔
      .label label ∈ inlined.nodes := by
    rw [heq]
    exact fun label => mem_filterMap_label
  have houter : ∀ label, .label label ∈ body.nodes → label ∈ regions.labels Regions.outer := by
    intro label hmem
    obtain ⟨place, hplace⟩ := List.mem_iff_getElem?.1 hmem
    refine (hc.mem_labels hc.some_region).2 ⟨place, ?_, ?_, hplace⟩
    · rw [hc.whole.1]
      exact Nat.zero_le place
    · rw [hc.whole.2]
      exact (List.getElem?_eq_some_iff.1 hplace).1
  refine ⟨inline_no_subroutines hinline, ⟨?_, ?_, ?_⟩, ?_, ?_, ?_⟩
  · rw [heq]
    exact fun label place place' => Regions.copyBody_label_unique hc h.issued
  · -- what was copied refers to labels that are placed
    have htidy := @Regions.copyBody_tidy regions body False hsettled hk False.elim size.depth
      body.issued
    intro label hmem
    rw [← hlabels]
    rcases mem_referencedLabels_iff.1 hmem with
      ⟨node, hnode, htarget⟩ | ⟨handler, hhandler, rfl⟩ | ⟨span, hspan, hlabel⟩
    · rw [heq] at hnode
      exact htidy.targets node (Array.mem_toList_iff.1 hnode) htarget
    · rw [heq] at hhandler
      exact htidy.codes handler (Array.mem_toList_iff.1 hhandler)
    · rw [heq] at hspan
      have hbetween := htidy.spans span hspan
      rcases hlabel with rfl | rfl
      · exact hbetween.start
      · exact hbetween.stop
  · -- what was not handed out for a copy was handed out before
    intro label hmem
    obtain ⟨hle, added, hadded, -, hall⟩ := hplaces
    rw [← hlabels, hadded] at hmem
    rw [heq]
    rcases hall label hmem with hown | ⟨-, hlt⟩
    · obtain ⟨place, -, -, hplace⟩ := (hc.mem_labels hc.some_region).1 hown
      exact Nat.lt_of_lt_of_le (h.issued label (List.mem_of_getElem? hplace)) hle
    · exact hlt
  · intro label hmem
    rw [← hlabels]
    exact (Regions.labels_sublist_copyBody size.depth body.issued).subset (houter label hmem)
  · rw [origins_eq hsub hregions hsize, heq]
    exact Regions.copyBody_labelFrom hc size.depth
  · intro hordered span hspan
    have htidy := @Regions.copyBody_tidy regions body True hsettled hk (fun _ => hordered)
      size.depth body.issued
    rw [heq] at hspan ⊢
    exact before_of_sublist ((htidy.spans span hspan).before trivial)

/-- Without subroutines nothing changes. -/
theorem cleanlyInlined_self (h : body.Hygienic) (hinline : body.inline limits = .ok (copies, body))
    (hno : body.hasSubroutines = false) : body.CleanlyInlined body := by
  refine ⟨inline_no_subroutines hinline, h, fun _ hmem => hmem, ?_, id⟩
  unfold origins
  rw [hno, if_neg Bool.false_ne_true, List.forall₂_map_right_iff, List.forall₂_iff_get]
  refine ⟨List.length_range.symm, fun position hlt hlt' label heq => ?_⟩
  rw [List.get_eq_getElem, List.getElem_range]
  exact List.getElem?_eq_some_iff.2 ⟨hlt, heq⟩

/-- A hygienic body is inlined whenever its regions and their sizes are found within the limits, and
whenever it is inlined, the result is clean. -/
theorem inline_hygienic (h : body.Hygienic) :
    (∀ regions size, body.regions = .ok regions → regions.totalSize = .ok size →
      size.depth ≤ limits.maxDepth → size.operations ≤ limits.maxOperations →
        ∃ copies inlined, body.inline limits = .ok (copies, inlined)) ∧
    ∀ copies inlined, body.inline limits = .ok (copies, inlined) → body.CleanlyInlined inlined := by
  constructor
  · intro regions size hregions hsize hdepth hoperations
    cases hsub : body.hasSubroutines with
    | true => exact exists_inline hsub hregions hsize hdepth hoperations
    | false =>
      refine ⟨0, body, ?_⟩
      unfold inline
      rw [hsub]
      rfl
  · intro copies inlined hinline
    rcases inline_cases hinline with ⟨hno, rfl⟩ | ⟨regions, size, hsub, hregions, hsize, heq⟩
    · exact cleanlyInlined_self h hinline hno
    · exact cleanlyInlined_copyBody h hinline hsub hregions hsize heq

/-- `guardedCallBody` is hygienic, is inlined, and the result is clean. -/
theorem guardedCall_hygienic : guardedCallBody.Hygienic ∧ ∃ copies inlined,
    guardedCallBody.inline ⟨1, 4⟩ = .ok (copies, inlined) ∧
      guardedCallBody.CleanlyInlined inlined := by
  have hhygienic : guardedCallBody.Hygienic :=
    ⟨fun _ _ _ => label_unique_of_nodup (by decide), by decide, fun label hmem =>
      (show ∀ label ∈ guardedCallBody.nodes.filterMap Node.label?,
        label.number < guardedCallBody.issued by decide) label (mem_filterMap_label.2 hmem)⟩
  obtain ⟨hsucceeds, hclean⟩ := @inline_hygienic guardedCallBody ⟨1, 4⟩ hhygienic
  obtain ⟨copies, inlined, hinline⟩ := hsucceeds guardedCallRegions ⟨1, 4⟩ guardedCall_regions
    guardedCall_totalSize (Nat.le_refl 1) (Nat.le_refl 4)
  exact ⟨hhygienic, copies, inlined, hinline, hclean copies inlined hinline⟩

end Body

end Preverification

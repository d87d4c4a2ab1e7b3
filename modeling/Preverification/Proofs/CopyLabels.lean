import Preverification.Proofs.Copies
import Mathlib.Data.List.Nodup

/-!
# Labels of copies

The labels of a copy are handed out when the copy starts, and labels that end something are handed
out on the way. Labels are never handed out twice. So each copy places the names of its own labels
and labels that are new, and in the copy of a whole body no label is placed twice.

* `Inlining.Places`: which labels are placed, where those that are new were handed out meanwhile.
* `Regions.placesOnce_copyToDepth`: a copy places the names of its own labels and new ones, each
  once.
* `Regions.copyBody_label_unique`: in the copy of a whole body no label is placed twice.
-/

namespace Preverification

namespace Inlining

/-- The labels that have been placed, one after the other. -/
def placed (inlining : Inlining) : List Label := inlining.nodes.toList.filterMap Node.label?

/-- Nodes are added in which some labels and new ones are placed, each of them once. -/
structure Places (own : List Label) (old new : Inlining) : Prop where
  issued : old.issued ≤ new.issued
  placed : ∃ added, new.placed = old.placed ++ added ∧ added.Nodup ∧
    ∀ label ∈ added, label ∈ own ∨ old.issued ≤ label.number ∧ label.number < new.issued

/-- Labels that were handed out before. -/
def Handed (own : List Label) (inlining : Inlining) : Prop :=
  own.Nodup ∧ ∀ label ∈ own, label.number < inlining.issued

variable {own own' : List Label} {old middle new : Inlining}

/-- Labels that were handed out stay so. -/
theorem Handed.later (h : Handed own old) (hle : old.issued ≤ new.issued) : Handed own new :=
  ⟨h.1, fun label hmem => Nat.lt_of_lt_of_le (h.2 label hmem) hle⟩

theorem Places.refl (inlining : Inlining) : Places [] inlining inlining :=
  ⟨Nat.le_refl _, [], by simp, List.nodup_nil, nofun⟩

/-- Labels that are handed out later are others. -/
theorem Places.append (h : Places own old middle) (h' : Places own' middle new)
    (hhanded : Handed (own ++ own') old) : Places (own ++ own') old new := by
  rcases h with ⟨hle, added, heq, hnodup, hall⟩
  rcases h' with ⟨hle', added', heq', hnodup', hall'⟩
  rcases hhanded with ⟨hown, hbound⟩
  refine ⟨Nat.le_trans hle hle', added ++ added', by rw [heq', heq, List.append_assoc], ?_, ?_⟩
  · -- a label handed out first is in the old part or old enough, one handed out later is neither
    refine List.nodup_append.2 ⟨hnodup, hnodup', ?_⟩
    rintro label hmem _ hmem' rfl
    rcases hall label hmem with ho | ho <;> rcases hall' label hmem' with ho' | ho'
    · exact (List.nodup_append.1 hown).2.2 label ho label ho' rfl
    · have := hbound label (List.mem_append_left _ ho)
      omega
    · have := hbound label (List.mem_append_right _ ho')
      omega
    · omega
  · intro label hmem
    rcases List.mem_append.1 hmem with hmem | hmem
    · refine (hall label hmem).imp (List.mem_append_left _) ?_
      intro ho
      omega
    · refine (hall' label hmem).imp (List.mem_append_right _) ?_
      intro ho
      omega

/-- The only label that a pushed label places is itself. -/
theorem places_push_label (label : Label) (inlining : Inlining) :
    Places [label] inlining (inlining.push (.label label)) :=
  ⟨Nat.le_refl _, [label], by simp [placed, push, Node.label?], List.nodup_singleton _,
    fun _ hmem => .inl hmem⟩

/-- A pushed node that is no label places none. -/
theorem places_push {node : Node} (hnode : node.label? = none) (inlining : Inlining) :
    Places [] inlining (inlining.push node) :=
  ⟨Nat.le_refl _, [], by simp [placed, push, hnode], List.nodup_nil, nofun⟩

theorem placed_called (count : Nat) (inlining : Inlining) :
    (inlining.called count).placed = inlining.placed := by
  simp [placed, called, Node.label?]

/-- The label behind a copy is none of those in the copy. -/
theorem places_behind {count : Nat}
    (hown : ∀ label ∈ own, old.issued ≤ label.number ∧ label.number < old.issued + count)
    (h : Places own (old.called count) new) :
    Places [] old (new.push (.label ⟨old.issued + count⟩)) := by
  rcases h with ⟨hle, added, hplaced, hadded, hall⟩
  rw [placed_called] at hplaced
  change old.issued + count + 1 ≤ new.issued at hle
  -- the label behind the copy is the first one that the copy itself cannot hand out
  have hnumber : ∀ label ∈ added, old.issued ≤ label.number ∧ label.number < new.issued ∧
      label.number ≠ old.issued + count := by
    intro label hmem
    rcases hall label hmem with ho | ⟨hnew, hnew'⟩
    · have := hown label ho
      omega
    · change old.issued + count + 1 ≤ label.number at hnew
      omega
  refine ⟨Nat.le_trans (by omega) hle, added ++ [⟨old.issued + count⟩], ?_, ?_, ?_⟩
  · rw [← List.append_assoc, ← hplaced]
    simp [placed, push, Node.label?]
  · refine List.nodup_append.2 ⟨hadded, List.nodup_singleton _, ?_⟩
    rintro label hmem _ hlast rfl
    rw [List.mem_singleton.1 hlast] at hmem
    exact (hnumber _ hmem).2.2 rfl
  · intro label hmem
    right
    rcases List.mem_append.1 hmem with hmem | hmem
    · have hnew := hnumber label hmem
      exact ⟨hnew.1, hnew.2.1⟩
    · cases List.mem_singleton.1 hmem
      exact ⟨Nat.le_add_right _ _, hle⟩

end Inlining

namespace Regions

variable {regions : Regions} {body : Body}

/-- A region has no label twice. -/
theorem Cuts.labels_nodup (hc : regions.Cuts body) {number : Nat}
    (hlt : number < regions.regions.size) : (regions.labels number).Nodup := by
  unfold labels
  rw [contents_eq hc (hc.stop_le hlt), List.filterMap_filterMap]
  refine List.Nodup.filterMap ?_ List.nodup_range'
  -- what is put at a position is the node there, so that a label is placed once
  have hlabel : ∀ position label,
      label ∈ (regions.content? number position).bind Node.label? →
        body.nodes[position]? = some (.label label) := by
    intro position label hmem
    rcases Option.bind_eq_some_iff.1 hmem with ⟨node, hcontent, hnode⟩
    cases node with
    | label =>
      cases hnode
      exact (hc.content?_eq_some.1 hcontent).1
    | line | operation => cases hnode
  intro position position' label hmem hmem'
  exact hc.flow.label_unique (hlabel position label hmem) (hlabel position' label hmem')

/-- In a copy, the labels of a subroutine are called by the labels that were handed out. -/
theorem map_freshLabels {number : Nat} (hnodup : (regions.labels number).Nodup) (issued : Nat)
    (names : Renaming) :
    (regions.labels number).map (Renaming.apply (regions.freshLabels number issued :: names)) =
      (List.range' issued (regions.labels number).length).map Label.mk := by
  refine List.ext_getElem (by simp) ?_
  intro index hlt hlt'
  rw [List.length_map] at hlt
  simp only [List.getElem_map, List.getElem_range', Nat.one_mul]
  -- a table of pairs answers by the last of equal keys, and here there are none
  have hdistinct : ((regions.labels number).zipIdx.map fun placed =>
      (placed.1, (⟨issued + placed.2⟩ : Label))).Pairwise fun a b => (a.1 == b.1) = false := by
    rw [List.pairwise_map]
    have hfirst : ((regions.labels number).zipIdx.map Prod.fst).Nodup := by
      rw [List.zipIdx_map_fst]
      exact hnodup
    exact (List.pairwise_map.1 hfirst).imp fun hne => by simpa using hne
  have hfound : (regions.freshLabels number issued)[(regions.labels number)[index]]? =
      some ⟨issued + index⟩ := by
    refine Std.HashMap.getElem?_ofList_of_mem (beq_self_eq_true _) hdistinct (List.mem_map.2 ?_)
    exact ⟨((regions.labels number)[index], index),
      List.mk_mem_zipIdx_iff_getElem?.2 (List.getElem?_eq_getElem hlt), rfl⟩
  simp [Renaming.apply, hfound]

/-- The labels that were handed out for a copy are new. -/
theorem number_of_freshLabels {number issued : Nat} (hnodup : (regions.labels number).Nodup)
    (names : Renaming) : ∀ label ∈ (regions.labels number).map
      (Renaming.apply (regions.freshLabels number issued :: names)),
        issued ≤ label.number ∧ label.number < issued + (regions.labels number).length := by
  rw [map_freshLabels hnodup]
  intro label hmem
  obtain ⟨number, hnumber, rfl⟩ := List.mem_map.1 hmem
  exact List.mem_range'_1.1 hnumber

/-- The labels of a copy are handed out when it starts, each of them once. -/
theorem handed_freshLabels {number : Nat} (hnodup : (regions.labels number).Nodup)
    (names : Renaming) (inlining : Inlining) :
    Inlining.Handed ((regions.labels number).map
      (Renaming.apply (regions.freshLabels number inlining.issued :: names)))
        (inlining.called (regions.labels number).length) := by
  constructor
  · rw [map_freshLabels hnodup]
    exact List.Nodup.map (fun a b h => by cases h; rfl) List.nodup_range'
  · intro label hmem
    exact Nat.lt_succ_of_lt (number_of_freshLabels hnodup names label hmem).2

/-- Copies of subroutines place the names of their labels, and new labels, each of them once. -/
def PlacesOnce (regions : Regions) (copy : CopySubroutine) : Prop :=
  ∀ number names continuation inlining, number < regions.regions.size →
    Inlining.Handed ((regions.labels number).map names.apply) inlining →
      Inlining.Places ((regions.labels number).map names.apply) inlining
        (copy number names continuation inlining)

variable {copy : CopySubroutine}

/-- A copy in the place of a call places new labels only. -/
theorem places_copyCall (hc : regions.Cuts body) (hcopy : regions.PlacesOnce copy)
    (names : Renaming) (target : Label) (inlining : Inlining) :
    Inlining.Places [] inlining (regions.copyCall copy names target inlining) := by
  rw [copyCall_eq]
  have hlt : regions.callee target < regions.regions.size := owner_lt hc _
  have hnodup := hc.labels_nodup hlt
  exact Inlining.places_behind (number_of_freshLabels hnodup names)
    (hcopy _ _ _ _ hlt (handed_freshLabels hnodup names inlining))

/-- A copy of a node places its name if it is a label, and only new labels besides. -/
theorem places_copyNode (hc : regions.Cuts body) (hcopy : regions.PlacesOnce copy)
    (names : Renaming) (continuation : Label) (inlining : Inlining) (node : Node) :
    Inlining.Places (node.label?.toList.map names.apply) inlining
      (regions.copyNode copy names continuation inlining node) := by
  cases node with
  | label label => exact Inlining.places_push_label _ _
  | line number => exact Inlining.places_push rfl _
  | operation operation =>
    cases operation with
    | step instruction => exact Inlining.places_push rfl _
    | branch b =>
      cases b with
      | jsr target => exact places_copyCall hc hcopy names target inlining
      | _ => exact Inlining.places_push rfl _

theorem map_labels_cons (names : Renaming) (node : Node) (nodes : List Node) :
    ((node :: nodes).filterMap Node.label?).map names.apply =
      node.label?.toList.map names.apply ++ (nodes.filterMap Node.label?).map names.apply := by
  cases hlabel : node.label? <;> simp [hlabel]

/-- Nodes that are copied one after the other place their labels. -/
theorem places_foldl (hc : regions.Cuts body) (hcopy : regions.PlacesOnce copy)
    (names : Renaming) (continuation : Label) (nodes : List Node) (inlining : Inlining)
    (hhanded : Inlining.Handed ((nodes.filterMap Node.label?).map names.apply) inlining) :
    Inlining.Places ((nodes.filterMap Node.label?).map names.apply) inlining
      (nodes.foldl (regions.copyNode copy names continuation) inlining) := by
  induction nodes generalizing inlining with
  | nil => exact .refl inlining
  | cons node nodes ih =>
    rw [map_labels_cons] at hhanded ⊢
    have hfirst := places_copyNode hc hcopy names continuation inlining node
    have hrest : Inlining.Handed ((nodes.filterMap Node.label?).map names.apply) inlining :=
      ⟨(List.nodup_append.1 hhanded.1).2.1, fun label hmem =>
        hhanded.2 label (List.mem_append_right _ hmem)⟩
    exact hfirst.append (ih _ (hrest.later hfirst.issued)) hhanded

/-- The only label that may be added behind a copy, at the end of its ranges, is a new one. -/
theorem places_copyRanges (number : Nat) (names : Renaming) (inlining : Inlining) :
    Inlining.Places [] inlining (regions.copyRanges number names inlining) := by
  have hstops : Inlining.Places [] inlining (regions.copyStops number names inlining).2 := by
    rcases copyStops_cases regions number names inlining with heq | heq
    · rw [heq]
      exact .refl inlining
    · rw [heq]
      refine ⟨Nat.le_succ _, [⟨inlining.issued⟩], ?_, List.nodup_singleton _, ?_⟩
      · simp [Inlining.placed, Inlining.fresh, Inlining.push, Node.label?]
      · intro label hmem
        cases List.mem_singleton.1 hmem
        exact .inr ⟨Nat.le_refl _, Nat.lt_succ_self _⟩
  exact ⟨hstops.issued, hstops.placed⟩

/-- A copy of a region places the names of its labels once, if copies of subroutines do. -/
theorem placesOnce_copyRegion (hc : regions.Cuts body) (hcopy : regions.PlacesOnce copy) :
    regions.PlacesOnce (regions.copyRegion copy) := by
  intro number names continuation inlining _ hhanded
  have hnodes := places_foldl hc hcopy names continuation (regions.contents number) inlining hhanded
  have hranges := @places_copyRanges regions number names
    ((regions.contents number).foldl (regions.copyNode copy names continuation) inlining)
  have hall := hnodes.append hranges (by
    rw [List.append_nil]
    exact hhanded)
  rw [List.append_nil] at hall
  exact hall

/-- Copies of subroutines place each of their labels once, up to any depth. -/
theorem placesOnce_copyInside (hc : regions.Cuts body) (depth : Nat) :
    regions.PlacesOnce (regions.copyInside depth) := by
  induction depth with
  | zero =>
    intro _ _ _ inlining _ _
    exact ⟨Nat.le_refl _, [], by simp [copyInside], List.nodup_nil, nofun⟩
  | succ depth ih =>
    change regions.PlacesOnce (regions.copyToDepth depth)
    rw [copyToDepth_eq]
    exact placesOnce_copyRegion hc ih

/-- Copies of regions place each of their labels once, with all that they call. -/
theorem placesOnce_copyToDepth (hc : regions.Cuts body) (depth : Nat) :
    regions.PlacesOnce (regions.copyToDepth depth) := by
  rw [copyToDepth_eq]
  exact placesOnce_copyRegion hc (placesOnce_copyInside hc depth)

/-- The copy of a whole body places the labels of the outer region, and new ones. -/
theorem copyBody_places (hc : regions.Cuts body) {depth issued : Nat}
    (hissued : ∀ label, .label label ∈ body.nodes → label.number < issued) :
    Inlining.Places (regions.labels outer) (.nothing issued) (regions.copyBody depth issued) := by
  have happly : (regions.labels outer).map (Renaming.apply []) = regions.labels outer :=
    List.map_id _
  have hnodup := hc.labels_nodup hc.some_region
  have hbound : ∀ label ∈ regions.labels outer, label.number < issued := by
    intro label hmem
    rcases (hc.mem_labels hc.some_region).1 hmem with ⟨position, _, _, hnode⟩
    exact hissued label (List.mem_of_getElem? hnode)
  have hplaces := placesOnce_copyToDepth hc depth outer [] default
    (Inlining.nothing issued) hc.some_region (by
      rw [happly]
      exact ⟨hnodup, hbound⟩)
  rwa [happly] at hplaces

/-- In the copy of a whole body no label is placed twice. -/
theorem copyBody_label_unique (hc : regions.Cuts body) {depth issued : Nat}
    (hissued : ∀ label, .label label ∈ body.nodes → label.number < issued) {label : Label}
    {place place' : Nat}
    (h : (regions.copyBody depth issued).nodes.toList[place]? = some (.label label))
    (h' : (regions.copyBody depth issued).nodes.toList[place']? = some (.label label)) :
    place = place' := by
  obtain ⟨-, added, hadded, hnodup, -⟩ := @copyBody_places regions body hc depth issued hissued
  refine label_unique_of_nodup ?_ h h'
  have hplaced : (regions.copyBody depth issued).placed = added := hadded
  unfold Inlining.placed at hplaced
  rw [hplaced]
  exact hnodup

end Regions

end Preverification

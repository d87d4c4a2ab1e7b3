import Preverification.Proofs.AllocatedObjects
import Preverification.Proofs.ConsistentBodies
import Preverification.Proofs.InferenceCauses

/-!
# Labels in front of allocations

An object whose constructor has not run is known by the label in front of its allocation.
Allocations without a label are given a fresh one, and nothing else changes: the nodes without these
labels are the nodes that were there. Together with decoding and inlining, which leave hygienic
bodies behind, this is what type inference relies on.

* `Body.addsLabels_labelAllocations`: labels are added in front of allocations, and nothing else
  changes.
* `Body.Hygienic.labelsAllocations`: the allocations of a hygienic body are labelled.
* `Body.CleanlyInlined.prepared`: type inference can trust a body that was decoded, inlined and
  labelled.
-/

namespace Preverification

namespace Node

/-- The node is an allocation. -/
def Allocates (node : Node) : Prop := ∃ type, node = .operation (.step (.new type))

/-- The node places a label. -/
def Places (node : Node) : Prop := ∃ label, node = .label label

/-- Whether the node was there when a number of labels had been handed out. -/
def isOlder (issued : Nat) (node : Node) : Bool :=
  match node.label? with
  | some placed => placed.number < issued
  | none => true

end Node

namespace Body

/-! ### How labels are added -/

/-- From one number of labels up to another one, labels are added in front of allocations that have
none. What stands in front of the first node is known. -/
inductive AddsLabels : (issued : Nat) → (previous : Option Node) → List Node → List Node →
    (last : Nat) → Prop where
  | nil {issued : Nat} {previous : Option Node} : AddsLabels issued previous [] [] issued
  | keep {issued last : Nat} {previous : Option Node} {node : Node} {nodes labelled : List Node} :
      (node.Allocates → ∃ found, previous = some found ∧ found.Places) →
      AddsLabels issued (some node) nodes labelled last →
      AddsLabels issued previous (node :: nodes) (node :: labelled) last
  | add {issued last : Nat} {previous : Option Node} {node : Node} {nodes labelled : List Node} :
      node.Allocates → AddsLabels (issued + 1) (some node) nodes labelled last →
      AddsLabels issued previous (node :: nodes) (.label ⟨issued⟩ :: node :: labelled) last

/-- Nodes are gone through in order, and the one in front is kept in mind. -/
theorem addsLabels_labelAllocationsFrom (done : List Node) (issued : Nat) (nodes : List Node) :
    ∃ labelled, (labelAllocationsFrom done issued nodes).1 = done.reverse ++ labelled ∧
      AddsLabels issued done.head? nodes labelled (labelAllocationsFrom done issued nodes).2 := by
  -- on the nodes that are left; `done` has those in front of them, the last one first
  induction nodes generalizing done issued with
  | nil => exact ⟨[], (List.append_nil _).symm, .nil⟩
  | cons node nodes ih =>
    unfold labelAllocationsFrom
    split
    · rename_i type label earlier
      obtain ⟨labelled, hnodes, hadds⟩ := ih (.operation (.step (.new type)) :: .label label :: earlier)
        issued
      refine ⟨.operation (.step (.new type)) :: labelled, ?_, .keep (fun _ => ?_) hadds⟩
      · rw [hnodes, List.reverse_cons, List.append_assoc, List.singleton_append]
      · exact ⟨_, rfl, label, rfl⟩
    · -- no label stands in front of the allocation, so a fresh one is put there
      rename_i type hnot
      obtain ⟨labelled, hnodes, hadds⟩ :=
        ih (.operation (.step (.new type)) :: .label ⟨issued⟩ :: done) (issued + 1)
      refine ⟨.label ⟨issued⟩ :: .operation (.step (.new type)) :: labelled, ?_,
        .add ⟨type, rfl⟩ hadds⟩
      rw [hnodes]
      simp
    · rename_i hother _
      obtain ⟨labelled, hnodes, hadds⟩ := ih (node :: done) issued
      refine ⟨node :: labelled, ?_, .keep ?_ hadds⟩
      · rw [hnodes, List.reverse_cons, List.append_assoc, List.singleton_append]
      · rintro ⟨type, rfl⟩
        exact (hother type rfl).elim

/-- Labels are added to the nodes of a body. -/
theorem addsLabels_labelAllocations (body : Body) :
    AddsLabels body.issued none body.nodes body.labelAllocations.nodes
      body.labelAllocations.issued := by
  obtain ⟨labelled, hnodes, hadds⟩ := addsLabels_labelAllocationsFrom [] body.issued body.nodes
  rw [List.reverse_nil, List.nil_append] at hnodes
  rw [← hnodes] at hadds
  exact hadds

/-- What stands last behind a node, or else the node. -/
theorem getLast?_cons_or (first : Node) (nodes : List Node) (previous : Option Node) :
    (first :: nodes).getLast?.or previous = nodes.getLast?.or (some first) := by
  rw [List.getLast?_cons]
  cases nodes.getLast? <;> rfl

namespace AddsLabels

variable {issued last start : Nat} {previous : Option Node} {nodes labelled : List Node}

theorem le (h : AddsLabels issued previous nodes labelled last) : issued ≤ last := by
  induction h with
  | nil => exact Nat.le_refl _
  | keep _ _ ih => exact ih
  | add _ _ ih => exact Nat.le_of_succ_le ih

/-- Nodes that were there are kept, in their order. -/
theorem filter_isOlder (h : AddsLabels issued previous nodes labelled last) (hle : start ≤ issued) :
    labelled.filter (Node.isOlder start) = nodes.filter (Node.isOlder start) := by
  induction h with
  | nil => rfl
  | keep _ _ ih => rw [List.filter_cons, List.filter_cons, ih hle]
  | @add issued _ _ _ _ _ _ _ ih =>
    have hadded : ¬ Node.isOlder start (.label ⟨issued⟩) := by
      simp [Node.isOlder, Node.label?, hle]
    rw [List.filter_cons_of_neg hadded, List.filter_cons, List.filter_cons,
      ih (Nat.le_succ_of_le hle)]

/-- The labels are those that were there, and the fresh ones in their order. -/
theorem labels_perm (h : AddsLabels issued previous nodes labelled last) :
    (labelled.filterMap Node.label?).Perm (nodes.filterMap Node.label? ++
      (List.range' issued (last - issued)).map Label.mk) := by
  induction h with
  | nil => simp
  | @keep issued last _ node nodes labelled _ _ ih =>
    rw [List.filterMap_cons, List.filterMap_cons]
    cases node.label? with
    | none => exact ih
    | some label => exact ih.cons label
  | @add issued last _ node nodes labelled hnew hadds ih =>
    obtain ⟨type, rfl⟩ := hnew
    have hcount : last - issued = (last - (issued + 1)) + 1 := by
      have hle := hadds.le
      omega
    rw [hcount, List.range'_succ, List.map_cons]
    exact (ih.cons _).trans List.perm_middle.symm

/-- Every allocation is right behind a label. -/
theorem behind (h : AddsLabels issued previous nodes labelled last) {before behind : List Node}
    {node : Node} (hnodes : labelled = before ++ node :: behind) (hnew : node.Allocates) :
    ∃ found, before.getLast?.or previous = some found ∧ found.Places := by
  induction h generalizing before with
  | nil => simp at hnodes
  | keep hlabel _ ih =>
    cases before with
    | nil =>
      cases hnodes
      exact hlabel hnew
    | cons first before =>
      cases hnodes
      rw [getLast?_cons_or]
      exact ih rfl
  | add _ _ ih =>
    rcases before with _ | ⟨first, _ | ⟨second, before⟩⟩
    · -- a label is no allocation
      obtain ⟨type, rfl⟩ := hnew
      cases hnodes
    · cases hnodes
      exact ⟨_, rfl, _, rfl⟩
    · cases hnodes
      rw [getLast?_cons_or, getLast?_cons_or]
      exact ih rfl

/-- Every label that was added is right in front of an allocation. -/
theorem front (h : AddsLabels issued previous nodes labelled last) {before behind : List Node}
    {label : Label} (hnodes : labelled = before ++ .label label :: behind)
    (hold : .label label ∉ nodes) : ∃ node, behind.head? = some node ∧ node.Allocates := by
  induction h generalizing before with
  | nil => simp at hnodes
  | keep _ _ ih =>
    rw [List.mem_cons, not_or] at hold
    cases before with
    | nil =>
      cases hnodes
      exact absurd rfl hold.1
    | cons first before =>
      cases hnodes
      exact ih rfl hold.2
  -- it is the label that was added, the node behind it, or something later
  | @add _ _ _ node _ _ hnew _ ih =>
    rw [List.mem_cons, not_or] at hold
    rcases before with _ | ⟨first, _ | ⟨second, before⟩⟩
    · cases hnodes
      exact ⟨node, rfl, hnew⟩
    · cases hnodes
      exact absurd rfl hold.1
    · cases hnodes
      exact ih rfl hold.2

end AddsLabels

/-! ### Bodies with labelled allocations -/

/-- What a body has become by labelling its allocations. Each allocation is right behind a label,
which no other allocation is. Nodes that were there are kept in their order, labels that were added
stand in front of allocations, and nothing else has changed. -/
structure LabelsAllocations (body labelled : Body) : Prop where
  behind : ∀ (position : Nat) (type : PoolIndex),
    labelled.nodes[position]? = some (.operation (.step (.new type))) →
      ∃ label, labelBefore labelled.nodes position = some label ∧
        ∀ (other : Nat) (type' : PoolIndex),
          labelled.nodes[other]? = some (.operation (.step (.new type'))) →
            labelBefore labelled.nodes other = some label → other = position
  kept : labelled.nodes.filter (Node.isOlder body.issued) = body.nodes
  added : ∀ (position : Nat) (label : Label), labelled.nodes[position]? = some (.label label) →
    .label label ∉ body.nodes →
      ∃ type, labelled.nodes[position + 1]? = some (.operation (.step (.new type)))
  rest_eq : labelled = { body with nodes := labelled.nodes, issued := labelled.issued }

theorem nodes_split {nodes : List Node} {position : Nat} {node : Node}
    (h : nodes[position]? = some node) :
    nodes = nodes.take position ++ node :: nodes.drop (position + 1) := by
  obtain ⟨hlt, rfl⟩ := List.getElem?_eq_some_iff.1 h
  simp

section LabelAllocations

variable {body : Body} {label : Label}

/-- An allocation of a labelled body has a label. -/
theorem exists_labelBefore (body : Body) {position : Nat} {type : PoolIndex}
    (h : body.labelAllocations.nodes[position]? = some (.operation (.step (.new type)))) :
    ∃ label, labelBefore body.labelAllocations.nodes position = some label := by
  obtain ⟨found, hfound, label, rfl⟩ :=
    body.addsLabels_labelAllocations.behind (nodes_split h) ⟨type, rfl⟩
  rw [Option.or_none, List.getLast?_take] at hfound
  have hlt := (List.getElem?_eq_some_iff.1 h).1
  refine ⟨label, ?_⟩
  unfold labelBefore
  split at hfound
  · cases hfound
  · rename_i hpos
    rw [List.getElem?_eq_getElem (by omega)] at hfound
    rw [if_neg hpos, List.getElem?_eq_getElem (by omega), Option.some.inj hfound]
    rfl

/-- Where the labels of a body were handed out, the nodes that are kept are its nodes. -/
theorem Hygienic.filter_isOlder (h : body.Hygienic) :
    body.labelAllocations.nodes.filter (Node.isOlder body.issued) = body.nodes := by
  rw [body.addsLabels_labelAllocations.filter_isOlder (Nat.le_refl _), List.filter_eq_self]
  intro node hmem
  cases node with
  | line | operation => rfl
  | label label => exact decide_eq_true (h.issued label hmem)

/-- A labelled body has the labels that were there and those that were added. -/
theorem mem_labelAllocations_label : .label label ∈ body.labelAllocations.nodes ↔
    .label label ∈ body.nodes ∨
      body.issued ≤ label.number ∧ label.number < body.labelAllocations.issued := by
  have hle := body.addsLabels_labelAllocations.le
  rw [← mem_filterMap_label, body.addsLabels_labelAllocations.labels_perm.mem_iff, List.mem_append,
    mem_filterMap_label]
  refine or_congr_right ?_
  rw [List.mem_map]
  constructor
  · rintro ⟨number, hnumber, rfl⟩
    rw [List.mem_range'_1] at hnumber
    exact ⟨hnumber.1, show number < _ by omega⟩
  · rintro ⟨hstart, hlast⟩
    exact ⟨label.number, List.mem_range'_1.2 ⟨hstart, by omega⟩, rfl⟩

/-- A labelled body is hygienic, since the labels that are added are fresh. -/
theorem Hygienic.labelAllocations (h : body.Hygienic) : body.labelAllocations.Hygienic where
  unique label place place' := by
    refine label_unique_of_nodup ?_
    rw [body.addsLabels_labelAllocations.labels_perm.nodup_iff, List.nodup_append]
    refine ⟨nodup_of_label_unique h.unique, ?_, ?_⟩
    · exact .map (fun _ _ => Label.mk.inj) List.nodup_range'
    · -- labels that were there have lower numbers
      rintro label hlabel _ hfresh rfl
      obtain ⟨number, hnumber, rfl⟩ := List.mem_map.1 hfresh
      have hlt := h.issued _ (mem_filterMap_label.1 hlabel)
      exact absurd (List.mem_range'_1.1 hnumber).1 (Nat.not_le.2 hlt)
  placed label hmem := by
    refine mem_labelAllocations_label.2 (.inl (h.placed label ?_))
    rcases mem_referencedLabels_iff.1 hmem with ⟨node, hnode, htarget⟩ | hother
    · have hold : node ∈ body.nodes := by
        rw [← h.filter_isOlder]
        refine List.mem_filter.2 ⟨hnode, ?_⟩
        cases node with
        | operation => rfl
        | label | line => cases htarget
      exact mem_referencedLabels hold htarget
    · exact mem_referencedLabels_iff.2 (.inr hother)
  issued label hmem := by
    rcases mem_labelAllocations_label.1 hmem with hold | ⟨-, hlt⟩
    · exact Nat.lt_of_lt_of_le (h.issued label hold) body.addsLabels_labelAllocations.le
    · exact hlt

/-- The allocations of a hygienic body are labelled. -/
theorem Hygienic.labelsAllocations (h : body.Hygienic) :
    body.LabelsAllocations body.labelAllocations where
  behind position type hnode := by
    obtain ⟨label, hlabel⟩ := body.exists_labelBefore hnode
    refine ⟨label, hlabel, fun other type' hother hlabel' => ?_⟩
    obtain ⟨place, rfl, hplace⟩ := labelBefore_eq_some.1 hlabel
    obtain ⟨place', rfl, hplace'⟩ := labelBefore_eq_some.1 hlabel'
    exact congrArg (· + 1) (h.labelAllocations.unique label place' place hplace' hplace)
  kept := h.filter_isOlder
  added position label hnode hnew := by
    obtain ⟨node, hnext, type, rfl⟩ :=
      body.addsLabels_labelAllocations.front (nodes_split hnode) hnew
    rw [List.head?_drop] at hnext
    exact ⟨type, hnext⟩
  rest_eq := rfl

example : labelAllocationsFrom [] 1 [.label ⟨0⟩, .operation (.step (.new 2)), .line 7,
    .operation (.step (.new 2))] =
    ([.label ⟨0⟩, .operation (.step (.new 2)), .line 7, .label ⟨1⟩, .operation (.step (.new 2))], 2) :=
  rfl

end LabelAllocations

/-! ### From code to a body that is prepared -/

variable {body decoded inlined : Body}

/-- A body that was decoded is hygienic. -/
theorem decode_hygienic {code : Code} {pool : Pool} (h : decode code pool = .ok decoded) :
    decoded.Hygienic := by
  obtain ⟨⟨entries, labels, hconsistent⟩, -⟩ := consistent_of_decode h
  obtain ⟨hunique, hplaced⟩ := checkLabels_ok hconsistent.checked
  refine ⟨fun _ _ _ => hunique, hplaced, fun label hmem => ?_⟩
  rw [← mem_filterMap_label, hconsistent.numbered, List.mem_map] at hmem
  obtain ⟨number, hnumber, rfl⟩ := hmem
  exact List.mem_range.1 hnumber

theorem Hygienic.cleanlyInlined (h : decoded.Hygienic) {limits : InliningLimits} {copies : Nat}
    (hinline : decoded.inline limits = .ok (copies, inlined)) : decoded.CleanlyInlined inlined := by
  rcases inline_cases hinline with ⟨hnone, rfl⟩ | ⟨regions, size, hsub, hregions, hsize, heq⟩
  · exact cleanlyInlined_self h hinline hnone
  · exact cleanlyInlined_copyBody h hinline hsub hregions hsize heq

/-- Type inference can trust a body that was decoded and inlined, and whose allocations were
labelled. -/
theorem CleanlyInlined.prepared (h : decoded.CleanlyInlined inlined) :
    inlined.labelAllocations.Prepared where
  toHygienic := h.hygienic.labelAllocations
  no_subroutines operation hmem := by
    refine h.no_subroutines operation ?_
    rw [← h.hygienic.filter_isOlder]
    exact List.mem_filter.2 ⟨hmem, rfl⟩
  labelled position type hnode := by
    obtain ⟨label, hlabel⟩ := inlined.exists_labelBefore hnode
    exact Option.isSome_iff_exists.2 ⟨label, hlabel⟩

end Body

end Preverification

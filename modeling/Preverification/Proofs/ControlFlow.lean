import Preverification.Body.Flow
import Preverification.Proofs.Effects
import Mathlib.Data.Nat.Find

/-!
# Arriving at operations

Where control arrives is said of the nodes themselves: at the first operation from a position on. A
flow of a body answers just that, and finds each label where it is placed.

* `Arrives`: control arrives at the first operation from a position on.
* `Body.placeLabels_ok`: what the labels of some nodes are placed at.
* `Body.flow_describes`: a flow finds labels where they are placed, and operations where control
  arrives.
* `Flow.Describes.operationAt_ok`: a jump to a label arrives at the first operation behind its
  place.
-/

namespace Preverification

/-! ### Operations whose places are replaced -/

section Map

variable {L M N : Type}

/-- Labels are replaced one after the other. -/
theorem Branch.map_map (f : L → M) (g : M → N) (b : Branch L) :
    (b.map f).map g = b.map (g ∘ f) := by
  cases b <;> simp [Branch.map]

theorem Operation.map_map (f : L → M) (g : M → N) (operation : Operation L) :
    (operation.map f).map g = operation.map (g ∘ f) := by
  cases operation with
  | step instruction => rfl
  | branch b => exact congrArg Operation.branch (b.map_map f g)

theorem Operation.map_id (operation : Operation L) : operation.map id = operation := by
  cases operation with
  | step instruction => rfl
  | branch b => cases b <;> simp [map, Branch.map]

/-- The targets are replaced, each on its own. -/
theorem Branch.targets_map (f : L → M) (b : Branch L) : (b.map f).targets = b.targets.map f := by
  cases b <;> simp [Branch.map, Branch.targets]

theorem Operation.targets_map (f : L → M) (operation : Operation L) :
    (operation.map f).targets = operation.targets.map f := by
  cases operation with
  | step instruction => rfl
  | branch b => exact b.targets_map f

/-- What kind of operation it is does not depend on labels. -/
theorem Operation.fallsThrough_map (f : L → M) (operation : Operation L) :
    (operation.map f).fallsThrough = operation.fallsThrough := by
  cases operation with
  | step instruction => rfl
  | branch b => cases b <;> rfl

theorem Operation.isSubroutine_map (f : L → M) (operation : Operation L) :
    (operation.map f).isSubroutine = operation.isSubroutine := by
  cases operation with
  | step instruction => rfl
  | branch b => cases b <;> rfl

/-- Subroutines need two operations: a call and a return. -/
theorem Operation.jsr_or_ret {operation : Operation L} (h : operation.isSubroutine = true) :
    (∃ label, operation = .branch (.jsr label)) ∨ ∃ slot, operation = .branch (.ret slot) := by
  cases operation with
  | step instruction => cases h
  | branch b =>
    cases b with
    | jsr label => exact .inl ⟨label, rfl⟩
    | ret slot => exact .inr ⟨slot, rfl⟩
    | _ => cases h

/-- Only the targets of a branch matter. -/
theorem Branch.map_congr {f g : L → M} {b : Branch L}
    (h : ∀ target ∈ b.targets, f target = g target) : b.map f = b.map g := by
  cases b with
  | ifInt _ _ | ifInts _ _ | ifRefs _ _ | ifNull _ _ | goto _ | jsr _ =>
    unfold map
    dsimp only
    rw [List.forall_mem_singleton.1 h]
  | tableSwitch low default targets =>
    obtain ⟨hdefault, htargets⟩ := List.forall_mem_cons.1 h
    unfold map
    dsimp only
    rw [hdefault, List.map_congr_left htargets]
  | lookupSwitch default cases =>
    obtain ⟨hdefault, hcases⟩ := List.forall_mem_cons.1 h
    unfold map
    dsimp only
    rw [hdefault]
    refine congrArg (lookupSwitch _) (List.map_congr_left ?_)
    rintro ⟨key, target⟩ hcase
    exact Prod.ext rfl (hcases _ (List.mem_map_of_mem hcase))
  | ret _ | returnValue _ | returnVoid | throwException => rfl

theorem Operation.map_congr {f g : L → M} {operation : Operation L}
    (h : ∀ target ∈ operation.targets, f target = g target) : operation.map f = operation.map g := by
  cases operation with
  | step _ => rfl
  | branch b => exact congrArg branch (Branch.map_congr h)

end Map

/-! ### Where control arrives -/

/-- From a position on, a target is the first operation. -/
structure Arrives (nodes : List Node) (position target : Nat) : Prop where
  le : position ≤ target
  operation : ∃ operation, nodes[target]? = some (.operation operation)
  between : ∀ passed, position ≤ passed → passed < target →
    ∀ operation, nodes[passed]? ≠ some (.operation operation)

/-- A label leads to the first operation from where it is placed on. -/
def Label.LeadsTo (nodes : List Node) (label : Label) (target : Nat) : Prop :=
  ∃ place, nodes[place]? = some (.label label) ∧ Arrives nodes place target

section Arrives

variable {nodes : List Node} {position target : Nat}

/-- Control arrives at one place only. -/
theorem Arrives.unique {target' : Nat} (h : Arrives nodes position target)
    (h' : Arrives nodes position target') : target = target' := by
  rcases h.operation with ⟨operation, ho⟩
  rcases h'.operation with ⟨operation', ho'⟩
  -- the one that comes first would be passed on the way to the other
  rcases Nat.lt_trichotomy target target' with hlt | heq | hlt
  · exact absurd ho (h'.between target h.le hlt operation)
  · exact heq
  · exact absurd ho' (h.between target' h'.le hlt operation')

/-- Control that is at an operation has arrived. -/
theorem Arrives.self {operation : Operation Label}
    (h : nodes[position]? = some (.operation operation)) : Arrives nodes position position :=
  ⟨Nat.le_refl _, ⟨operation, h⟩, fun passed hle hlt => absurd hle (by omega)⟩

/-- The place at which control arrives is among the nodes. -/
theorem Arrives.lt_length (h : Arrives nodes position target) : target < nodes.length := by
  rcases h.operation with ⟨operation, ho⟩
  exact (List.getElem?_eq_some_iff.1 ho).1

/-- On the way there are no operations. -/
theorem Arrives.node (h : Arrives nodes position target) {passed : Nat} (hle : position ≤ passed)
    (hlt : passed < target) : ∃ node, nodes[passed]? = some node ∧ node.isOperation = false := by
  have hlength : passed < nodes.length := Nat.lt_trans hlt h.lt_length
  refine ⟨nodes[passed], List.getElem?_eq_getElem hlength, ?_⟩
  have hno := h.between passed hle hlt
  rw [List.getElem?_eq_getElem hlength] at hno
  cases hnode : nodes[passed] with
  | label | line => rfl
  | operation operation => exact absurd (congrArg some hnode) (hno operation)

/-- Passing nodes that are no operations does not change where control arrives. -/
theorem Arrives.of_le {later : Nat} (h : Arrives nodes position target) (hle : position ≤ later)
    (hle' : later ≤ target) : Arrives nodes later target :=
  ⟨hle', h.operation, fun passed hp => h.between passed (by omega)⟩

/-- Passing one node that is no operation. -/
theorem arrives_succ {node : Node} (h : nodes[position]? = some node)
    (hnode : node.isOperation = false) :
    Arrives nodes position target ↔ Arrives nodes (position + 1) target := by
  constructor
  · -- the node itself is no target
    intro ht
    refine ht.of_le (Nat.le_succ position) (Nat.lt_of_le_of_ne ht.le ?_)
    rintro rfl
    rcases ht.operation with ⟨operation, ho⟩
    rw [h] at ho
    cases ho
    cases hnode
  · intro ht
    refine ⟨Nat.le_of_succ_le ht.le, ht.operation, fun passed hle hlt operation ho => ?_⟩
    rcases Nat.eq_or_lt_of_le hle with rfl | hlt'
    · rw [h] at ho
      cases ho
      cases hnode
    · exact ht.between passed hlt' hlt operation ho

/-- Control arrives somewhere if there is an operation. -/
theorem exists_arrives {passed : Nat} (hle : position ≤ passed)
    (h : ∃ operation, nodes[passed]? = some (.operation operation)) :
    ∃ target, Arrives nodes position target := by
  classical
  have hexists : ∃ target, position ≤ target ∧
      ∃ operation, nodes[target]? = some (.operation operation) := ⟨passed, hle, h⟩
  -- the first operation that comes is the least one
  refine ⟨Nat.find hexists, (Nat.find_spec hexists).1, (Nat.find_spec hexists).2, ?_⟩
  intro other hle' hlt operation ho
  exact Nat.find_min hexists hlt ⟨hle', operation, ho⟩

/-- One more node in front moves everything by one. -/
theorem arrives_cons_succ {node : Node} :
    Arrives (node :: nodes) (position + 1) target ↔
      ∃ target', target = target' + 1 ∧ Arrives nodes position target' := by
  constructor
  · intro h
    obtain ⟨target', rfl⟩ : ∃ target', target = target' + 1 :=
      ⟨target - 1, by have := h.le; omega⟩
    refine ⟨target', rfl, by have := h.le; omega, h.operation, ?_⟩
    intro passed hle hlt
    exact h.between (passed + 1) (by omega) (by omega)
  · rintro ⟨target', rfl, h⟩
    refine ⟨by have := h.le; omega, h.operation, ?_⟩
    intro passed hle hlt
    cases passed with
    | zero => omega
    | succ passed => exact h.between passed (by omega) (by omega)

/-- Control stops at the first node if that is an operation. -/
theorem arrives_cons_zero {node : Node} :
    Arrives (node :: nodes) 0 target ↔
      if node.isOperation then target = 0
      else ∃ target', target = target' + 1 ∧ Arrives nodes 0 target' := by
  cases node with
  | operation operation =>
    have hself : Arrives (.operation operation :: nodes) 0 0 := .self rfl
    simp only [Node.isOperation, if_true]
    constructor
    · intro h
      exact h.unique hself
    · rintro rfl
      exact hself
  | label | line =>
    -- a label or a line is passed
    simp only [Node.isOperation, Bool.false_eq_true, if_false]
    rw [← arrives_cons_succ]
    constructor
    · intro h
      refine h.of_le (by omega) ?_
      rcases Nat.eq_zero_or_pos target with rfl | hpos
      · rcases h.operation with ⟨operation, ho⟩
        cases ho
      · exact hpos
    · intro h
      refine ⟨by omega, h.operation, ?_⟩
      intro passed _ hlt
      cases passed with
      | zero => nofun
      | succ passed => exact h.between (passed + 1) (by omega) hlt

end Arrives

/-! ## Flows -/

/-- The list of first operations, for nodes of which the first has a position. -/
def Flow.nextFrom (position : Nat) (nodes : List Node) : List (Option Nat) :=
  (nodes.zipIdx position).foldr (fun (node, position) later =>
    (if node.isOperation then some position else later.head?.join) :: later) [none]

theorem Flow.nextFrom_cons (position : Nat) (node : Node) (nodes : List Node) :
    nextFrom position (node :: nodes) =
      (if node.isOperation then some position else (nextFrom (position + 1) nodes).head?.join) ::
        nextFrom (position + 1) nodes := rfl

/-- The list of a flow tells for each position where control arrives. -/
theorem Flow.nextFrom_eq_some (start : Nat) (nodes : List Node) (position target : Nat) :
    (nextFrom start nodes)[position]?.join = some target ↔
      ∃ target', target = start + target' ∧ Arrives nodes position target' := by
  induction nodes generalizing start position target with
  | nil =>
    have hnone : (nextFrom start [])[position]?.join = none := by
      cases position <;> rfl
    simp only [hnone, reduceCtorEq, false_iff]
    rintro ⟨target', _, h⟩
    have := h.lt_length
    simp at this
  | cons node nodes ih =>
    rw [nextFrom_cons]
    cases position with
    | succ position =>
      -- further behind
      rw [List.getElem?_cons_succ, ih]
      constructor
      · rintro ⟨target', rfl, h⟩
        exact ⟨target' + 1, by omega, arrives_cons_succ.2 ⟨target', rfl, h⟩⟩
      · rintro ⟨_, rfl, h⟩
        rcases arrives_cons_succ.1 h with ⟨target', rfl, h'⟩
        exact ⟨target', by omega, h'⟩
    | zero =>
      -- at the first node, which is an operation or is passed
      simp only [List.getElem?_cons_zero, Option.join_some, arrives_cons_zero]
      split
      · constructor
        · rintro ⟨⟩
          exact ⟨0, rfl, rfl⟩
        · rintro ⟨_, rfl, rfl⟩
          rfl
      · rw [List.head?_eq_getElem?, ih]
        constructor
        · rintro ⟨target', rfl, h⟩
          exact ⟨target' + 1, by omega, target', rfl, h⟩
        · rintro ⟨_, rfl, target', rfl, h⟩
          exact ⟨target', by omega, h⟩

/-- What stands somewhere among some nodes is the first one, or stands among the others. -/
theorem exists_offset_cons {node found : Node} {nodes : List Node} {start position : Nat} :
    (∃ offset, position = start + offset ∧ (node :: nodes)[offset]? = some found) ↔
      position = start ∧ node = found ∨
        ∃ offset, position = start + 1 + offset ∧ nodes[offset]? = some found := by
  constructor
  · rintro ⟨offset, rfl, ho⟩
    cases offset with
    | zero => exact .inl ⟨rfl, Option.some.inj ho⟩
    | succ offset => exact .inr ⟨offset, by omega, ho⟩
  · rintro (⟨rfl, rfl⟩ | ⟨offset, rfl, ho⟩)
    · exact ⟨0, rfl, rfl⟩
    · exact ⟨offset + 1, by omega, ho⟩

/-- What the labels of some nodes are placed at, besides those that were placed before. -/
theorem Body.placeLabels_ok {placed positions : Std.HashMap Label Nat} {start : Nat}
    {nodes : List Node} (h : placeLabels placed start nodes = .ok positions) (label : Label)
    (position : Nat) :
    positions[label]? = some position ↔ placed[label]? = some position ∨
      ∃ offset, position = start + offset ∧ nodes[offset]? = some (.label label) := by
  induction nodes generalizing placed start with
  | nil =>
    cases h
    simp
  | cons node nodes ih =>
    unfold placeLabels at h
    rw [exists_offset_cons]
    cases node with
    | line | operation =>
      -- nodes that place no label only move the others
      rw [ih h]
      simp
    | label first =>
      simp only [Node.label?] at h
      split at h
      · cases h
      · rename_i hnew
        -- a label that is placed was not placed before
        rw [ih h, Std.HashMap.getElem?_insert, Node.label.injEq]
        by_cases hl : first = label
        · subst hl
          have hnone : placed[first]? = none := by simpa using hnew
          simp [hnone, eq_comm]
        · simp [hl]

/-- The label positions of a body are the places of its labels. -/
theorem Body.labelPositions_ok {body : Body} {positions : Std.HashMap Label Nat}
    (h : body.labelPositions = .ok positions) (label : Label) (position : Nat) :
    positions[label]? = some position ↔ body.nodes[position]? = some (.label label) := by
  rw [placeLabels_ok h]
  simp

/-- The labels of some nodes are those that are placed there. -/
theorem mem_filterMap_label {nodes : List Node} {label : Label} :
    label ∈ nodes.filterMap Node.label? ↔ Node.label label ∈ nodes := by
  rw [List.mem_filterMap]
  constructor
  · rintro ⟨node, hmem, hnode⟩
    cases node with
    | label found =>
      obtain rfl := Option.some.inj hnode
      exact hmem
    | line | operation => cases hnode
  · exact fun hmem => ⟨_, hmem, rfl⟩

/-- Where no label is placed twice, a label is at one place. -/
theorem label_unique_of_nodup {nodes : List Node} (h : (nodes.filterMap Node.label?).Nodup)
    {label : Label} {place place' : Nat} (hplace : nodes[place]? = some (.label label))
    (hplace' : nodes[place']? = some (.label label)) : place = place' := by
  have hpairs := List.pairwise_iff_getElem.1 (List.pairwise_filterMap.1 h)
  rcases List.getElem?_eq_some_iff.1 hplace with ⟨hlt, heq⟩
  rcases List.getElem?_eq_some_iff.1 hplace' with ⟨hlt', heq'⟩
  have hlabel : nodes[place].label? = some label := by rw [heq]; rfl
  have hlabel' : nodes[place'].label? = some label := by rw [heq']; rfl
  rcases Nat.lt_trichotomy place place' with hless | hsame | hless
  · exact absurd rfl (hpairs place place' hlt hlt' hless label hlabel label hlabel')
  · exact hsame
  · exact absurd rfl (hpairs place' place hlt' hlt hless label hlabel' label hlabel)

/-- Where each label is at one place, no label is placed twice. -/
theorem nodup_of_label_unique {nodes : List Node}
    (h : ∀ (label : Label) (place place' : Nat), nodes[place]? = some (.label label) →
      nodes[place']? = some (.label label) → place = place') :
    (nodes.filterMap Node.label?).Nodup := by
  refine List.pairwise_filterMap.2 (List.pairwise_iff_getElem.2 ?_)
  rintro place place' hlt hlt' hless label hlabel _ hlabel' rfl
  have hplaced : ∀ {place : Nat} (hlt : place < nodes.length), nodes[place].label? = some label →
      nodes[place]? = some (.label label) := by
    intro place hlt hlabel
    rw [List.getElem?_eq_getElem hlt]
    cases hnode : nodes[place] with
    | label found =>
      rw [hnode] at hlabel
      rw [Option.some.inj hlabel]
    | line | operation =>
      rw [hnode] at hlabel
      cases hlabel
  have heq := h label place place' (hplaced hlt hlabel) (hplaced hlt' hlabel')
  exact Nat.lt_irrefl _ (heq ▸ hless)

/-- Labels that differ from each other, and from those that were placed before, can be placed. -/
theorem Body.exists_placeLabels {placed : Std.HashMap Label Nat} {nodes : List Node} (start : Nat)
    (hnodup : (nodes.filterMap Node.label?).Nodup)
    (hnew : ∀ label ∈ nodes.filterMap Node.label?, label ∉ placed) :
    ∃ positions, placeLabels placed start nodes = .ok positions := by
  induction nodes generalizing placed start with
  | nil => exact ⟨placed, rfl⟩
  | cons node nodes ih =>
    cases node with
    | line | operation => exact ih (start + 1) hnodup hnew
    | label first =>
      obtain ⟨hfirst, hnodup⟩ := List.nodup_cons.1 hnodup
      obtain ⟨hfree, hnew⟩ := List.forall_mem_cons.1 hnew
      have hcontains : placed.contains first = false := by simpa using hfree
      unfold placeLabels
      simp only [Node.label?, hcontains, Bool.false_eq_true, if_false]
      refine ih (start + 1) hnodup fun label hlabel => ?_
      rw [Std.HashMap.mem_insert, beq_iff_eq, not_or]
      exact ⟨fun heq => hfirst (heq ▸ hlabel), hnew label hlabel⟩

/-- The positions of labels that differ are found. -/
theorem Body.exists_labelPositions {body : Body}
    (hnodup : (body.nodes.filterMap Node.label?).Nodup) :
    ∃ positions, body.labelPositions = .ok positions :=
  exists_placeLabels 0 hnodup fun _ _ => Std.HashMap.not_mem_empty

/-- A flow answers where labels are placed and where control arrives. -/
structure Flow.Describes (flow : Flow) (nodes : List Node) : Prop where
  nodes_eq : flow.nodes = nodes.toArray
  position_ok : ∀ label position,
    flow.position label = .ok position ↔ nodes[position]? = some (.label label)
  operationFrom_eq : ∀ position target,
    flow.operationFrom position = some target ↔ Arrives nodes position target

/-- A flow that is found describes the nodes of its body. -/
theorem Body.flow_describes {body : Body} {flow : Flow} (h : body.flow = .ok flow) :
    flow.Describes body.nodes := by
  rcases except_bind_ok.1 h with ⟨positions, hpositions, h⟩
  cases h
  refine ⟨rfl, ?_, ?_⟩
  · intro label position
    rw [← labelPositions_ok hpositions]
    unfold Flow.position
    cases hl : positions[label]? with
    | none => simp [throw, throwThe, MonadExceptOf.throw]
    | some found => simp [pure, Except.pure]
  · intro position target
    have hnext := Flow.nextFrom_eq_some 0 body.nodes position target
    simp only [Nat.zero_add, exists_eq_left'] at hnext
    rw [← hnext]
    unfold Flow.operationFrom
    rw [List.getElem?_toArray]
    rfl

namespace Flow.Describes

variable {flow : Flow} {nodes : List Node}

/-- No label is placed twice. -/
theorem label_unique (hd : flow.Describes nodes) {label : Label} {position position' : Nat}
    (h : nodes[position]? = some (.label label)) (h' : nodes[position']? = some (.label label)) :
    position = position' := by
  have hp := (hd.position_ok label position).2 h
  have hp' := (hd.position_ok label position').2 h'
  rw [hp] at hp'
  exact Except.ok.inj hp'

/-- Only a label that is placed is found. -/
theorem mem_of_operationAt (hd : flow.Describes nodes) {label : Label} {target : Option Nat}
    (h : flow.operationAt label = .ok target) : .label label ∈ nodes := by
  unfold Flow.operationAt at h
  rcases except_bind_ok.1 h with ⟨position, hposition, _⟩
  exact List.mem_of_getElem? ((hd.position_ok label position).1 hposition)

/-- Looking up a label fails if it is not placed, and for no other reason. -/
theorem operationAt_error (hd : flow.Describes nodes) {label : Label} {error : StructuralError}
    (h : flow.operationAt label = .error error) :
    .label label ∉ nodes ∧ error = .unplacedLabel label := by
  unfold Flow.operationAt at h
  cases hposition : flow.position label with
  | ok position =>
    rw [hposition] at h
    cases h
  | error found =>
    rw [hposition] at h
    cases h
    constructor
    · intro hmem
      rcases List.mem_iff_getElem?.1 hmem with ⟨position, hnode⟩
      cases ((hd.position_ok label position).2 hnode).symm.trans hposition
    · unfold Flow.position at hposition
      split at hposition
      · cases hposition
      · cases hposition
        rfl

/-- A jump to a label arrives at the first operation behind its place. -/
theorem operationAt_ok (hd : flow.Describes nodes) {label : Label} {target : Nat} :
    flow.operationAt label = .ok (some target) ↔
      ∃ position, nodes[position]? = some (.label label) ∧ Arrives nodes position target := by
  unfold Flow.operationAt
  rw [except_bind_ok]
  simp only [pure, Except.pure, Except.ok.injEq, hd.position_ok, hd.operationFrom_eq]

end Flow.Describes

end Preverification

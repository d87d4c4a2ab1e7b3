import Preverification.Proofs.CopyLabels
import Preverification.Proofs.Entries
import Preverification.Proofs.Machine

/-!
# Copies inside of copies

Where a run of an inlined body has got to, it is inside of some copies. The innermost one is that of
the region to which the original run has got, and each copy ends where the original run would
return to. A region that is left by a jump to the outer one leaves its calls behind, so nothing is
known about the returns of the outermost copy.

* `Regions.Copied.arrives_iff`: a copy goes on with the copy of the next operation.
* `Regions.Nested`: copies inside of copies, each of which ends where the original would return to.
* `Regions.Nested.outermost`: a jump to the outer region leaves all copies but the outermost one.
* `Regions.Nested.exists_arrives`: where a copy goes on with an operation, the original goes on with
  one.
-/

namespace Preverification

/-! ### Copies of operations -/

namespace Operation

variable {operation : Operation Label}

/-- What stands for an operation in a copy in which labels have certain names and returns lead to a
place. -/
def copied (names : Label → Label) (continuation : Label) : Operation Label → Operation Label
  | branch (.jsr _) => .step .nullConst
  | branch (.ret _) => .branch (.goto continuation)
  | operation => operation.map names

theorem copied_eq (h : operation.isSubroutine = false) (names : Label → Label)
    (continuation : Label) : operation.copied names continuation = operation.map names := by
  cases operation with
  | step instruction => rfl
  | branch b => cases b <;> first | rfl | cases h

theorem seen_eq (h : operation.isSubroutine = false) :
    operation.seen = operation.map fun _ => () := by
  cases operation with
  | step instruction => rfl
  | branch b => cases b <;> first | rfl | cases h

/-- Of an operation and its copy the same is seen. -/
theorem seen_copied (names : Label → Label) (continuation : Label)
    (operation : Operation Label) :
    (operation.copied names continuation).seen = operation.seen := by
  by_cases hsub : operation.isSubroutine
  · obtain ⟨label, rfl⟩ | ⟨slot, rfl⟩ := jsr_or_ret hsub
    · rfl
    · rfl
  · have hsub : operation.isSubroutine = false := by simpa using hsub
    rw [copied_eq hsub, seen_eq hsub, seen_eq (by rwa [isSubroutine_map]), map_map]

/-- Copies need no subroutines. -/
theorem isSubroutine_copied (names : Label → Label) (continuation : Label)
    (operation : Operation Label) :
    (operation.copied names continuation).isSubroutine = false := by
  cases operation with
  | step instruction => rfl
  | branch b => cases b <;> rfl

/-- Only subroutine calls do not fall through, and yet are no jumps. -/
theorem isSubroutine_of_fallsThrough (h : operation.fallsThrough) :
    operation.isSubroutine = false := by
  cases operation with
  | step instruction => rfl
  | branch b => cases b <;> first | rfl | cases h

theorem isReturn_of_not_isSubroutine (h : operation.isSubroutine = false) :
    (Node.operation operation).isReturn = false := by
  cases operation with
  | step instruction => rfl
  | branch b => cases b <;> first | rfl | cases h

end Operation

theorem Node.isReturn_of_isOperation {node : Node} (h : node.isOperation = false) :
    node.isReturn = false := by
  cases node with
  | label | line => rfl
  | operation => cases h

namespace Regions

variable {regions : Regions} {body : Body} {nodes : List Node}

/-- A copy of a region in which called subroutines have been copied as well. -/
def Copied (regions : Regions) (nodes : List Node) : CopyShape :=
  fun number names continuation places =>
    ∃ depth, regions.CopiedToDepth nodes depth number names continuation places

/-- A copy that is allowed more has the same nodes. -/
theorem CopiedNode.mono {shape shape' : CopyShape}
    (hshape : ∀ number names continuation places, shape number names continuation places →
      shape' number names continuation places) {names : Renaming} {continuation : Label}
    {node : Node} {place behind : Nat}
    (h : regions.CopiedNode nodes shape names continuation node place behind) :
    regions.CopiedNode nodes shape' names continuation node place behind := by
  cases node with
  | label | line => exact h
  | operation operation =>
    cases operation with
    | step instruction => exact h
    | branch b =>
      cases b with
      | jsr target =>
        rcases h with ⟨hnull, labels, last, places, hcopy, hrest⟩
        exact ⟨hnull, labels, last, places, hshape _ _ _ _ hcopy, hrest⟩
      | _ => exact h

/-- A copy of a region has a copy of each node of it. -/
theorem Copied.node (hc : regions.Cuts body) {number : Nat} {names : Renaming}
    {continuation : Label} {places : Nat → Nat}
    (h : regions.Copied nodes number names continuation places) {position : Nat} {node : Node}
    (hnode : body.nodes[position]? = some node) (howner : regions.owner position = number) :
    regions.CopiedNode nodes (regions.Copied nodes) names continuation node (places position)
      (places (position + 1)) := by
  rcases h with ⟨depth, h⟩
  rcases hc.owned position (List.getElem?_eq_some_iff.1 hnode).1 with ⟨hstart, hstop⟩
  rw [howner] at hstart hstop
  have hcontent := hc.content?_eq_some.2 ⟨hnode, .inl howner⟩
  cases depth with
  | zero =>
    exact (h position node hstart hstop hcontent).mono fun _ _ _ _ hfalse => hfalse.elim
  | succ depth =>
    exact (h position node hstart hstop hcontent).mono fun _ _ _ _ hcopy => ⟨depth, hcopy⟩

section Copied

variable {number : Nat} {names : Renaming} {continuation : Label} {places : Nat → Nat}
  {position place target : Nat}

/-- An operation of a region stands in a copy of it. -/
theorem Copied.operation (hc : regions.Cuts body)
    (h : regions.Copied nodes number names continuation places) {operation : Operation Label}
    (ho : body.nodes[position]? = some (.operation operation))
    (howner : regions.owner position = number) :
    nodes[places position]? = some (.operation (operation.copied names.apply continuation)) := by
  have hnode := h.node hc ho howner
  cases operation with
  | step instruction => exact hnode.1
  | branch b => cases b <;> exact hnode.1

/-- Behind a node that is no call comes what stands behind its copy. -/
theorem Copied.behind (hc : regions.Cuts body)
    (h : regions.Copied nodes number names continuation places) {node : Node}
    (hnode : body.nodes[position]? = some node)
    (hcall : ∀ target, node ≠ .operation (.branch (.jsr target)))
    (howner : regions.owner position = number) : places (position + 1) = places position + 1 := by
  have hcopied := h.node hc hnode howner
  cases node with
  | label | line => exact hcopied.2
  | operation operation =>
    cases operation with
    | step instruction => exact hcopied.2
    | branch b =>
      cases b with
      | jsr target => exact absurd rfl (hcall target)
      | _ => exact hcopied.2

/-- Passing nodes that are no operations is the same in a copy. -/
theorem Copied.arrives_pass (hc : regions.Cuts body)
    (h : regions.Copied nodes number names continuation places) (hle : position ≤ place)
    (hpass : ∀ passed, position ≤ passed → passed < place → regions.owner passed = number ∧
      ∃ node, body.nodes[passed]? = some node ∧ node.isOperation = false) :
    Arrives nodes (places position) target ↔ Arrives nodes (places place) target := by
  induction place, hle using Nat.le_induction with
  | base => rfl
  | succ place hle ih =>
    rcases hpass place hle (Nat.lt_succ_self place) with ⟨howner, node, hnode, hoperation⟩
    rw [ih fun passed hle hlt => hpass passed hle (Nat.lt_succ_of_lt hlt),
      h.behind hc hnode (by rintro target rfl; cases hoperation) howner]
    have hcopied := h.node hc hnode howner
    cases node with
    | label | line => exact arrives_succ hcopied.1 rfl
    | operation => cases hoperation

/-- A copy goes on with the copy of the next operation. -/
theorem Copied.arrives_iff (hc : regions.Cuts body)
    (h : regions.Copied nodes number names continuation places)
    (ht : Arrives body.nodes position target)
    (howner : ∀ passed, position ≤ passed → passed ≤ target → regions.owner passed = number) :
    Arrives nodes (places position) place ↔ place = places target := by
  rw [h.arrives_pass hc ht.le]
  · rcases ht.operation with ⟨operation, ho⟩
    have hself := Arrives.self (h.operation hc ho (howner target ht.le (Nat.le_refl target)))
    constructor
    · intro hplace
      exact hplace.unique hself
    · rintro rfl
      exact hself
  · intro passed hle hlt
    exact ⟨howner passed hle (Nat.le_of_lt hlt), ht.node hle hlt⟩

end Copied

/-! ### Ends of bodies -/

/-- From a position on there are no operations. -/
def EndsBefore (body : Body) (position : Nat) : Prop :=
  ∀ passed, position ≤ passed → ∀ operation, body.nodes[passed]? ≠ some (.operation operation)

/-- A body goes on from a position if there is an operation. -/
theorem not_endsBefore_iff {position : Nat} : ¬ EndsBefore body position ↔
    ∃ passed, position ≤ passed ∧
      ∃ operation, body.nodes[passed]? = some (.operation operation) := by
  unfold EndsBefore
  simp only [not_forall, not_not, exists_prop]

theorem EndsBefore.later {position later : Nat} (h : EndsBefore body position)
    (hle : position ≤ later) : EndsBefore body later :=
  fun passed hle' => h passed (Nat.le_trans hle hle')

/-- At the end of a body there are no operations. -/
theorem EndsBefore.node {position passed : Nat} (h : EndsBefore body position)
    (hle : position ≤ passed) (hlt : passed < body.nodes.length) :
    ∃ node, body.nodes[passed]? = some node ∧ node.isOperation = false := by
  refine ⟨body.nodes[passed], List.getElem?_eq_getElem hlt, ?_⟩
  have hno := h passed hle
  rw [List.getElem?_eq_getElem hlt] at hno
  cases hnode : body.nodes[passed] with
  | label | line => rfl
  | operation operation => exact absurd (congrArg some hnode) (hno operation)

/-- Before a subroutine ends there is an operation: its return. -/
theorem Cuts.not_endsBefore (hc : regions.Cuts body) {number position : Nat}
    (hne : number ≠ outer) (hlt : number < regions.regions.size)
    (hstop : position < (regions.region number).stop) : ¬ EndsBefore body position := by
  rcases hc.ended number hne hlt with ⟨last, node, heq, hnode, hreturn, _⟩
  cases node with
  | operation operation =>
    intro hend
    exact hend last (by omega) operation hnode
  | label | line => cases hreturn

/-- At the end of a body no subroutine starts. -/
theorem Cuts.owner_succ_of_endsBefore (hc : regions.Cuts body) {position : Nat} {before : Node}
    (hbefore : body.nodes[position]? = some before) (hreturn : before.isReturn = false)
    (hend : EndsBefore body (position + 1)) (hlt : position + 1 < body.nodes.length) :
    regions.owner (position + 1) = regions.owner position := by
  refine hc.stays position before _ hbefore hreturn (List.getElem?_eq_getElem hlt) ?_
  intro label heq hcalls
  rcases hc.entered (position + 1) label (List.getElem?_eq_some_iff.2 ⟨hlt, heq⟩) hcalls with
    ⟨hne, _, _⟩
  exact hc.not_endsBefore hne (hc.known _ hlt) (hc.owned _ hlt).2 hend

/-! ### Chains of copies -/

/-- A called subroutine starts where its label is placed. -/
theorem callee_entered (hc : regions.Cuts body) {position : Nat} {label : Label}
    (hcall : body.nodes[position]? = some (.operation (.branch (.jsr label)))) :
    ∃ place, body.nodes[place]? = some (.label label) ∧
      regions.owner place = regions.callee label ∧ regions.callee label ≠ outer ∧
      (regions.region (regions.callee label)).start = place := by
  have hcalls : body.Calls label := List.mem_of_getElem? hcall
  rcases hc.placed label hcalls with ⟨place, hplace⟩
  rcases hc.entered place label hplace hcalls with ⟨hne, hstart, _⟩
  rw [callee_eq hc hplace]
  exact ⟨place, hplace, rfl, hne, hstart⟩

/-- Copies that are inside of each other, the innermost one of a region with a number. Its labels
have certain names, its returns lead to a place, and its nodes stand at certain places. The original
run has yet to return to certain places. -/
inductive Nested (regions : Regions) (body : Body) (nodes : List Node) :
    Nat → Renaming → Label → (Nat → Nat) → List Nat → Prop where
  | outer {places : Nat → Nat} {returns : List Nat} :
      regions.Copied nodes outer [] default places →
      places body.nodes.length = nodes.length →
      Nested regions body nodes outer [] default places returns
  -- a call is in progress. The label behind it is where the copy returns to
  | call {number position stop : Nat} {names : Renaming} {continuation last target : Label}
      {places inside : Nat → Nat} {returns : List Nat} {labels : Std.HashMap Label Label} :
      Nested regions body nodes number names continuation places returns →
      body.nodes[position]? = some (.operation (.branch (.jsr target))) →
      regions.owner position = number →
      regions.Copied nodes (regions.callee target) (labels :: names) last inside →
      (∀ label, label ∉ regions.labels (regions.callee target) → labels[label]? = none) →
      nodes[stop]? = some (.label last) → places (position + 1) = stop + 1 →
      Nested regions body nodes (regions.callee target) (labels :: names) last inside
        ((position + 1) :: returns)

namespace Nested

variable {number position place target : Nat} {names : Renaming} {continuation : Label}
  {places : Nat → Nat} {returns : List Nat}

theorem copied (h : regions.Nested body nodes number names continuation places returns) :
    regions.Copied nodes number names continuation places := by
  cases h with
  | outer hcopied _ => exact hcopied
  | call _ _ _ hcopied _ _ _ => exact hcopied

/-- A jump to the outer region leaves all copies but the outermost one. -/
theorem outermost (h : regions.Nested body nodes number names continuation places returns)
    (returns' : List Nat) :
    ∃ places, regions.Nested body nodes Regions.outer [] default places returns' := by
  induction h with
  | outer hcopied hlength => exact ⟨_, .outer hcopied hlength⟩
  | call _ _ _ _ _ _ _ ih => exact ih

/-- In all copies, labels of the outer region are called by their own names. -/
theorem apply_of_outer (hc : regions.Cuts body)
    (h : regions.Nested body nodes number names continuation places returns) {label : Label}
    (hplace : body.nodes[place]? = some (.label label))
    (howner : regions.owner place = Regions.outer) : names.apply label = label := by
  induction h with
  | outer => rfl
  | @call _ _ _ names _ _ target _ _ _ labels _ hcall _ _ hlabels _ _ ih =>
    rcases callee_entered hc hcall with ⟨_, _, _, hne, _⟩
    have hnot := hc.not_mem_labels_of_outer hne (owner_lt hc _) hplace howner
    rw [apply_cons_of_none (hlabels label hnot)]
    exact ih

/-- Behind a copy of the outer region there is nothing. -/
theorem length_eq (hc : regions.Cuts body)
    (h : regions.Nested body nodes number names continuation places returns)
    (houter : number = Regions.outer) : places body.nodes.length = nodes.length := by
  cases h with
  | outer _ hlength => exact hlength
  | call _ hcall =>
    rcases callee_entered hc hcall with ⟨_, _, _, hne, _⟩
    exact absurd houter hne

/-- Only regions are copied. -/
theorem number_lt (hc : regions.Cuts body)
    (h : regions.Nested body nodes number names continuation places returns) :
    number < regions.regions.size := by
  cases h with
  | outer => exact hc.some_region
  | call => exact owner_lt hc _

/-- Where a copy goes on with an operation, the original goes on with one. -/
theorem exists_arrives (hc : regions.Cuts body)
    (h : regions.Nested body nodes number names continuation places returns)
    (hlast : number ≠ Regions.outer → position < (regions.region number).stop)
    (howner : EndsBefore body position → position < body.nodes.length →
      regions.owner position = number)
    (hle : position ≤ body.nodes.length) (ht : Arrives nodes (places position) place) :
    ∃ target, Arrives body.nodes position target := by
  by_cases hend : EndsBefore body position
  · -- without an operation, the rest is outer and ends where its copy ends
    exfalso
    have houter : number = Regions.outer := by
      by_contra hne
      exact hc.not_endsBefore hne (h.number_lt hc) (hlast hne) hend
    have hrest : ∀ passed, position ≤ passed → passed < body.nodes.length →
        regions.owner passed = number := by
      intro passed hle
      induction passed, hle using Nat.le_induction with
      | base => exact howner hend
      | succ passed hle ih =>
        intro hlt
        rcases hend.node hle (Nat.lt_of_succ_lt hlt) with ⟨before, hbefore, hoperation⟩
        rw [hc.owner_succ_of_endsBefore hbefore (Node.isReturn_of_isOperation hoperation)
          (hend.later (Nat.le_succ_of_le hle)) hlt]
        exact ih (Nat.lt_of_succ_lt hlt)
    have hpass := (h.copied.arrives_pass hc hle fun passed hle hlt =>
      ⟨hrest passed hle hlt, hend.node hle hlt⟩).1 ht
    rw [h.length_eq hc houter] at hpass
    exact Nat.lt_irrefl _ (Nat.lt_of_le_of_lt hpass.le hpass.lt_length)
  · rcases not_endsBefore_iff.1 hend with ⟨passed, hle, ho⟩
    exact Preverification.exists_arrives hle ho

/-- Behind a node that is no return, the original goes on with an operation if a copy does. -/
theorem exists_arrives_behind (hc : regions.Cuts body)
    (h : regions.Nested body nodes number names continuation places returns) {before : Node}
    (hbefore : body.nodes[position]? = some before) (hreturn : before.isReturn = false)
    (hnumber : regions.owner position = number)
    (ht : Arrives nodes (places (position + 1)) place) :
    ∃ target, Arrives body.nodes (position + 1) target := by
  have hlt := (List.getElem?_eq_some_iff.1 hbefore).1
  refine h.exists_arrives hc ?_ ?_ (Nat.succ_le_of_lt hlt) ht
  · -- a subroutine ends with its return, which does not stand here
    intro hne
    rcases hc.ended number hne (h.number_lt hc) with ⟨last, node, heq, hnode, hnodeReturn, _⟩
    have hstop := (hc.owned position hlt).2
    rw [hnumber, heq] at hstop
    rw [heq]
    refine Nat.succ_lt_succ (Nat.lt_of_le_of_ne (Nat.le_of_lt_succ hstop) ?_)
    rintro rfl
    rw [hbefore] at hnode
    cases hnode
    rw [hreturn] at hnodeReturn
    cases hnodeReturn
  · intro hend hlt'
    rw [hc.owner_succ_of_endsBefore hbefore hreturn hend hlt', hnumber]

end Nested

end Regions

end Preverification

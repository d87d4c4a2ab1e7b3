import Preverification.Proofs.TotalCopies
import Preverification.Proofs.Regions
import Preverification.Subroutine.Inline
import Mathlib.Data.Nat.Init

/-!
# How subroutines are entered

Code outside of a subroutine should enter it through a call alone. What is checked of that is where
control falls from one operation to the next, and where the labels of branches are placed. Nothing
is checked in front of the first operation, behind a call, and from a label on: there control gets
into a subroutine exactly where a label that is called comes in front of the next operation.

* `Regions.EnteredByCalls`: control gets into subroutines by calls alone.
* `Regions.Cuts.enteredByCalls_iff`: where nothing is checked, no label that is called may come
  next.
* `Body.inline_cases`: what inlining does.
* `Body.inline_entered_iff`: inlining succeeds on other bodies as well, and exactly which ones these
  are.
* `Body.fallsBack_not_enteredByCalls`: a subroutine that is entered when it comes back.
-/

namespace Preverification

namespace Regions

variable {regions : Regions} {body : Body}

/-- Control comes from a region to a node, and no call leads there. A jump goes first to the node of
its label, and from there to an operation. -/
inductive Comes (regions : Regions) (nodes : List Node) : Nat → Nat → Prop where
  -- the method is entered
  | start {target : Nat} : Arrives nodes 0 target → Comes regions nodes outer target
  -- control falls through
  | behind {position target : Nat} {operation : Operation Label} :
      nodes[position]? = some (.operation operation) → operation.fallsThrough →
      Arrives nodes (position + 1) target → Comes regions nodes (regions.owner position) target
  -- a call comes back
  | returned {position target : Nat} {label : Label} :
      nodes[position]? = some (.operation (.branch (.jsr label))) →
      Arrives nodes (position + 1) target → Comes regions nodes (regions.owner position) target
  -- a branch goes to a label
  | jump {position place : Nat} {operation : Operation Label} {label : Label} :
      nodes[position]? = some (.operation operation) → operation.isSubroutine = false →
      label ∈ operation.targets → nodes[place]? = some (.label label) →
      Comes regions nodes (regions.owner position) place
  -- a branch or a call goes on from a label
  | onward {position place target : Nat} {operation : Operation Label} {label : Label} :
      nodes[position]? = some (.operation operation) → label ∈ operation.targets →
      nodes[place]? = some (.label label) → Arrives nodes (place + 1) target →
      Comes regions nodes (regions.owner place) target

/-- Control enters a subroutine by calls alone. -/
def EnteredByCalls (regions : Regions) (nodes : List Node) : Prop :=
  ∀ source target, Comes regions nodes source target → mayEnter source (regions.owner target)

/-- The places from which nothing is checked. -/
inductive Unchecked (nodes : List Node) : Nat → Prop where
  | start : Unchecked nodes 0
  | returned {position : Nat} {label : Label} :
      nodes[position]? = some (.operation (.branch (.jsr label))) →
      Unchecked nodes (position + 1)
  | onward {position place : Nat} {operation : Operation Label} {label : Label} :
      nodes[position]? = some (.operation operation) → label ∈ operation.targets →
      nodes[place]? = some (.label label) → Unchecked nodes (place + 1)

/-- A label that is called comes in front of the next operation. -/
def CallsBefore (body : Body) (place target : Nat) : Prop :=
  ∃ position label, place ≤ position ∧ position < target ∧
    body.nodes[position]? = some (.label label) ∧ body.Calls label

namespace Cuts

section Onward

variable {place target : Nat} {before : Node}

/-- On the way to the next operation there is no return. -/
theorem exists_onward (hbefore : body.nodes[place]? = some before)
    (hreturn : before.isReturn = false) (ht : Arrives body.nodes (place + 1) target)
    {position : Nat} (hle : place ≤ position) (hlt : position < target) :
    ∃ node, body.nodes[position]? = some node ∧ node.isReturn = false := by
  have hlength := ht.lt_length
  obtain ⟨node, hnode⟩ : ∃ node, body.nodes[position]? = some node :=
    ⟨_, List.getElem?_eq_getElem (by omega)⟩
  refine ⟨node, hnode, ?_⟩
  -- the node itself, or one that is no operation
  rcases Nat.eq_or_lt_of_le hle with rfl | hlt'
  · rw [hbefore] at hnode
    cases hnode
    exact hreturn
  · cases node with
    | operation operation => exact absurd hnode (ht.between position hlt' hlt operation)
    | label | line => rfl

/-- On the way to the next operation, one step either stays in a region or passes a label that is
called, where a new region starts. -/
theorem onward_step (hc : regions.Cuts body) (hbefore : body.nodes[place]? = some before)
    (hreturn : before.isReturn = false) (ht : Arrives body.nodes (place + 1) target)
    {position : Nat} (hle : place ≤ position) (hlt : position < target) :
    regions.owner (position + 1) = regions.owner position ∨
      regions.owner position < regions.owner (position + 1) ∧
        CallsBefore body (place + 1) target := by
  have hlength := ht.lt_length
  rcases exists_onward hbefore hreturn ht hle hlt with ⟨node, hnode, hnodeReturn⟩
  obtain ⟨after, hafter⟩ : ∃ after, body.nodes[position + 1]? = some after :=
    ⟨_, List.getElem?_eq_getElem (by omega)⟩
  by_cases hentry : ∃ label, after = .label label ∧ body.Calls label
  · rcases hentry with ⟨label, rfl, hcalls⟩
    refine .inr ⟨hc.starts position node label hnode hnodeReturn hafter hcalls, position + 1, label,
      by omega, ?_, hafter, hcalls⟩
    -- the target is an operation, and so it is not the label
    rcases Nat.eq_or_lt_of_le (Nat.succ_le_of_lt hlt) with rfl | hlt'
    · rcases ht.operation with ⟨operation, ho⟩
      rw [hafter] at ho
      cases ho
    · exact hlt'
  · refine .inl (hc.stays position node after hnode hnodeReturn hafter ?_)
    intro label heq hcalls
    exact hentry ⟨label, heq, hcalls⟩

/-- Control stays in a region where no label that is called comes in between. -/
theorem owner_onward (hc : regions.Cuts body) (hbefore : body.nodes[place]? = some before)
    (hreturn : before.isReturn = false) (ht : Arrives body.nodes (place + 1) target)
    (hno : ¬ CallsBefore body (place + 1) target) {position : Nat} (hle : place ≤ position)
    (hle' : position ≤ target) : regions.owner position = regions.owner place := by
  induction position, hle using Nat.le_induction with
  | base => rfl
  | succ position hle ih =>
    rcases hc.onward_step hbefore hreturn ht hle hle' with heq | ⟨_, hcalls⟩
    · exact heq.trans (ih (by omega))
    · exact absurd hcalls hno

theorem owner_le_onward (hc : regions.Cuts body) (hbefore : body.nodes[place]? = some before)
    (hreturn : before.isReturn = false) (ht : Arrives body.nodes (place + 1) target)
    {position : Nat} (hle : place ≤ position) (hle' : position ≤ target) :
    regions.owner place ≤ regions.owner position := by
  induction position, hle using Nat.le_induction with
  | base => exact Nat.le_refl _
  | succ position hle ih =>
    have hstep := hc.onward_step hbefore hreturn ht hle hle'
    have := ih (by omega)
    omega

/-- Control gets into a subroutine of its own where a label that is called comes in between. -/
theorem owner_lt_of_callsBefore (hc : regions.Cuts body)
    (hbefore : body.nodes[place]? = some before) (hreturn : before.isReturn = false)
    (ht : Arrives body.nodes (place + 1) target) (hcalls : CallsBefore body (place + 1) target) :
    regions.owner place < regions.owner target := by
  rcases hcalls with ⟨position, label, hle, hlt, hlabel, hcalled⟩
  obtain ⟨previous, rfl⟩ : ∃ previous, position = previous + 1 := ⟨position - 1, by omega⟩
  rcases exists_onward hbefore hreturn ht (show place ≤ previous by omega) (by omega) with
    ⟨node, hnode, hnodeReturn⟩
  -- up to the label and behind it regions only get further inside
  have hfirst : regions.owner place ≤ regions.owner previous :=
    hc.owner_le_onward hbefore hreturn ht (by omega) (by omega)
  have hlast : regions.owner (previous + 1) ≤ regions.owner target :=
    hc.owner_le_onward hlabel rfl (ht.of_le (by omega) hlt) (Nat.le_of_lt hlt) (Nat.le_refl target)
  have hstarts := hc.starts previous node label hnode hnodeReturn hlabel hcalled
  omega

end Onward

theorem mayEnter_iff {source target : Nat} :
    mayEnter source target ↔ target = source ∨ target = outer := by
  simp [mayEnter]

/-- From the start on control is in the outer region where no label that is called comes in between.
-/
theorem owner_from_start (hc : regions.Cuts body) {target : Nat} (ht : Arrives body.nodes 0 target)
    (hno : ¬ CallsBefore body 0 target) {position : Nat} (hle : position ≤ target) :
    regions.owner position = outer := by
  have hlength := ht.lt_length
  obtain ⟨node, hnode⟩ : ∃ node, body.nodes[0]? = some node :=
    ⟨_, List.getElem?_eq_getElem (by omega)⟩
  -- a label at the very start that is called would come in between
  have hfirst : regions.owner 0 = outer := by
    refine hc.first node hnode ?_
    rintro label rfl hcalls
    refine hno ⟨0, label, Nat.le_refl 0, ?_, hnode, hcalls⟩
    rcases Nat.eq_zero_or_pos target with rfl | hpos
    · rcases ht.operation with ⟨operation, ho⟩
      rw [hnode] at ho
      cases ho
    · exact hpos
  rcases Nat.eq_zero_or_pos target with rfl | hpos
  · rw [Nat.le_zero.1 hle]
    exact hfirst
  · have hreturn : node.isReturn = false := by
      cases node with
      | operation operation => exact absurd hnode (ht.between 0 (Nat.le_refl 0) hpos operation)
      | label | line => rfl
    have hno' : ¬ CallsBefore body (0 + 1) target := by
      rintro ⟨position, label, _, hrest⟩
      exact hno ⟨position, label, Nat.zero_le _, hrest⟩
    rw [hc.owner_onward hnode hreturn (ht.of_le (by omega) hpos) hno' (Nat.zero_le position) hle]
    exact hfirst

/-- The first operation belongs to the outer region unless a label that is called comes first. -/
theorem owner_first_iff (hc : regions.Cuts body) {target : Nat} (ht : Arrives body.nodes 0 target) :
    regions.owner target = outer ↔ ¬ CallsBefore body 0 target := by
  constructor
  · rintro houter ⟨position, label, _, hlt, hlabel, hcalls⟩
    rcases hc.entered position label hlabel hcalls with ⟨hne, _, _⟩
    -- from the label on control is in a subroutine
    have hle := hc.owner_le_onward hlabel rfl (ht.of_le (by omega) hlt) (Nat.le_of_lt hlt)
      (Nat.le_refl target)
    have hzero : outer = 0 := rfl
    omega
  · intro hno
    exact hc.owner_from_start ht hno (Nat.le_refl target)

/-- Behind a node that is no return, control stays in its region unless a label that is called comes
first. -/
theorem mayEnter_onward_iff (hc : regions.Cuts body) {place target : Nat} {before : Node}
    (hbefore : body.nodes[place]? = some before) (hreturn : before.isReturn = false)
    (ht : Arrives body.nodes (place + 1) target) :
    mayEnter (regions.owner place) (regions.owner target) ↔
      ¬ CallsBefore body (place + 1) target := by
  rw [mayEnter_iff]
  constructor
  · intro hmay hcalls
    have hlt := hc.owner_lt_of_callsBefore hbefore hreturn ht hcalls
    have hzero : outer = 0 := rfl
    omega
  · intro hno
    have hle : place ≤ target := Nat.le_of_succ_le ht.le
    exact .inl (hc.owner_onward hbefore hreturn ht hno hle (Nat.le_refl target))

/-- Behind a node that is no return, control does not leave its region. -/
theorem owner_behind (hc : regions.Cuts body) {place target : Nat} {before : Node}
    (hbefore : body.nodes[place]? = some before) (hreturn : before.isReturn = false)
    (ht : Arrives body.nodes (place + 1) target)
    (hmay : mayEnter (regions.owner place) (regions.owner target)) {position : Nat}
    (hle : place ≤ position) (hle' : position ≤ target) :
    regions.owner position = regions.owner place :=
  hc.owner_onward hbefore hreturn ht ((hc.mayEnter_onward_iff hbefore hreturn ht).1 hmay) hle hle'

/-- Control enters subroutines by calls alone exactly where, from the places from which nothing is
checked, no label that is called comes before the next operation. -/
theorem enteredByCalls_iff (hc : regions.Cuts body) (hk : regions.Checked body) :
    regions.EnteredByCalls body.nodes ↔
      ∀ place target, Unchecked body.nodes place → Arrives body.nodes place target →
        ¬ CallsBefore body place target := by
  constructor
  · intro hentered place target hplace ht
    cases hplace with
    | start =>
      rw [← hc.owner_first_iff ht]
      exact (mayEnter_iff.1 (hentered _ _ (.start ht))).elim id id
    | returned hcall =>
      rw [← hc.mayEnter_onward_iff hcall rfl ht]
      exact hentered _ _ (.returned hcall ht)
    | onward ho hlabel hplace =>
      rw [← hc.mayEnter_onward_iff hplace rfl ht]
      exact hentered _ _ (.onward ho hlabel hplace ht)
  · intro hno source target hcomes
    cases hcomes with
    | start ht =>
      rw [(hc.owner_first_iff ht).2 (hno _ _ .start ht)]
      rfl
    | behind ho hf ht => exact hk.falls _ _ _ ho hf ht
    | returned hcall ht =>
      exact (hc.mayEnter_onward_iff hcall rfl ht).2 (hno _ _ (.returned hcall) ht)
    | jump ho hsub hlabel hplace =>
      -- where jumps arrive and where control falls through was checked
      rcases hk.jumps _ _ _ ho hsub hlabel with ⟨place, hplace', hmay⟩
      cases hc.flow.label_unique hplace hplace'
      exact hmay
    | onward ho hlabel hplace ht =>
      exact (hc.mayEnter_onward_iff hplace rfl ht).2 (hno _ _ (.onward ho hlabel hplace) ht)

end Cuts

end Regions

namespace Body

variable {body inlined : Body} {limits : InliningLimits} {copies : Nat}

theorem exists_operations {operation : Operation Label}
    (h : .operation operation ∈ body.nodes) : ∃ label, (label, operation) ∈ body.operations := by
  rcases List.getElem_of_mem h with ⟨position, hlt, hnode⟩
  have hlt' : position < (none :: body.nodes.map Node.label?).length := by
    simp only [List.length_cons, List.length_map]
    omega
  refine ⟨(none :: body.nodes.map Node.label?)[position], List.mem_filterMap.2
    ⟨(body.nodes[position], (none :: body.nodes.map Node.label?)[position]), ?_, by rw [hnode]⟩⟩
  rw [← List.getElem_zip]
  exact List.getElem_mem (by
    rw [List.length_zip]
    exact Nat.lt_min.2 ⟨hlt, hlt'⟩)

/-- A body with a call has subroutines. -/
theorem Calls.hasSubroutines {label : Label} (h : body.Calls label) : body.hasSubroutines := by
  rcases exists_operations h with ⟨before, hmem⟩
  exact List.any_eq_true.2 ⟨_, hmem, rfl⟩

theorem isSubroutine_of_hasSubroutines (h : body.hasSubroutines = false)
    {operation : Operation Label} (hmem : .operation operation ∈ body.nodes) :
    operation.isSubroutine = false := by
  rcases exists_operations hmem with ⟨before, hmem⟩
  exact Bool.eq_false_iff.2 fun hsub =>
    Bool.eq_false_iff.1 h (List.any_eq_true.2 ⟨_, hmem, hsub⟩)

/-- A body with what was copied in the place of its code. -/
def withCopy (body : Body) (inlining : Inlining) : Body :=
  { body with
    nodes := inlining.nodes.toList
    handlers := inlining.handlers.toList
    localVariables := inlining.localVariables.toList
    variableTypes := inlining.variableTypes.toList
    issued := inlining.issued }

@[simp]
theorem withCopy_nodes (body : Body) (inlining : Inlining) :
    (body.withCopy inlining).nodes = inlining.nodes.toList := rfl

@[simp]
theorem withCopy_handlers (body : Body) (inlining : Inlining) :
    (body.withCopy inlining).handlers = inlining.handlers.toList := rfl

/-- A body whose calls can be counted is copied as a whole, within the limits. -/
theorem inline_eq {regions : Regions} {size : ExpandedSize} (hsub : body.hasSubroutines)
    (hregions : body.regions = .ok regions) (hsize : regions.totalSize = .ok size)
    (limits : InliningLimits) :
    body.inline limits =
      if limits.maxDepth < size.depth ∨ limits.maxOperations < size.operations then
        .error (.limitExceeded size.depth size.operations)
      else
        .ok ((regions.copyBody size.depth body.issued).copies,
          body.withCopy (regions.copyBody size.depth body.issued)) := by
  unfold inline
  simp only [hsub, hregions, hsize, bind, Except.bind, Regions.emitBody_eq hregions hsize,
    Bool.not_true, Bool.false_eq_true, if_false]
  split <;> rfl

/-- What inlining does: nothing without subroutines, and otherwise a copy of the whole body. -/
theorem inline_cases (h : body.inline limits = .ok (copies, inlined)) :
    body.hasSubroutines = false ∧ inlined = body ∨
      ∃ regions size, body.hasSubroutines = true ∧ body.regions = .ok regions ∧
        regions.totalSize = .ok size ∧
        inlined = body.withCopy (regions.copyBody size.depth body.issued) := by
  cases hsub : body.hasSubroutines with
  | false =>
    unfold inline at h
    rw [hsub] at h
    cases h
    exact .inl ⟨rfl, rfl⟩
  | true =>
    obtain ⟨regions, size, hregions, hsize⟩ : ∃ regions size, body.regions = .ok regions ∧
        regions.totalSize = .ok size := by
      unfold inline at h
      rw [hsub] at h
      rcases except_bind_ok.1 h with ⟨regions, hregions, h⟩
      rcases except_bind_ok.1 h with ⟨size, hsize, _⟩
      exact ⟨regions, size, hregions, hsize⟩
    rw [inline_eq hsub hregions hsize] at h
    split at h
    · cases h
    · cases h
      exact .inr ⟨regions, size, rfl, hregions, hsize, rfl⟩

/-- What inlining does to the nodes. -/
theorem inline_ok (h : body.inline limits = .ok (copies, inlined)) :
    body.hasSubroutines = false ∧ inlined = body ∨
      ∃ regions size, body.regions = .ok regions ∧ regions.totalSize = .ok size ∧
        inlined.nodes = (regions.copyBody size.depth body.issued).nodes.toList := by
  rcases inline_cases h with hnone | ⟨regions, size, -, hregions, hsize, rfl⟩
  · exact .inl hnone
  · exact .inr ⟨regions, size, hregions, hsize, rfl⟩

/-- A body whose calls can be counted is inlined within wide enough limits. -/
theorem exists_inline {regions : Regions} {size : ExpandedSize} (hsub : body.hasSubroutines)
    (hregions : body.regions = .ok regions) (hsize : regions.totalSize = .ok size)
    (hdepth : size.depth ≤ limits.maxDepth) (hoperations : size.operations ≤ limits.maxOperations) :
    ∃ copies inlined, body.inline limits = .ok (copies, inlined) := by
  refine ⟨_, _, (inline_eq hsub hregions hsize limits).trans (if_neg ?_)⟩
  omega

/-- Inlining succeeds on bodies in which control gets into a subroutine without a call. That does
not happen exactly where no label that is called comes in front of the first operation, between a
call and the operation behind it, or between a label to which control may jump and the operation
behind it. -/
theorem inline_entered_iff {label : Label} (hcall : body.Calls label)
    (h : body.inline limits = .ok (copies, inlined)) :
    ∃ regions, body.regions = .ok regions ∧ (regions.EnteredByCalls body.nodes ↔
      ∀ place target, Regions.Unchecked body.nodes place → Arrives body.nodes place target →
        ¬ Regions.CallsBefore body place target) := by
  obtain ⟨regions, hregions⟩ : ∃ regions, body.regions = .ok regions := by
    rcases inline_ok h with ⟨hsub, _⟩ | ⟨regions, _, hregions, _⟩
    · rw [hcall.hasSubroutines] at hsub
      cases hsub
    · exact ⟨regions, hregions⟩
  rcases regions_ok hregions with ⟨hc, hk⟩
  exact ⟨regions, hregions, hc.enteredByCalls_iff hk⟩

/-! ### A subroutine that is entered when it comes back -/

/-- Calls the subroutine that comes next. Behind the call, it goes on with the subroutine. -/
def fallsBack : Body where
  maxStack := 1
  maxLocals := 2
  nodes :=
    [.operation (.branch (.jsr ⟨0⟩)), .label ⟨0⟩, .operation (.step (.store .reference 1)),
      .operation (.branch (.ret 1))]
  handlers := []
  localVariables := []
  variableTypes := []
  attributes := []
  issued := 1

/-- The regions of `fallsBack`. -/
def fallsBackRegions : Regions where
  flow :=
    { nodes := fallsBack.nodes.toArray
      positions := (∅ : Std.HashMap Label Nat).insert ⟨0⟩ 1
      next := #[some 0, some 2, some 2, some 3, none]
      numbers := #[0, 1, 1, 2, 3] }
  regions :=
    #[{ entry := none, start := 0, stop := 4 }, { entry := some ⟨0⟩, start := 1, stop := 4 }]
  owners := #[0, 1, 1, 1]

theorem fallsBack_regions : fallsBack.regions = .ok fallsBackRegions := by
  have hpositions : fallsBack.labelPositions = .ok fallsBackRegions.flow.positions := by
    simp [fallsBack, fallsBackRegions, labelPositions, placeLabels, Node.label?]
  have hflow : fallsBack.flow = .ok fallsBackRegions.flow := by
    unfold flow
    rw [hpositions]
    rfl
  refine regions_of_scan hflow ?_ ?_ rfl rfl rfl rfl
  · intro label hmem
    rw [List.mem_singleton.1 hmem]
    exact ⟨1, ((flow_describes hflow).position_ok _ _).2 rfl⟩
  · have hcalled : fallsBack.calledLabels = [⟨0⟩] := rfl
    rw [hcalled]
    simp [fallsBack, fallsBackRegions, RegionScan.add, RegionScan.pass, RegionScan.enter,
      RegionScan.leave, RegionScan.current, Regions.outer, Array.modify, Array.modifyM]

theorem fallsBack_inline : ∃ copies inlined, fallsBack.inline ⟨1, 3⟩ = .ok (copies, inlined) := by
  have hcallee : fallsBackRegions.callee ⟨0⟩ = 1 := by
    simp [Regions.callee, fallsBackRegions, Regions.owner]
  have houter : fallsBackRegions.callees 0 = [1] := by
    have hcontents : fallsBackRegions.contents 0 =
        [.operation (.branch (.jsr ⟨0⟩)), .label ⟨0⟩] := rfl
    simp [Regions.callees, hcontents, hcallee]
  have hsize : fallsBackRegions.totalSize = .ok ⟨1, 3⟩ :=
    @Regions.totalSize_of_one_callee fallsBackRegions 1 0 (by decide) (by decide) houter rfl
  exact exists_inline rfl fallsBack_regions hsize (Nat.le_refl 1) (Nat.le_refl 3)

/-- Control gets into the subroutine of `fallsBack` without a call, which inlining does not
notice. -/
theorem fallsBack_not_enteredByCalls :
    (∃ copies inlined, fallsBack.inline ⟨1, 3⟩ = .ok (copies, inlined)) ∧
      fallsBack.Calls ⟨0⟩ ∧ fallsBack.regions = .ok fallsBackRegions ∧
      ¬ fallsBackRegions.EnteredByCalls fallsBack.nodes := by
  refine ⟨fallsBack_inline, .head _, fallsBack_regions, fun hentered => ?_⟩
  have hbehind : Arrives fallsBack.nodes 1 2 :=
    ⟨by decide, ⟨_, rfl⟩, fun passed hle hlt operation => by
      obtain rfl : passed = 1 := by omega
      nofun⟩
  have hcall : fallsBack.nodes[0]? = some (.operation (.branch (.jsr ⟨0⟩))) := rfl
  have hmay := hentered _ _ (.returned hcall hbehind)
  exact absurd hmay (by decide)

/-- What decides about `fallsBack` is the label between the call and the operation behind it. -/
theorem fallsBack_entered_iff : ∃ regions, fallsBack.regions = .ok regions ∧
    (regions.EnteredByCalls fallsBack.nodes ↔
      ∀ place target, Regions.Unchecked fallsBack.nodes place →
        Arrives fallsBack.nodes place target → ¬ Regions.CallsBefore fallsBack place target) := by
  rcases fallsBack_inline with ⟨copies, inlined, hinline⟩
  exact inline_entered_iff (show fallsBack.Calls ⟨0⟩ from .head _) hinline

end Body

end Preverification

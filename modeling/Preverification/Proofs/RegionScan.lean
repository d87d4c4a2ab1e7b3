import Preverification.Subroutine.Region
import Mathlib.Data.List.Induction

/-!
# Scanning for regions

A scan gives each node to the innermost subroutine that runs there. A step passes one node: it may
start a subroutine in front of the node, or end one behind it. What the parts of a step keep true of
the numbers of regions, and what a whole step keeps true of the nodes, is an invariant of the scan.

* `RegionScan.Nested`: regions lie inside of each other, which `Nested.pass`, `Nested.enter` and
  `Nested.leave` keep.
* `RegionScan.Reads`: what the nodes that were passed say about their regions, which `Reads.add`
  keeps in a step.
* `RegionScan.reads_foldl`: so the whole scan says it about all nodes.
-/

namespace Preverification

/-- Whether a node is a return from a subroutine. -/
def Node.isReturn : Node → Bool
  | .operation (.branch (.ret _)) => true
  | _ => false

/-- Returns from subroutines are the only ones. -/
theorem Node.isReturn_iff {node : Node} :
    node.isReturn = true ↔ ∃ slot, node = .operation (.branch (.ret slot)) := by
  constructor
  · intro h
    unfold isReturn at h
    split at h
    · exact ⟨_, rfl⟩
    · cases h
  · rintro ⟨slot, rfl⟩
    rfl

/-- Whether a node is the entry of a subroutine, when the labels that are called are known. -/
def Node.isEntry (called : Std.HashSet Label) : Node → Bool
  | .label l => called.contains l
  | .line _ | .operation _ => false

namespace RegionScan

variable {scan : RegionScan}

/-- The region of a node that was passed. -/
def owner (scan : RegionScan) (position : Nat) : Nat := scan.owners.getD position Regions.outer

/-- A region by its number. -/
def region (scan : RegionScan) (number : Nat) : Region := scan.regions.getD number default

/-- Whether a subroutine has started and not ended. -/
def Runs (scan : RegionScan) (number : Nat) : Prop := ∃ entry, (number, entry) ∈ scan.running

/-- Up to where a region is known to reach. -/
def Within (scan : RegionScan) (number position : Nat) : Prop :=
  (scan.region number).start ≤ position ∧
    (scan.Runs number ∨ position < (scan.region number).stop)

/-- What every part of a step keeps true. The regions inside a region have higher numbers. -/
structure Nested (scan : RegionScan) : Prop where
  some_region : 0 < scan.regions.size
  known : ∀ position < scan.owners.size, scan.owner position < scan.regions.size
  sorted : scan.running.Pairwise fun inner other => other.1 < inner.1
  running : ∀ number, scan.Runs number → 0 < number ∧ number < scan.regions.size
  started : ∀ number, 0 < number → number < scan.regions.size →
    (scan.region number).start ≤ scan.owners.size ∧
      (scan.region number).stop ≤ scan.owners.size ∧ (scan.region number).entry.isSome
  owned : ∀ position < scan.owners.size, scan.owner position ≠ Regions.outer →
    scan.Within (scan.owner position) position
  inside : ∀ number, 0 < number → number < scan.regions.size →
    ∀ position < scan.owners.size, scan.Within number position → number ≤ scan.owner position

/-! ### Parts of a step -/

/-- A node that is passed belongs to the current region. -/
theorem owner_pass (position : Nat) :
    scan.pass.owner position =
      if position = scan.owners.size then scan.current else scan.owner position := by
  unfold owner pass
  simp only [Array.getD_eq_getD_getElem?, Array.getElem?_push]
  split <;> rfl

/-- A subroutine that starts is one more region, which ends where it starts for now. -/
theorem region_enter (scan : RegionScan) (entry : Label) (number : Nat) :
    (scan.enter entry).region number =
      if number = scan.regions.size then
        { entry := some entry, start := scan.owners.size, stop := scan.owners.size }
      else scan.region number := by
  unfold region enter
  simp only [Array.getD_eq_getD_getElem?, Array.getElem?_push]
  split <;> rfl

/-- A region that is entered runs, and so do those that ran before. -/
theorem runs_enter (entry : Label) (number : Nat) :
    (scan.enter entry).Runs number ↔ number = scan.regions.size ∨ scan.Runs number := by
  unfold Runs enter
  simp only [List.mem_cons, Prod.mk.injEq, exists_or]
  exact or_congr_left ⟨fun ⟨_, h, _⟩ => h, fun h => ⟨entry, h, rfl⟩⟩

/-- The current region is the outer one, or runs. -/
theorem current_eq_outer_or_runs (scan : RegionScan) :
    scan.current = Regions.outer ∨ scan.Runs scan.current := by
  unfold current Runs
  cases scan.running with
  | nil => exact .inl rfl
  | cons inner rest => exact .inr ⟨inner.2, List.mem_cons_self⟩

/-- The current region is one of the regions. -/
theorem Nested.current_lt (hn : scan.Nested) : scan.current < scan.regions.size := by
  rcases scan.current_eq_outer_or_runs with hc | hc
  · rw [hc]
    exact hn.some_region
  · exact (hn.running _ hc).2

/-- No running subroutine is further inside than the current one. -/
theorem Nested.le_current (hn : scan.Nested) {number : Nat} (h : scan.Runs number) :
    number ≤ scan.current := by
  rcases h with ⟨entry, hmem⟩
  have hsorted := hn.sorted
  unfold current
  cases hr : scan.running with
  | nil => rw [hr] at hmem; cases hmem
  | cons inner rest =>
    rw [hr] at hmem hsorted
    -- the current subroutine is the one that started last
    rcases List.mem_cons.1 hmem with rfl | hmem
    · exact Nat.le_refl _
    · exact Nat.le_of_lt ((List.pairwise_cons.1 hsorted).1 _ hmem)

/-- Passing a node keeps regions inside of each other. -/
theorem Nested.pass (hn : scan.Nested) : scan.pass.Nested := by
  have hsize : scan.pass.owners.size = scan.owners.size + 1 := by simp [RegionScan.pass]
  have hcurrent : scan.current ≠ Regions.outer → scan.Runs scan.current := fun h =>
    scan.current_eq_outer_or_runs.resolve_left h
  refine ⟨hn.some_region, ?_, hn.sorted, hn.running, ?_, ?_, ?_⟩
  · intro position hlt
    rw [owner_pass]
    split
    · -- the node that is passed belongs to the current region
      exact hn.current_lt
    · exact hn.known position (by omega)
  · intro number hpos hlt
    rcases hn.started number hpos hlt with ⟨hstart, hstop, hentry⟩
    rw [hsize]
    exact ⟨Nat.le_succ_of_le hstart, Nat.le_succ_of_le hstop, hentry⟩
  · intro position hlt howner
    rw [owner_pass] at howner ⊢
    split at howner
    · -- the node that is passed is in the range of its region, for that still runs
      rename_i heq
      subst heq
      rw [if_pos rfl]
      have hruns := hcurrent howner
      rcases hn.running _ hruns with ⟨hpos, hlt⟩
      exact ⟨(hn.started _ hpos hlt).1, .inl hruns⟩
    · rename_i hne
      rw [if_neg hne]
      exact hn.owned position (by omega) howner
  · intro number hpos hlt position hle hwithin
    rw [owner_pass]
    split
    · -- a region whose range has the node either runs, or has ended before it
      rename_i heq
      rcases hwithin.2 with hruns | hstop
      · exact hn.le_current hruns
      · have := (hn.started number hpos hlt).2.1
        change position < (scan.region number).stop at hstop
        omega
    · exact hn.inside number hpos hlt position (by omega) hwithin

/-- Starting a subroutine keeps regions nested. -/
theorem Nested.enter (hn : scan.Nested) (entry : Label) : (scan.enter entry).Nested := by
  have hsize : (scan.enter entry).regions.size = scan.regions.size + 1 := by
    simp [RegionScan.enter]
  -- the ranges of the other regions stay as they are
  have hwithin : ∀ number position, number < scan.regions.size →
      ((scan.enter entry).Within number position ↔ scan.Within number position) := by
    intro number position hlt
    unfold Within
    rw [region_enter, runs_enter, if_neg (by omega)]
    have hne : number ≠ scan.regions.size := by omega
    simp only [hne, false_or]
  refine ⟨by omega, ?_, ?_, ?_, ?_, ?_, ?_⟩
  · intro position hlt
    rw [hsize]
    exact Nat.lt_succ_of_lt (hn.known position hlt)
  · -- the new region has the highest number
    exact List.pairwise_cons.2
      ⟨fun other hmem => (hn.running other.1 ⟨other.2, hmem⟩).2, hn.sorted⟩
  · intro number hruns
    rcases (runs_enter entry number).1 hruns with rfl | hruns
    · exact ⟨hn.some_region, by omega⟩
    · rcases hn.running number hruns with ⟨hpos, hlt⟩
      exact ⟨hpos, by omega⟩
  · intro number hpos hlt
    rw [region_enter]
    split
    · exact ⟨Nat.le_refl _, Nat.le_refl _, rfl⟩
    · exact hn.started number hpos (by omega)
  · -- the regions of the nodes that were passed are older than the new one
    intro position hlt howner
    exact (hwithin _ _ (hn.known position hlt)).2 (hn.owned position hlt howner)
  · intro number hpos hlt position hle hw
    by_cases hnew : number < scan.regions.size
    · exact hn.inside number hpos hnew position hle ((hwithin _ _ hnew).1 hw)
    · -- no node belongs to the new region yet
      have heq : number = scan.regions.size := by omega
      have hstart := hw.1
      rw [region_enter, if_pos heq] at hstart
      exact absurd hstart (by change position < scan.owners.size at hle; simp; omega)

/-! ### Leaving -/

/-- Where no subroutine runs, none is left. -/
theorem leave_of_nil (hr : scan.running = []) : scan.leave = scan := by
  unfold leave
  rw [hr]

/-- When a subroutine ends, nodes keep their regions. -/
theorem owners_leave (scan : RegionScan) : scan.leave.owners = scan.owners := by
  unfold leave
  split <;> rfl

theorem owner_leave (scan : RegionScan) : scan.leave.owner = scan.owner := by
  unfold owner
  rw [owners_leave]

theorem size_leave (scan : RegionScan) : scan.leave.regions.size = scan.regions.size := by
  unfold leave
  split
  · rfl
  · simp

section Leave

variable {number : Nat} {entry : Label} {rest : List (Nat × Label)}

/-- The innermost subroutine runs no longer. -/
theorem running_leave (hr : scan.running = (number, entry) :: rest) :
    scan.leave.running = rest := by
  unfold leave
  rw [hr]

/-- A region that is left ends behind the node that was passed last, and no other region changes. -/
theorem region_leave (hr : scan.running = (number, entry) :: rest)
    (hlt : number < scan.regions.size) (other : Nat) :
    scan.leave.region other =
      if other = number then { scan.region number with stop := scan.owners.size }
      else scan.region other := by
  unfold region leave
  simp only [hr, Array.getD_eq_getD_getElem?, Array.getElem?_modify]
  by_cases heq : other = number
  · subst heq
    simp [Array.getElem?_eq_getElem hlt]
  · simp [heq, Ne.symm heq]

/-- All others go on to run. -/
theorem runs_leave (hr : scan.running = (number, entry) :: rest) (other : Nat) :
    scan.Runs other ↔ other = number ∨ scan.leave.Runs other := by
  unfold Runs
  rw [running_leave hr, hr]
  simp only [List.mem_cons, Prod.mk.injEq, exists_or]
  exact or_congr_left ⟨fun ⟨_, h, _⟩ => h, fun h => ⟨entry, h, rfl⟩⟩

/-- For the nodes that were passed, what has just ended reached as far as it did while it ran. -/
theorem within_leave (hr : scan.running = (number, entry) :: rest)
    (hlt : number < scan.regions.size) (other : Nat) {position : Nat}
    (hp : position < scan.owners.size) :
    scan.leave.Within other position ↔ scan.Within other position := by
  unfold Within
  rw [region_leave hr hlt, runs_leave hr]
  by_cases heq : other = number
  · subst heq
    simp [hp]
  · simp [heq]

end Leave

/-- Ending a subroutine keeps regions inside of each other. -/
theorem Nested.leave (hn : scan.Nested) : scan.leave.Nested := by
  cases hr : scan.running with
  | nil => exact (leave_of_nil hr).symm ▸ hn
  | cons inner rest =>
    -- the innermost region ends here, and the one around it goes on
    rcases inner with ⟨number, entry⟩
    rcases hn.running number ⟨entry, hr ▸ List.mem_cons_self⟩ with ⟨hpos, hlt⟩
    have howners := owners_leave scan
    have howner := owner_leave scan
    have hsize := size_leave scan
    refine ⟨hsize ▸ hn.some_region, ?_, ?_, ?_, ?_, ?_, ?_⟩
    · rw [howners, howner, hsize]
      exact hn.known
    · rw [running_leave hr]
      exact (List.pairwise_cons.1 (hr ▸ hn.sorted)).2
    · intro other h
      rw [hsize]
      exact hn.running other ((runs_leave hr other).2 (.inr h))
    · -- only the stop of the region that is left has changed
      intro other hpos' hlt'
      rcases hn.started other hpos' (hsize ▸ hlt') with ⟨hstart, hstop, hentry⟩
      rw [region_leave hr hlt, howners]
      split
      · rename_i heq
        subst heq
        exact ⟨hstart, Nat.le_refl _, hentry⟩
      · exact ⟨hstart, hstop, hentry⟩
    · intro position hp ho
      rw [howners] at hp
      rw [howner] at ho ⊢
      exact (within_leave hr hlt _ hp).2 (hn.owned position hp ho)
    · intro other hpos' hlt' position hp hw
      rw [howners] at hp
      rw [howner]
      exact hn.inside other hpos' (hsize ▸ hlt') position hp ((within_leave hr hlt _ hp).1 hw)

/-! ### Steps -/

/-- What the nodes that were passed say about their regions. -/
structure Reads (called : Std.HashSet Label) (passed : List Node) (scan : RegionScan) : Prop where
  nested : scan.Nested
  size : scan.owners.size = passed.length
  entered : ∀ position label, passed[position]? = some (.label label) → called.contains label →
    scan.owner position ≠ Regions.outer ∧
      (scan.region (scan.owner position)).start = position ∧
      (scan.region (scan.owner position)).entry = some label
  next : ∀ position before after, passed[position]? = some before → before.isReturn = false →
    passed[position + 1]? = some after →
      if after.isEntry called then scan.owner position < scan.owner (position + 1)
      else scan.owner (position + 1) = scan.owner position
  last : ∀ position before, passed[position]? = some before → before.isReturn = false →
    position + 1 = passed.length → scan.current = scan.owner position
  first : if passed = [] then scan.current = Regions.outer
    else ∀ node, passed[0]? = some node → node.isEntry called = false →
      scan.owner 0 = Regions.outer
  ended : ∀ number, 0 < number → number < scan.regions.size → ¬ scan.Runs number →
    ∃ position node, (scan.region number).stop = position + 1 ∧ passed[position]? = some node ∧
      node.isReturn ∧ scan.owner position = number

/-- What a step does: it starts a subroutine, ends one, or neither. -/
theorem add_cases (called : Std.HashSet Label) (scan : RegionScan) (node : Node) :
    (∃ label, node = .label label ∧ node.isEntry called ∧ node.isReturn = false ∧
        scan.add called node = (scan.enter label).pass) ∨
      (node.isEntry called = false ∧ node.isReturn ∧ scan.add called node = scan.pass.leave) ∨
      (node.isEntry called = false ∧ node.isReturn = false ∧ scan.add called node = scan.pass) := by
  cases node with
  | label label =>
    unfold add
    by_cases hc : called.contains label
    · exact .inl ⟨label, rfl, hc, rfl, if_pos hc⟩
    · exact .inr (.inr ⟨Bool.not_eq_true _ ▸ hc, rfl, if_neg hc⟩)
  | line number => exact .inr (.inr ⟨rfl, rfl, rfl⟩)
  | operation operation =>
    cases operation with
    | step instruction => exact .inr (.inr ⟨rfl, rfl, rfl⟩)
    | branch b =>
      cases b with
      | ret slot => exact .inr (.inl ⟨rfl, rfl, rfl⟩)
      | _ => exact .inr (.inr ⟨rfl, rfl, rfl⟩)

/-- A node belongs to the subroutine that starts there, or else to the current region. -/
theorem owner_add (called : Std.HashSet Label) (node : Node) (position : Nat) :
    (scan.add called node).owner position =
      if position = scan.owners.size then
        if node.isEntry called then scan.regions.size else scan.current
      else scan.owner position := by
  rcases add_cases called scan node with ⟨label, _, he, _, heq⟩ | ⟨he, _, heq⟩ | ⟨he, _, heq⟩
  · rw [heq, if_pos he]
    exact owner_pass position
  · rw [heq, he]
    rw [owner_leave]
    exact owner_pass position
  · rw [heq, he]
    exact owner_pass position

/-- A step passes one node. -/
theorem size_add (called : Std.HashSet Label) (node : Node) :
    (scan.add called node).owners.size = scan.owners.size + 1 := by
  rcases add_cases called scan node with ⟨label, _, _, _, heq⟩ | ⟨_, _, heq⟩ | ⟨_, _, heq⟩
  · simp [heq, pass, enter]
  · rw [heq, owners_leave]
    simp [pass]
  · simp [heq, pass]

/-- A step keeps regions inside of each other. -/
theorem Nested.add (hn : scan.Nested) (called : Std.HashSet Label) (node : Node) :
    (scan.add called node).Nested := by
  rcases add_cases called scan node with ⟨label, _, _, _, heq⟩ | ⟨_, _, heq⟩ | ⟨_, _, heq⟩
  · exact heq ▸ (hn.enter label).pass
  · exact heq ▸ hn.pass.leave
  · exact heq ▸ hn.pass

/-- A step gives no other start or entry to a region. -/
theorem region_add (hn : scan.Nested) (called : Std.HashSet Label) (node : Node) {number : Nat}
    (hlt : number < scan.regions.size) :
    ((scan.add called node).region number).start = (scan.region number).start ∧
      ((scan.add called node).region number).entry = (scan.region number).entry := by
  rcases add_cases called scan node with ⟨label, _, _, _, heq⟩ | ⟨_, _, heq⟩ | ⟨_, _, heq⟩
  · have h := region_enter scan label number
    rw [if_neg (by omega)] at h
    rw [heq]
    change ((scan.enter label).region number).start = _ ∧
      ((scan.enter label).region number).entry = _
    rw [h]
    exact ⟨rfl, rfl⟩
  · rw [heq]
    cases hr : scan.pass.running with
    | nil =>
      rw [leave_of_nil hr]
      exact ⟨rfl, rfl⟩
    | cons inner rest =>
      have hinner : inner.1 < scan.pass.regions.size :=
        (hn.pass.running inner.1 ⟨inner.2, hr ▸ List.mem_cons_self⟩).2
      -- ending a subroutine sets its stop only
      rw [region_leave hr hinner]
      split
      · rename_i heq
        rw [heq]
        exact ⟨rfl, rfl⟩
      · exact ⟨rfl, rfl⟩
  · rw [heq]
    exact ⟨rfl, rfl⟩

/-- An entry starts a region that is known by its label. -/
theorem region_add_entry {called : Std.HashSet Label} {label : Label}
    (hc : called.contains label) :
    (scan.add called (.label label)).region scan.regions.size =
      { entry := some label, start := scan.owners.size, stop := scan.owners.size } := by
  unfold add
  simp only [hc, if_true]
  exact (region_enter scan label _).trans (if_pos rfl)

/-- Behind a node that is no return, the current region is that of the node. -/
theorem current_add {called : Std.HashSet Label} {node : Node} (h : node.isReturn = false) :
    (scan.add called node).current =
      if node.isEntry called then scan.regions.size else scan.current := by
  rcases add_cases called scan node with ⟨label, _, he, _, heq⟩ | ⟨_, hr, _⟩ | ⟨he, _, heq⟩
  · rw [heq, if_pos he]
    rfl
  · rw [h] at hr
    cases hr
  · rw [heq, he]
    rfl

/-- A subroutine that has ended in a step has done so with a return. -/
theorem ended_add (hn : scan.Nested) (called : Std.HashSet Label) (node : Node) {number : Nat}
    (hlt : number < (scan.add called node).regions.size)
    (hended : ¬ (scan.add called node).Runs number) :
    node.isReturn ∧ scan.current = number ∧
        ((scan.add called node).region number).stop = scan.owners.size + 1 ∨
      number < scan.regions.size ∧ ¬ scan.Runs number ∧
        ((scan.add called node).region number).stop = (scan.region number).stop := by
  rcases add_cases called scan node with ⟨label, _, _, _, heq⟩ | ⟨_, hreturn, heq⟩ | ⟨_, _, heq⟩
  · -- an entry ends nothing, and what it starts runs
    rw [heq] at hlt hended ⊢
    have hruns := (runs_enter label number).not.1 hended
    rw [not_or] at hruns
    have hne : number < scan.regions.size := by
      simp only [pass, enter, Array.size_push] at hlt
      omega
    refine .inr ⟨hne, hruns.2, ?_⟩
    have h := region_enter scan label number
    rw [if_neg hruns.1] at h
    exact congrArg Region.stop h
  · rw [heq] at hlt hended ⊢
    -- a return ends the innermost subroutine, if one runs
    cases hr : scan.running with
    | nil =>
      rw [leave_of_nil (show scan.pass.running = [] from hr)] at hlt hended ⊢
      exact .inr ⟨hlt, hended, rfl⟩
    | cons inner rest =>
      have hr' : scan.pass.running = (inner.1, inner.2) :: rest := hr
      have hinner : inner.1 < scan.pass.regions.size :=
        (hn.pass.running inner.1 ⟨inner.2, hr' ▸ List.mem_cons_self⟩).2
      rw [region_leave hr' hinner]
      by_cases hnumber : number = inner.1
      · -- that is the one that has ended
        refine .inl ⟨hreturn, ?_, ?_⟩
        · unfold current
          rw [hr, hnumber]
        · rw [if_pos hnumber]
          simp [pass]
      · -- any other one had ended before
        refine .inr ⟨size_leave scan.pass ▸ hlt, ?_, ?_⟩
        · intro hruns
          rcases (runs_leave hr' number).1 hruns with heq | hruns
          · exact hnumber heq
          · exact hended hruns
        · rw [if_neg hnumber]
          rfl
  · rw [heq] at hlt hended ⊢
    exact .inr ⟨hlt, hended, rfl⟩

/-- A node is one of those that were passed before, or the one that was passed last. -/
theorem getElem?_concat_cases {passed : List Node} {node found : Node} {position : Nat}
    (h : (passed ++ [node])[position]? = some found) :
    position < passed.length ∧ passed[position]? = some found ∨
      position = passed.length ∧ node = found := by
  rcases Nat.lt_trichotomy position passed.length with hlt | heq | hgt
  · rw [List.getElem?_append_left hlt] at h
    exact .inl ⟨hlt, h⟩
  · subst heq
    rw [List.getElem?_concat_length] at h
    exact .inr ⟨rfl, Option.some.inj h⟩
  · rw [List.getElem?_eq_none (by simp; omega)] at h
    cases h

namespace Reads

variable {called : Std.HashSet Label} {passed : List Node} {node : Node} {position : Nat}

/-- The last node belongs to the region that starts there, or to the current one. -/
theorem owner_last (h : Reads called passed scan) (node : Node) :
    (scan.add called node).owner passed.length =
      if node.isEntry called then scan.regions.size else scan.current := by
  rw [owner_add, h.size, if_pos rfl]

/-- The nodes before it keep their regions. -/
theorem owner_before (h : Reads called passed scan) (node : Node)
    (hlt : position < passed.length) :
    (scan.add called node).owner position = scan.owner position ∧
      scan.owner position < scan.regions.size := by
  rw [owner_add, h.size, if_neg (Nat.ne_of_lt hlt)]
  exact ⟨rfl, h.nested.known position (h.size ▸ hlt)⟩

/-- Every entry that was passed has started a region. -/
theorem add_entered (h : Reads called passed scan) {label : Label}
    (hlabel : (passed ++ [node])[position]? = some (.label label))
    (hc : called.contains label) :
    (scan.add called node).owner position ≠ Regions.outer ∧
      ((scan.add called node).region ((scan.add called node).owner position)).start = position ∧
      ((scan.add called node).region ((scan.add called node).owner position)).entry =
        some label := by
  rcases getElem?_concat_cases hlabel with ⟨hlt, hlabel⟩ | ⟨rfl, rfl⟩
  · rcases h.owner_before node hlt with ⟨heq, hknown⟩
    rcases region_add h.nested called node hknown with ⟨hstart, hentry⟩
    rw [heq, hstart, hentry]
    exact h.entered position label hlabel hc
  · -- the subroutine has just been entered
    rw [h.owner_last, if_pos (show (Node.label label).isEntry called from hc),
      region_add_entry hc]
    exact ⟨Nat.ne_of_gt h.nested.some_region, h.size, rfl⟩

/-- From one node to the next one the region changes only at an entry. -/
theorem add_next (h : Reads called passed scan) {before after : Node}
    (hbefore : (passed ++ [node])[position]? = some before) (hreturn : before.isReturn = false)
    (hafter : (passed ++ [node])[position + 1]? = some after) :
    if after.isEntry called then
      (scan.add called node).owner position < (scan.add called node).owner (position + 1)
    else (scan.add called node).owner (position + 1) = (scan.add called node).owner position := by
  rcases getElem?_concat_cases hbefore with ⟨hlt, hbefore⟩ | ⟨rfl, rfl⟩
  · rcases h.owner_before node hlt with ⟨heq, hknown⟩
    rw [heq]
    rcases getElem?_concat_cases hafter with ⟨hlt', hafter⟩ | ⟨hlast, rfl⟩
    · rw [(h.owner_before _ hlt').1]
      exact h.next position before after hbefore hreturn hafter
    · -- the node that was passed last is followed by the one of this step
      rw [hlast, h.owner_last]
      split
      · exact hknown
      · exact h.last position before hbefore hreturn hlast
  · rw [List.getElem?_eq_none (by simp)] at hafter
    cases hafter

/-- Behind the last node the scan is in the region of the node. -/
theorem add_last (h : Reads called passed scan) {before : Node}
    (hbefore : (passed ++ [node])[position]? = some before) (hreturn : before.isReturn = false)
    (hlast : position + 1 = (passed ++ [node]).length) :
    (scan.add called node).current = (scan.add called node).owner position := by
  rw [List.length_append, List.length_singleton] at hlast
  rcases getElem?_concat_cases hbefore with ⟨hlt, _⟩ | ⟨rfl, rfl⟩
  · omega
  · rw [current_add hreturn, h.owner_last]

/-- The first node belongs to the outer region, if it is no entry. -/
theorem add_first (h : Reads called passed scan) {found : Node}
    (hfound : (passed ++ [node])[0]? = some found) (hentry : found.isEntry called = false) :
    (scan.add called node).owner 0 = Regions.outer := by
  have hfirst := h.first
  cases passed with
  | nil =>
    cases hfound
    have hlast := h.owner_last node
    rw [if_pos rfl] at hfirst
    rw [hentry] at hlast
    exact hlast.trans hfirst
  | cons first rest =>
    rw [if_neg (List.cons_ne_nil first rest)] at hfirst
    rw [(h.owner_before node (by simp)).1]
    exact hfirst found hfound hentry

/-- A subroutine that has ended did so behind a return of its own. -/
theorem add_ended (h : Reads called passed scan) {number : Nat} (hpos : 0 < number)
    (hlt : number < (scan.add called node).regions.size)
    (hended : ¬ (scan.add called node).Runs number) :
    ∃ position found, ((scan.add called node).region number).stop = position + 1 ∧
      (passed ++ [node])[position]? = some found ∧ found.isReturn ∧
      (scan.add called node).owner position = number := by
  rcases ended_add h.nested called node hlt hended with
    ⟨hreturn, hcurrent, hstop⟩ | ⟨hlt', hended', hstop⟩
  · -- it has ended in this step, behind the node
    have hentry : node.isEntry called = false := by
      rcases add_cases called scan node with ⟨_, _, _, hr, _⟩ | ⟨he, _, _⟩ | ⟨he, _, _⟩
      · rw [hr] at hreturn
        cases hreturn
      · exact he
      · exact he
    refine ⟨passed.length, node, by rw [hstop, h.size], List.getElem?_concat_length, hreturn, ?_⟩
    rw [h.owner_last, hentry]
    exact hcurrent
  · rcases h.ended number hpos hlt' hended' with
      ⟨position, found, hposition, hfound, hreturn, hownes⟩
    have hbefore := (List.getElem?_eq_some_iff.1 hfound).1
    refine ⟨position, found, hstop.trans hposition, ?_, hreturn,
      (h.owner_before node hbefore).1.trans hownes⟩
    rw [List.getElem?_append_left hbefore, hfound]

/-- A step keeps what the nodes that were passed say. -/
theorem add (h : Reads called passed scan) (node : Node) :
    Reads called (passed ++ [node]) (scan.add called node) where
  nested := h.nested.add called node
  size := by
    rw [size_add, h.size, List.length_append]
    rfl
  entered _ _ := h.add_entered
  next _ _ _ := h.add_next
  last _ _ := h.add_last
  first := by
    rw [if_neg (List.append_ne_nil_of_right_ne_nil passed (List.cons_ne_nil node []))]
    exact fun _ => h.add_first
  ended _ := h.add_ended

end Reads

/-- What holds of regions wherever they start and end holds of all that are found. -/
theorem forall_regions_add {P : Region → Prop} (hnew : ∀ entry start stop, P { entry, start, stop })
    (hstop : ∀ region stop, P region → P { region with stop })
    (h : ∀ region ∈ scan.regions, P region) (called : Std.HashSet Label) (node : Node) :
    ∀ region ∈ (scan.add called node).regions, P region := by
  rcases add_cases called scan node with ⟨label, -, -, -, heq⟩ | ⟨-, -, heq⟩ | ⟨-, -, heq⟩
  · rw [heq]
    intro region hregion
    rcases Array.mem_push.1 hregion with hold | rfl
    · exact h region hold
    · exact hnew _ _ _
  · rw [heq]
    unfold leave
    split
    · exact h
    · intro region hregion
      obtain ⟨number, hnumber⟩ := Array.mem_iff_getElem?.1 hregion
      rw [Array.getElem?_modify] at hnumber
      split at hnumber
      · obtain ⟨found, hfound, rfl⟩ := Option.map_eq_some_iff.1 hnumber
        exact hstop found _ (h found (Array.mem_of_getElem? hfound))
      · exact h region (Array.mem_of_getElem? hnumber)
  · rw [heq]
    exact h

/-- What holds of regions wherever they start and end holds of all regions of a scan. -/
theorem forall_regions_foldl {P : Region → Prop}
    (hnew : ∀ entry start stop, P { entry, start, stop })
    (hstop : ∀ region stop, P region → P { region with stop }) (called : Std.HashSet Label)
    (nodes : List Node) (h : ∀ region ∈ scan.regions, P region) :
    ∀ region ∈ (nodes.foldl (add called) scan).regions, P region := by
  induction nodes generalizing scan with
  | nil => exact h
  | cons node nodes ih => exact ih (forall_regions_add hnew hstop h called node)

/-- The outer region stays as it is. -/
theorem region_outer_add (hn : scan.Nested) (called : Std.HashSet Label) (node : Node) :
    (scan.add called node).region Regions.outer = scan.region Regions.outer := by
  rcases add_cases called scan node with ⟨label, _, _, _, heq⟩ | ⟨_, _, heq⟩ | ⟨_, _, heq⟩
  · rw [heq]
    have h := region_enter scan label Regions.outer
    rw [if_neg (show Regions.outer ≠ _ from Nat.ne_of_lt hn.some_region)] at h
    exact h
  · rw [heq]
    cases hr : scan.pass.running with
    | nil =>
      rw [leave_of_nil hr]
      rfl
    | cons inner rest =>
      rcases hn.pass.running inner.1 ⟨inner.2, hr ▸ List.mem_cons_self⟩ with ⟨hpos, hlt⟩
      rw [region_leave hr hlt, if_neg (show Regions.outer ≠ _ from Nat.ne_of_lt hpos)]
      rfl
  · rw [heq]
    rfl

/-- One region is around nothing. -/
theorem nested_of_start (region : Region) : Nested ⟨#[region], #[], []⟩ where
  some_region := Nat.zero_lt_one
  known _ hlt := absurd hlt (Nat.not_lt_zero _)
  sorted := .nil
  running := by
    rintro number ⟨entry, hmem⟩
    cases hmem
  started number hpos hlt := absurd hlt (Nat.not_lt.2 hpos)
  owned _ hlt := absurd hlt (Nat.not_lt_zero _)
  inside number hpos hlt := absurd hlt (Nat.not_lt.2 hpos)

/-- Where no node was passed, nothing is said. -/
theorem reads_of_start (called : Std.HashSet Label) (region : Region) :
    Reads called [] ⟨#[region], #[], []⟩ where
  nested := nested_of_start region
  size := rfl
  entered _ _ h := by cases h
  next _ _ _ h := by cases h
  last _ _ h := by cases h
  first := rfl
  ended number hpos hlt := absurd hlt (Nat.not_lt.2 hpos)

/-- What a scan that starts with one region says about the nodes. -/
theorem reads_foldl (called : Std.HashSet Label) (region : Region) (nodes : List Node) :
    Reads called nodes (nodes.foldl (add called) ⟨#[region], #[], []⟩) ∧
      (nodes.foldl (add called) ⟨#[region], #[], []⟩).region Regions.outer = region := by
  induction nodes using List.reverseRecOn with
  | nil => exact ⟨reads_of_start called region, rfl⟩
  | append_singleton nodes node ih =>
    -- the nodes are passed one after the other
    rw [List.foldl_append]
    exact ⟨ih.1.add node, (region_outer_add ih.1.nested called node).trans ih.2⟩

end RegionScan

end Preverification

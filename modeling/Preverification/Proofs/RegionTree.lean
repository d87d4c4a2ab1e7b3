import Preverification.Proofs.CallPaths
import Preverification.Proofs.Nesting

/-!
# The tree of regions

A scan starts a subroutine at each label that is called, and a return ends the subroutine that it
belongs to. So two subroutines are apart or inside of each other, each node belongs to the innermost
one that it is in, and a subroutine has one return, its last node.

* `RegionScan.Bounds`, `RegionScan.bounds_foldl`: where subroutines start and end.
* `Regions.Bounded.nested`: two subroutines are apart, or one is inside of the other.
* `Regions.Bounded.belongsToInnermost`: each node belongs to the innermost subroutine that it is in.
* `Body.regions_formsTree`: regions form a tree.
-/

namespace Preverification

namespace RegionScan

variable {scan : RegionScan} {called : Std.HashSet Label} {passed : List Node} {node : Node}

/-! ### Where subroutines start and end -/

/-- The nodes that were passed bound the subroutines that were found. -/
structure Bounds (called : Std.HashSet Label) (passed : List Node) (scan : RegionScan) : Prop where
  -- a subroutine starts at the label by which it is called, and that node belongs to it
  starts : ∀ number, 0 < number → number < scan.regions.size → ∃ label, called.contains label ∧
    (scan.region number).entry = some label ∧
    passed[(scan.region number).start]? = some (.label label) ∧
    scan.owner (scan.region number).start = number
  -- a return ends the subroutine that it belongs to
  returns : ∀ position found, passed[position]? = some found → found.isReturn →
    scan.owner position ≠ Regions.outer →
      ¬ scan.Runs (scan.owner position) ∧
        (scan.region (scan.owner position)).stop = position + 1

/-- A step starts one more subroutine at an entry, and none elsewhere. -/
theorem size_regions_add (called : Std.HashSet Label) (node : Node) :
    (scan.add called node).regions.size =
      if node.isEntry called then scan.regions.size + 1 else scan.regions.size := by
  rcases add_cases called scan node with ⟨label, _, he, _, heq⟩ | ⟨he, _, heq⟩ | ⟨he, _, heq⟩
  · rw [heq, if_pos he]
    simp [pass, enter]
  · rw [heq, he, size_leave]
    rfl
  · rw [heq, he]
    rfl

/-- What runs behind a step has been running in front of it, or starts there. -/
theorem runs_of_add {number : Nat} (h : (scan.add called node).Runs number) :
    number = scan.regions.size ∨ scan.Runs number := by
  rcases add_cases called scan node with ⟨label, _, _, _, heq⟩ | ⟨_, _, heq⟩ | ⟨_, _, heq⟩
  · rw [heq] at h
    exact (runs_enter label number).1 h
  · rw [heq] at h
    cases hr : scan.pass.running with
    | nil =>
      rw [leave_of_nil hr] at h
      exact .inr h
    | cons inner rest => exact .inr ((runs_leave hr number).2 (.inr h))
  · rw [heq] at h
    exact .inr h

/-- The innermost subroutine does not run any more behind its return. -/
theorem Nested.not_runs_leave (hn : scan.Nested) (hcurrent : scan.current ≠ Regions.outer) :
    ¬ scan.leave.Runs scan.current := by
  cases hr : scan.running with
  | nil => exact absurd (by rw [current, hr]) hcurrent
  | cons inner rest =>
    have hinner : scan.current = inner.1 := by rw [current, hr]
    rintro ⟨entry, hmem⟩
    rw [running_leave hr, hinner] at hmem
    -- those that still run have started earlier
    have hlt := (List.pairwise_cons.1 (hr ▸ hn.sorted)).1 _ hmem
    exact Nat.lt_irrefl _ hlt

namespace Bounds

/-- Each subroutine starts at the label that is its entry. -/
theorem add_starts (h : Bounds called passed scan) (hreads : Reads called passed scan)
    {number : Nat} (hpos : 0 < number) (hlt : number < (scan.add called node).regions.size) :
    ∃ label, called.contains label ∧
      ((scan.add called node).region number).entry = some label ∧
      (passed ++ [node])[((scan.add called node).region number).start]? = some (.label label) ∧
      (scan.add called node).owner ((scan.add called node).region number).start = number := by
  by_cases hold : number < scan.regions.size
  · -- it has started before this step
    obtain ⟨label, hcalled, hentry, hlabel, howner⟩ := h.starts number hpos hold
    obtain ⟨hstart', hentry'⟩ := region_add hreads.nested called node hold
    have hpassed := (List.getElem?_eq_some_iff.1 hlabel).1
    rw [hstart', hentry']
    refine ⟨label, hcalled, hentry, ?_, (hreads.owner_before node hpassed).1.trans howner⟩
    rw [List.getElem?_append_left hpassed, hlabel]
  · -- it starts in this step, so the node is an entry
    have hentry : node.isEntry called := by
      by_contra hno
      rw [size_regions_add, if_neg hno] at hlt
      exact hold hlt
    rw [size_regions_add, if_pos hentry] at hlt
    obtain rfl : number = scan.regions.size := by omega
    have howner := hreads.owner_last node
    rw [if_pos hentry] at howner
    cases node with
    | line | operation => cases hentry
    | label label =>
      rw [region_add_entry hentry, hreads.size]
      exact ⟨label, hentry, rfl, List.getElem?_concat_length, howner⟩

/-- A return ends the subroutine that it belongs to, and is its last node. -/
theorem add_returns (h : Bounds called passed scan) (hreads : Reads called passed scan)
    {position : Nat} {found : Node} (hfound : (passed ++ [node])[position]? = some found)
    (hreturn : found.isReturn)
    (howner : (scan.add called node).owner position ≠ Regions.outer) :
    ¬ (scan.add called node).Runs ((scan.add called node).owner position) ∧
      ((scan.add called node).region ((scan.add called node).owner position)).stop =
        position + 1 := by
  have hn := hreads.nested
  have hknown := (hn.add called node).known position
  have hsize : (scan.add called node).owners.size = passed.length + 1 := by
    rw [size_add, hreads.size]
  rcases getElem?_concat_cases hfound with ⟨hlt, hfound⟩ | ⟨rfl, rfl⟩
  · have heq := (hreads.owner_before node hlt).1
    have hold := (hreads.owner_before node hlt).2
    rw [heq] at howner hknown ⊢
    obtain ⟨hended, hstop⟩ := h.returns position found hfound hreturn howner
    have hended' : ¬ (scan.add called node).Runs (scan.owner position) := fun hruns =>
      (runs_of_add hruns).elim (Nat.ne_of_lt hold) hended
    refine ⟨hended', ?_⟩
    -- what had ended before ends where it did
    rcases ended_add hn called node (hknown (by omega)) hended' with
      ⟨_, hcurrent, _⟩ | ⟨_, _, hsame⟩
    · rcases scan.current_eq_outer_or_runs with houter | hruns
      · exact absurd (hcurrent.symm.trans houter) howner
      · exact absurd (hcurrent ▸ hruns) hended
    · exact hsame.trans hstop
  · have hnot : node.isEntry called = false := by
      cases node with
      | label | line => cases hreturn
      | operation => rfl
    have hcurrent : (scan.add called node).owner passed.length = scan.current := by
      rw [hreads.owner_last, hnot]
      rfl
    rw [hcurrent] at howner hknown ⊢
    -- the node that is passed ends the innermost subroutine
    have hended : ¬ (scan.add called node).Runs scan.current := by
      rcases add_cases called scan node with ⟨_, _, _, hr, _⟩ | ⟨_, _, heq⟩ | ⟨_, hr, _⟩
      · rw [hreturn] at hr
        cases hr
      · rw [heq]
        exact hn.pass.not_runs_leave howner
      · rw [hreturn] at hr
        cases hr
    refine ⟨hended, ?_⟩
    rcases ended_add hn called node (hknown (by omega)) hended with ⟨_, _, hstop⟩ | ⟨_, hno, _⟩
    · rw [hstop, hreads.size]
    · exact absurd (scan.current_eq_outer_or_runs.resolve_left howner) hno

/-- A step keeps the bounds of subroutines. -/
theorem add (h : Bounds called passed scan) (hreads : Reads called passed scan) (node : Node) :
    Bounds called (passed ++ [node]) (scan.add called node) where
  starts _ := h.add_starts hreads
  returns _ _ := h.add_returns hreads

end Bounds

/-- The nodes of a body bound the subroutines that a scan finds. -/
theorem bounds_foldl (called : Std.HashSet Label) (region : Region) (nodes : List Node) :
    Bounds called nodes (nodes.foldl (add called) ⟨#[region], #[], []⟩) := by
  induction nodes using List.reverseRecOn with
  | nil => exact ⟨fun number hpos hlt => absurd hlt (Nat.not_lt.2 hpos), nofun⟩
  | append_singleton nodes node ih =>
    rw [List.foldl_append]
    exact ih.add (reads_foldl called region nodes).1 node

end RegionScan

namespace Regions

variable {regions : Regions} {body : Body} {number other position : Nat}

/-- The number of a region that is not the outer one. -/
def IsSubroutine (regions : Regions) (number : Nat) : Prop :=
  number ≠ outer ∧ number < regions.regions.size

/-- The range of a region has a node. -/
def Contains (regions : Regions) (number position : Nat) : Prop :=
  (regions.region number).start ≤ position ∧ position < (regions.region number).stop

/-- The range of a region is inside of that of another one, and is a smaller one at both ends. -/
def Inside (regions : Regions) (inner other : Nat) : Prop :=
  (regions.region other).start < (regions.region inner).start ∧
    (regions.region inner).stop < (regions.region other).stop

/-- The ranges of two regions have no node in common. -/
def Apart (regions : Regions) (number other : Nat) : Prop :=
  ∀ position, ¬ (regions.Contains number position ∧ regions.Contains other position)

/-- Where subroutines start, and where their returns are. -/
structure Bounded (regions : Regions) (body : Body) : Prop where
  starts : ∀ number, regions.IsSubroutine number → ∃ label, body.Calls label ∧
    (regions.region number).entry = some label ∧
    body.nodes[(regions.region number).start]? = some (.label label) ∧
    regions.owner (regions.region number).start = number
  returns : ∀ position node, body.nodes[position]? = some node → node.isReturn →
    regions.owner position ≠ outer →
      (regions.region (regions.owner position)).stop = position + 1

/-- The regions of a scan are bounded. -/
theorem ofNodes_bounded (h : ofNodes body = .ok regions) : regions.Bounded body := by
  have hbounds := RegionScan.bounds_foldl (.ofList body.calledLabels)
    { entry := none, start := 0, stop := body.nodes.length } body.nodes
  obtain ⟨_, _, hscan⟩ := ofNodes_ok.1 h
  rw [hscan] at hbounds
  constructor
  case starts =>
    rintro number ⟨hne, hlt⟩
    obtain ⟨label, hcalled, hrest⟩ := hbounds.starts number (Nat.pos_of_ne_zero hne) hlt
    exact ⟨label, mem_calledLabels.1 (by simpa using hcalled), hrest⟩
  case returns =>
    intro position node hnode hreturn howner
    exact (hbounds.returns position node hnode hreturn howner).2

/-- Regions stay inside of each other when handlers and ranges are given to them. -/
theorem Agrees.bounded {regions' : Regions} (h : regions.Agrees regions')
    (hb : regions.Bounded body) : regions'.Bounded body where
  starts number := by
    obtain ⟨hentry, hstart, _⟩ := h.region_eq number
    rw [IsSubroutine, h.size_eq, h.owner_eq, hentry, hstart]
    exact hb.starts number
  returns position := by
    rw [h.owner_eq, (h.region_eq (regions.owner position)).2.2]
    exact hb.returns position

/-! ### Nested ranges -/

/-- Of two subroutines with a node in common, the one with the higher number is inside of the other
one. -/
theorem Bounded.inside_of_lt (hb : regions.Bounded body) (hc : regions.Cuts body)
    (hn : regions.IsSubroutine number) (ho : regions.IsSubroutine other) (hlt : number < other)
    (hposition : regions.Contains number position) (hposition' : regions.Contains other position) :
    regions.Inside other number := by
  obtain ⟨hstart, hstop⟩ := hposition
  obtain ⟨hstart', hstop'⟩ := hposition'
  obtain ⟨_, _, _, _, howner⟩ := hb.starts number hn
  obtain ⟨last, _, hlast, _, _, hlastOwner⟩ := hc.ended number hn.1 hn.2
  constructor
  · -- otherwise the first node of the outer one would be in the inner one
    by_contra hle
    have := hc.inside other ho.1 ho.2 (regions.region number).start (by omega) (by omega)
    omega
  · -- otherwise its last node would be
    by_contra hle
    have := hc.inside other ho.1 ho.2 last (by omega) (by omega)
    omega

/-- Two subroutines are apart or nested. -/
theorem Bounded.nested (hb : regions.Bounded body) (hc : regions.Cuts body)
    (hn : regions.IsSubroutine number) (ho : regions.IsSubroutine other) (hne : number ≠ other) :
    regions.Apart number other ∨ regions.Inside number other ∨ regions.Inside other number := by
  by_cases hapart : regions.Apart number other
  · exact .inl hapart
  · obtain ⟨position, hposition, hposition'⟩ : ∃ position,
        regions.Contains number position ∧ regions.Contains other position := by
      simpa [Apart] using hapart
    rcases Nat.lt_or_gt_of_ne hne with hlt | hgt
    · exact .inr (.inr (hb.inside_of_lt hc hn ho hlt hposition hposition'))
    · exact .inr (.inl (hb.inside_of_lt hc ho hn hgt hposition' hposition))

/-! ### The tree -/

/-- A node belongs to the smallest subroutine that has it in its range, and to the outer region
where there is none. -/
def BelongsToInnermost (regions : Regions) (position : Nat) : Prop :=
  if regions.owner position = outer then
    ∀ number, regions.IsSubroutine number → ¬ regions.Contains number position
  else
    regions.IsSubroutine (regions.owner position) ∧
      regions.Contains (regions.owner position) position ∧
      ∀ number, regions.IsSubroutine number → regions.Contains number position →
        number ≠ regions.owner position → regions.Inside (regions.owner position) number

/-- A node belongs to the innermost subroutine around it. -/
theorem Bounded.belongsToInnermost (hb : regions.Bounded body) (hc : regions.Cuts body)
    (hlt : position < body.nodes.length) : regions.BelongsToInnermost position := by
  unfold BelongsToInnermost
  split
  · rename_i houter
    rintro number hnumber ⟨hstart, hstop⟩
    have hle := hc.inside number hnumber.1 hnumber.2 position hstart hstop
    rw [houter] at hle
    exact hnumber.1 (Nat.le_zero.1 hle)
  · rename_i hne
    refine ⟨⟨hne, hc.known position hlt⟩, hc.owned position hlt, ?_⟩
    intro number hnumber hcontains hother
    have hle := hc.inside number hnumber.1 hnumber.2 position hcontains.1 hcontains.2
    exact hb.inside_of_lt hc hnumber ⟨hne, hc.known position hlt⟩
      (Nat.lt_of_le_of_ne hle hother) hcontains (hc.owned position hlt)

/-- The regions of a body form a tree, of which the outer region is the root. -/
structure FormsTree (regions : Regions) (body : Body) : Prop where
  -- a subroutine starts at a label that is called
  starts : ∀ number, regions.IsSubroutine number → ∃ label, body.Calls label ∧
    (regions.region number).entry = some label ∧
    body.nodes[(regions.region number).start]? = some (.label label)
  -- each label that is called starts exactly one
  started : ∀ label, body.Calls label → ∃! number, regions.IsSubroutine number ∧
    body.nodes[(regions.region number).start]? = some (.label label)
  -- two subroutines are apart, or one is inside of the other one
  nested : ∀ number other, regions.IsSubroutine number → regions.IsSubroutine other →
    number ≠ other →
      regions.Apart number other ∨ regions.Inside number other ∨ regions.Inside other number
  -- each node belongs to the innermost subroutine that has it
  innermost : ∀ position < body.nodes.length, regions.BelongsToInnermost position
  -- a subroutine ends right behind a return
  ends : ∀ number, regions.IsSubroutine number → ∃ last slot,
    (regions.region number).stop = last + 1 ∧
      body.nodes[last]? = some (.operation (.branch (.ret slot)))
  -- the only return of a subroutine is its last node
  returns : ∀ number, regions.IsSubroutine number → ∀ position,
    (∃ slot, body.nodes[position]? = some (.operation (.branch (.ret slot)))) ∧
        regions.owner position = number ↔
      position + 1 = (regions.region number).stop
  -- the outer region has no return
  outer_returns : ∀ position slot,
    body.nodes[position]? = some (.operation (.branch (.ret slot))) →
      regions.owner position ≠ outer
  -- what a call is known to call is the subroutine that starts at its label
  calls : ∀ position label,
    body.nodes[position]? = some (.operation (.branch (.jsr label))) →
      regions.callee label ∈ regions.callees (regions.owner position) ∧
        regions.IsSubroutine (regions.callee label) ∧
        body.nodes[(regions.region (regions.callee label)).start]? = some (.label label)
  -- all other branches stay in their region, or leave for the outer one
  jumps : ∀ position b label, body.nodes[position]? = some (.operation (.branch b)) →
    (∀ target, b ≠ .jsr target) → label ∈ b.targets →
      ∃ place : Nat, body.nodes[place]? = some (.label label) ∧
        (regions.owner place = regions.owner position ∨ regions.owner place = outer)

/-- A label that is called starts the subroutine that calls of it lead to, and no other one. -/
theorem Bounded.existsUnique (hb : regions.Bounded body) (hc : regions.Cuts body) {label : Label}
    (hcalls : body.Calls label) : ∃! number, regions.IsSubroutine number ∧
      body.nodes[(regions.region number).start]? = some (.label label) := by
  obtain ⟨place, hplace⟩ := hc.placed label hcalls
  obtain ⟨hne, hstart, _⟩ := hc.entered place label hplace hcalls
  have hlt := (List.getElem?_eq_some_iff.1 hplace).1
  refine ⟨regions.owner place, ⟨⟨hne, hc.known place hlt⟩, hstart.symm ▸ hplace⟩, ?_⟩
  rintro number ⟨hnumber, hlabel⟩
  obtain ⟨_, _, _, _, howner⟩ := hb.starts number hnumber
  -- no label is placed twice
  rw [hc.flow.label_unique hlabel hplace] at howner
  exact howner.symm

/-- A call leads to the subroutine that starts at its label. -/
theorem callee_starts (hc : regions.Cuts body) {label : Label}
    (hnode : body.nodes[position]? = some (.operation (.branch (.jsr label)))) :
    regions.callee label ∈ regions.callees (regions.owner position) ∧
      regions.IsSubroutine (regions.callee label) ∧
      body.nodes[(regions.region (regions.callee label)).start]? = some (.label label) := by
  obtain ⟨place, hplace, _, hne, hstart⟩ := callee_entered hc hnode
  refine ⟨?_, ⟨hne, owner_lt hc _⟩, hstart.symm ▸ hplace⟩
  exact (mem_callees hc).2 ⟨position, (mem_callSites hc).2 ⟨label, hnode, rfl, rfl⟩⟩

/-- The return that ends a subroutine is the only one of the subroutine. -/
theorem Bounded.isReturn_iff (hb : regions.Bounded body) (hc : regions.Cuts body)
    (h : regions.IsSubroutine number) :
    (∃ slot, body.nodes[position]? = some (.operation (.branch (.ret slot)))) ∧
        regions.owner position = number ↔
      position + 1 = (regions.region number).stop := by
  constructor
  · rintro ⟨⟨slot, hnode⟩, rfl⟩
    exact (hb.returns position _ hnode rfl h.1).symm
  · intro hstop
    obtain ⟨last, node, hlast, hnode, hreturn, howner⟩ := hc.ended number h.1 h.2
    obtain ⟨slot, rfl⟩ := Node.isReturn_iff.1 hreturn
    obtain rfl : position = last := by omega
    exact ⟨⟨slot, hnode⟩, howner⟩

/-- Jumps and falls stay in a region, or leave subroutines for good. -/
theorem Checked.jumps_stay (hk : regions.Checked body) {b : Branch Label} {label : Label}
    (hnode : body.nodes[position]? = some (.operation (.branch b)))
    (hcall : ∀ target, b ≠ .jsr target) (hlabel : label ∈ b.targets) :
    ∃ place : Nat, body.nodes[place]? = some (.label label) ∧
      (regions.owner place = regions.owner position ∨ regions.owner place = outer) := by
  -- a return names no label, and a call was excluded
  have hsub : (Operation.branch b).isSubroutine = false := by
    cases b with
    | jsr target => exact absurd rfl (hcall target)
    | ret => cases hlabel
    | _ => rfl
  obtain ⟨place, hplace, hmay⟩ := hk.jumps position _ label hnode hsub hlabel
  refine ⟨place, hplace, ?_⟩
  simpa [mayEnter] using hmay

end Regions

namespace Body

open Regions

/-- The regions of a body are bounded. -/
theorem regions_bounded {body : Body} {regions : Regions} (h : body.regions = .ok regions) :
    regions.Bounded body := by
  obtain ⟨bare, hbare, _, hagrees⟩ := regions_agrees h
  exact hagrees.bounded (ofNodes_bounded hbare)

/-- The regions into which a body is cut form a tree: subroutines are nested or apart, start where
they are called and end with their only return, and a node belongs to the innermost one. -/
theorem regions_formsTree {body : Body} {regions : Regions} (h : body.regions = .ok regions) :
    regions.FormsTree body := by
  obtain ⟨hc, hk⟩ := regions_ok h
  have hb := regions_bounded h
  constructor
  case starts =>
    intro number hnumber
    obtain ⟨label, hcalls, hentry, hlabel, -⟩ := hb.starts number hnumber
    exact ⟨label, hcalls, hentry, hlabel⟩
  case started => exact fun _ hcalls => hb.existsUnique hc hcalls
  case nested => exact fun _ _ hn ho hne => hb.nested hc hn ho hne
  case innermost => exact fun _ hlt => hb.belongsToInnermost hc hlt
  case ends =>
    intro number hnumber
    obtain ⟨last, node, hstop, hnode, hreturn, -⟩ := hc.ended number hnumber.1 hnumber.2
    obtain ⟨slot, rfl⟩ := Node.isReturn_iff.1 hreturn
    exact ⟨last, slot, hstop, hnode⟩
  case returns => exact fun _ hnumber _ => hb.isReturn_iff hc hnumber
  case outer_returns => exact hk.returns
  case calls => exact fun _ _ hnode => callee_starts hc hnode
  case jumps => exact fun _ _ _ hnode hcall hlabel => hk.jumps_stay hnode hcall hlabel

/-! ### A subroutine inside of another one -/

/-- Calls a subroutine that calls another one, whose code is in the middle of its own. -/
def oneInside : Body where
  maxStack := 1
  maxLocals := 3
  nodes :=
    [.operation (.branch (.jsr ⟨0⟩)), .operation (.branch .returnVoid), .label ⟨0⟩,
      .operation (.step (.store .reference 1)), .operation (.branch (.jsr ⟨1⟩)),
      .operation (.branch (.goto ⟨2⟩)), .label ⟨1⟩, .operation (.step (.store .reference 2)),
      .operation (.branch (.ret 2)), .label ⟨2⟩, .operation (.branch (.ret 1))]
  handlers := []
  localVariables := []
  variableTypes := []
  attributes := []
  issued := 3

/-- The regions of `oneInside`. -/
def oneInsideRegions : Regions where
  flow :=
    { nodes := oneInside.nodes.toArray
      positions := (((∅ : Std.HashMap Label Nat).insert ⟨0⟩ 2).insert ⟨1⟩ 6).insert ⟨2⟩ 9
      next := #[some 0, some 1, some 3, some 3, some 4, some 5, some 7, some 7, some 8, some 10,
        some 10, none]
      numbers := #[0, 1, 2, 2, 3, 4, 5, 5, 6, 7, 7, 8] }
  regions :=
    #[{ entry := none, start := 0, stop := 11 }, { entry := some ⟨0⟩, start := 2, stop := 11 },
      { entry := some ⟨1⟩, start := 6, stop := 9 }]
  owners := #[0, 0, 1, 1, 1, 1, 2, 2, 2, 1, 1]

theorem oneInside_regions : oneInside.regions = .ok oneInsideRegions := by
  have hpositions : oneInside.labelPositions = .ok oneInsideRegions.flow.positions := by
    simp [oneInside, oneInsideRegions, labelPositions, placeLabels, Node.label?]
  have hflow : oneInside.flow = .ok oneInsideRegions.flow := by
    unfold flow
    rw [hpositions]
    rfl
  have hcalled : oneInside.calledLabels = [⟨0⟩, ⟨1⟩] := rfl
  -- the scan is run node by node, and only its result is compared
  refine regions_of_scan hflow ?_ ?_ ?_ rfl rfl rfl
  · intro label hmem
    have hlabel : label = ⟨0⟩ ∨ label = ⟨1⟩ := by simpa [hcalled] using hmem
    rcases hlabel with rfl | rfl
    · exact ⟨2, ((flow_describes hflow).position_ok _ _).2 rfl⟩
    · exact ⟨6, ((flow_describes hflow).position_ok _ _).2 rfl⟩
  · rw [hcalled]
    simp [oneInside, oneInsideRegions, RegionScan.add, RegionScan.pass, RegionScan.enter,
      RegionScan.leave, RegionScan.current, Regions.outer, Array.modify, Array.modifyM]
  · -- the jump stays in the subroutine from which it goes
    have howner : oneInsideRegions.ownerOf ⟨2⟩ = .ok 1 := by
      unfold Regions.ownerOf
      rw [((flow_describes hflow).position_ok ⟨2⟩ 9).2 rfl]
      rfl
    have hjump : oneInsideRegions.checkJump 1 ⟨2⟩ = .ok () := by
      unfold Regions.checkJump
      rw [howner]
      rfl
    have hgoto : oneInsideRegions.checkOperation 5 (.branch (.goto ⟨2⟩)) = .ok () := by
      rw [Regions.checkOperation_eq _ _ rfl]
      exact except_bind_ok.2 ⟨_, except_forM_ok.2 (List.forall_mem_singleton.2 hjump), rfl⟩
    refine except_forM_ok.2 ?_
    simp only [oneInside, List.zipIdx_cons, List.zipIdx_nil, List.forall_mem_cons]
    exact ⟨rfl, rfl, rfl, rfl, rfl, hgoto, rfl, rfl, rfl, rfl, rfl, List.forall_mem_nil _⟩

/-- In `oneInside` the range of the subroutine that is called last is inside of that of the other
one. -/
theorem oneInside_formsTree : oneInside.regions = .ok oneInsideRegions ∧
    oneInsideRegions.FormsTree oneInside ∧ oneInsideRegions.Inside 2 1 :=
  ⟨oneInside_regions, regions_formsTree oneInside_regions, by decide, by decide⟩

end Body

end Preverification

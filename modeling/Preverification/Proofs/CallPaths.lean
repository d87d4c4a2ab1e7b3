import Preverification.Proofs.Copies
import Mathlib.Data.Set.Card

/-!
# Paths of calls

A path of calls starts with a call in a region, and each call after it is in the region that the
call before it calls. There is a copy for each path: the one that is made for its last call, inside
of the copies for the calls before. The depth of a region is the length of its longest paths, so a
list of the paths up to that length has all of them.

* `Regions.CallPath`: calls that follow each other, each one in the region that the one before
  calls.
* `Regions.CallPath.length_le`, `Regions.exists_callPath`: the depth of a region is the length of
  its longest paths.
* `Regions.length_callPaths_succ`: one path for each call, and one for each path that goes on from
  it.
* `Regions.encard_callPaths`: the paths up to the depth of a region are all that start in it.
-/

namespace Preverification

namespace Regions

variable {regions : Regions} {body : Body} {known : KnownSizes} {number : Nat}

/-- The positions of calls, the first of which is in a region, and each other one in the region that
is called before it. -/
inductive CallPath (regions : Regions) (nodes : List Node) : Nat → List Nat → Prop where
  | nil {number : Nat} : CallPath regions nodes number []
  | cons {number position : Nat} {target : Label} {calls : List Nat} :
    nodes[position]? = some (.operation (.branch (.jsr target))) →
      regions.owner position = number → CallPath regions nodes (regions.callee target) calls →
        CallPath regions nodes number (position :: calls)

/-! ### Calls in a region -/

/-- The region that a node calls. -/
def called? (regions : Regions) : Node → Option Nat
  | .operation (.branch (.jsr target)) => some (regions.callee target)
  | _ => none

/-- Only a call calls a region. -/
theorem called?_eq_some {node : Node} {callee : Nat} : regions.called? node = some callee ↔
    ∃ target, node = .operation (.branch (.jsr target)) ∧ regions.callee target = callee := by
  constructor
  · intro h
    unfold called? at h
    split at h
    · rename_i target
      exact ⟨target, rfl, Option.some.inj h⟩
    · cases h
  · rintro ⟨target, rfl, rfl⟩
    rfl

theorem callees_eq (number : Nat) :
    regions.callees number = (regions.contents number).filterMap regions.called? := rfl

/-- The calls in a region: their positions, and the regions that they call. -/
def callSites (regions : Regions) (number : Nat) : List (Nat × Nat) :=
  (regions.span number).filterMap fun position =>
    ((regions.content? number position).bind regions.called?).map fun callee => (position, callee)

/-- The calls of a region are at the positions that belong to it. -/
theorem mem_callSites (hc : regions.Cuts body) {position callee : Nat} :
    (position, callee) ∈ regions.callSites number ↔
      ∃ target, body.nodes[position]? = some (.operation (.branch (.jsr target))) ∧
        regions.owner position = number ∧ regions.callee target = callee := by
  unfold callSites
  rw [List.mem_filterMap]
  constructor
  · rintro ⟨found, _, hfound⟩
    rcases Option.map_eq_some_iff.1 hfound with ⟨_, hcalled, ⟨⟩⟩
    rcases Option.bind_eq_some_iff.1 hcalled with ⟨node, hcontent, hcallee⟩
    rcases called?_eq_some.1 hcallee with ⟨target, rfl, rfl⟩
    rcases hc.content?_eq_some.1 hcontent with ⟨hnode, hhome⟩
    -- a call is no label
    exact ⟨target, hnode, hhome.resolve_right (by simp [Node.label?]), rfl⟩
  · rintro ⟨target, hnode, rfl, rfl⟩
    have hlt : position < body.nodes.length := (List.getElem?_eq_some_iff.1 hnode).1
    rcases hc.owned position hlt with ⟨hstart, hstop⟩
    refine ⟨position, List.mem_range'_1.2 (by omega), ?_⟩
    rw [hc.content?_eq_some.2 ⟨hnode, .inl rfl⟩]
    rfl

/-- A number that no region has stands for an empty region. -/
theorem Cuts.region_stop_le (hc : regions.Cuts body) (number : Nat) :
    (regions.region number).stop ≤ body.nodes.length := by
  by_cases hlt : number < regions.regions.size
  · exact hc.stop_le hlt
  · rw [region_eq_default (Nat.le_of_not_lt hlt)]
    exact Nat.zero_le _

/-- What a region calls is what its calls call, in order. -/
theorem callees_eq_map (hc : regions.Cuts body) (number : Nat) :
    regions.callees number = (regions.callSites number).map Prod.snd := by
  rw [callees_eq, contents_eq hc (hc.region_stop_le number), List.filterMap_filterMap]
  unfold callSites
  rw [List.map_filterMap]
  refine List.filterMap_congr fun position _ => ?_
  cases (regions.content? number position).bind regions.called? <;> rfl

/-- A region is called if there is a call of it. -/
theorem mem_callees (hc : regions.Cuts body) {callee : Nat} :
    callee ∈ regions.callees number ↔
      ∃ position, (position, callee) ∈ regions.callSites number := by
  rw [callees_eq_map hc, List.mem_map]
  constructor
  · rintro ⟨⟨position, _⟩, hmem, rfl⟩
    exact ⟨position, hmem⟩
  · rintro ⟨position, hmem⟩
    exact ⟨_, hmem, rfl⟩

/-- No two calls have the same position. -/
theorem callSites_pairwise (number : Nat) :
    (regions.callSites number).Pairwise fun site site' => site.1 ≠ site'.1 := by
  unfold callSites
  rw [List.pairwise_filterMap]
  refine List.Pairwise.imp ?_ List.nodup_range'
  intro position position' hne site hsite site' hsite'
  rcases Option.map_eq_some_iff.1 hsite with ⟨_, _, rfl⟩
  rcases Option.map_eq_some_iff.1 hsite' with ⟨_, _, rfl⟩
  exact hne

/-! ### The longest paths -/

/-- Calls that follow each other in a body do so in the graph of its regions. -/
theorem CallPath.exists_path (hc : regions.Cuts body) {calls : List Nat}
    (h : regions.CallPath body.nodes number calls) :
    ∃ indices reached, regions.callGraph.Path number indices reached ∧
      indices.length = calls.length := by
  induction h with
  | nil => exact ⟨[], _, .nil, rfl⟩
  | @cons number position target calls hnode howner _ ih =>
    obtain ⟨indices, reached, hpath, hlength⟩ := ih
    have hmem := (mem_callees hc).2 ⟨_, (mem_callSites hc).2 ⟨_, hnode, howner, rfl⟩⟩
    obtain ⟨index, hindex⟩ := List.mem_iff_getElem?.1 hmem
    refine ⟨index :: indices, reached, .cons ?_ hpath, congrArg (· + 1) hlength⟩
    rwa [region_callGraph]

/-- Each path in the graph of the regions is that of some calls in the body. -/
theorem exists_callPath_of_path (hc : regions.Cuts body) {indices : List Nat} {reached : Nat}
    (h : regions.callGraph.Path number indices reached) :
    ∃ calls, regions.CallPath body.nodes number calls ∧ calls.length = indices.length := by
  induction h with
  | nil => exact ⟨[], .nil, rfl⟩
  | cons hcall _ ih =>
    obtain ⟨calls, hpath, hlength⟩ := ih
    rw [region_callGraph] at hcall
    obtain ⟨position, hsite⟩ := (mem_callees hc).1 (List.mem_of_getElem? hcall)
    obtain ⟨target, hnode, howner, rfl⟩ := (mem_callSites hc).1 hsite
    exact ⟨position :: calls, .cons hnode howner hpath, congrArg (· + 1) hlength⟩

/-- No path of calls is longer than the depth of the region in which it starts. -/
theorem CallPath.length_le (hc : regions.Cuts body) (hd : regions.callGraph.Descends known)
    {calls : List Nat} (h : regions.CallPath body.nodes number calls) {size : ExpandedSize}
    (hsize : known[number]? = some (some size)) : calls.length ≤ size.depth := by
  obtain ⟨indices, reached, hpath, hlength⟩ := h.exists_path hc
  obtain ⟨lower, -, hle⟩ := hd.along hpath hsize
  omega

/-- There is a path of calls that is as long as the depth of a region. -/
theorem exists_callPath (hc : regions.Cuts body) (ht : regions.callGraph.Tallies known)
    {size : ExpandedSize} (hsize : known[number]? = some (some size)) :
    ∃ calls, regions.CallPath body.nodes number calls ∧ calls.length = size.depth := by
  obtain ⟨indices, reached, hpath, hdepth⟩ := ht.exists_path hsize
  obtain ⟨calls, hcalls, hlength⟩ := exists_callPath_of_path hc hpath
  exact ⟨calls, hcalls, hlength.trans hdepth⟩

/-! ### All paths -/

/-- The paths of calls that start in a region, are not empty, and are not longer than a number. -/
def callPaths (regions : Regions) : (length number : Nat) → List (List Nat)
  | 0, _ => []
  | length + 1, number => (regions.callSites number).flatMap fun (position, callee) =>
    [position] :: (regions.callPaths length callee).map (position :: ·)

/-- The paths that start with a call. -/
def pathsFrom (regions : Regions) (length : Nat) (site : Nat × Nat) : List (List Nat) :=
  [site.1] :: (regions.callPaths length site.2).map (site.1 :: ·)

/-- A path starts with a call, and goes on from there or not. -/
theorem callPaths_succ (length number : Nat) : regions.callPaths (length + 1) number =
    (regions.callSites number).flatMap (regions.pathsFrom length) := rfl

/-- A path from a call is the call alone, or it goes on in what is called. -/
theorem mem_pathsFrom {length : Nat} {site : Nat × Nat} {calls : List Nat} :
    calls ∈ regions.pathsFrom length site ↔
      ∃ rest, calls = site.1 :: rest ∧ (rest = [] ∨ rest ∈ regions.callPaths length site.2) := by
  unfold pathsFrom
  rw [List.mem_cons, List.mem_map]
  constructor
  · rintro (rfl | ⟨rest, hrest, rfl⟩)
    · exact ⟨[], rfl, .inl rfl⟩
    · exact ⟨rest, rfl, .inr hrest⟩
  · rintro ⟨rest, rfl, rfl | hrest⟩
    · exact .inl rfl
    · exact .inr ⟨rest, hrest, rfl⟩

/-- A path has a call in it. -/
theorem nil_notMem_callPaths (length number : Nat) : [] ∉ regions.callPaths length number := by
  intro hmem
  cases length with
  | zero => cases hmem
  | succ length =>
    rw [callPaths_succ, List.mem_flatMap] at hmem
    rcases hmem with ⟨site, _, hfrom⟩
    rcases mem_pathsFrom.1 hfrom with ⟨rest, ⟨⟩, _⟩

/-- The list has just the paths that are short enough. -/
theorem mem_callPaths (hc : regions.Cuts body) {length : Nat} {calls : List Nat} :
    calls ∈ regions.callPaths length number ↔
      calls ≠ [] ∧ calls.length ≤ length ∧ regions.CallPath body.nodes number calls := by
  induction length generalizing number calls with
  | zero =>
    constructor
    · nofun
    · rintro ⟨hne, hle, _⟩
      exact absurd (List.length_eq_zero_iff.1 (Nat.le_zero.1 hle)) hne
  | succ length ih =>
    rw [callPaths_succ, List.mem_flatMap]
    constructor
    · rintro ⟨⟨position, callee⟩, hsite, hfrom⟩
      rcases (mem_callSites hc).1 hsite with ⟨target, hnode, howner, rfl⟩
      rcases mem_pathsFrom.1 hfrom with ⟨rest, rfl, rfl | hrest⟩
      · exact ⟨nofun, Nat.succ_le_succ (Nat.zero_le length), .cons hnode howner .nil⟩
      · rcases ih.1 hrest with ⟨_, hle, hpath⟩
        exact ⟨nofun, Nat.succ_le_succ hle, .cons hnode howner hpath⟩
    · rintro ⟨hne, hle, hpath⟩
      cases hpath with
      | nil => exact absurd rfl hne
      | @cons _ position target rest hnode howner hpath =>
        refine ⟨_, (mem_callSites hc).2 ⟨target, hnode, howner, rfl⟩, ?_⟩
        refine mem_pathsFrom.2 ⟨rest, rfl, ?_⟩
        -- the path ends with the first call, or goes on from there
        by_cases hnil : rest = []
        · exact .inl hnil
        · exact .inr (ih.2 ⟨hnil, Nat.le_of_succ_le_succ hle, hpath⟩)

/-- No path is listed twice, since calls have different positions. -/
theorem nodup_callPaths (length number : Nat) : (regions.callPaths length number).Nodup := by
  induction length generalizing number with
  | zero => exact List.nodup_nil
  | succ length ih =>
    rw [callPaths_succ, List.nodup_flatMap]
    constructor
    · intro site _
      refine List.nodup_cons.2 ⟨?_, (ih site.2).map fun _ _ heq => List.tail_eq_of_cons_eq heq⟩
      -- no path that goes on from a call is empty
      intro hmem
      rcases List.mem_map.1 hmem with ⟨rest, hrest, heq⟩
      obtain rfl := List.tail_eq_of_cons_eq heq
      exact nil_notMem_callPaths length site.2 hrest
    · -- paths with different first calls are different
      refine (callSites_pairwise number).imp ?_
      intro site site' hne calls hfrom hfrom'
      rcases mem_pathsFrom.1 hfrom with ⟨rest, rfl, _⟩
      rcases mem_pathsFrom.1 hfrom' with ⟨rest', heq, _⟩
      exact hne (List.head_eq_of_cons_eq heq)

/-- There is one path for each call, and one for each path that goes on from it. -/
theorem length_callPaths_succ (hc : regions.Cuts body) (length number : Nat) :
    (regions.callPaths (length + 1) number).length =
      ((regions.callees number).map fun callee =>
        (regions.callPaths length callee).length + 1).sum := by
  have hfrom : ∀ site, (regions.pathsFrom length site).length =
      (regions.callPaths length site.2).length + 1 := by
    intro site
    unfold pathsFrom
    rw [List.length_cons, List.length_map]
  rw [callPaths_succ, List.length_flatMap, callees_eq_map hc, List.map_map]
  exact congrArg List.sum (List.map_congr_left fun site _ => hfrom site)

/-- The paths up to the depth of a region are all that start in it. -/
theorem encard_callPaths (hc : regions.Cuts body) (hd : regions.callGraph.Descends known)
    {size : ExpandedSize} (hsize : known[number]? = some (some size)) {length : Nat}
    (hlength : size.depth ≤ length) :
    {calls | calls ≠ [] ∧ regions.CallPath body.nodes number calls}.encard =
      (regions.callPaths length number).length := by
  have hset : {calls | calls ≠ [] ∧ regions.CallPath body.nodes number calls} =
      (↑(regions.callPaths length number).toFinset : Set (List Nat)) := by
    ext calls
    rw [Finset.mem_coe, List.mem_toFinset, mem_callPaths hc]
    constructor
    · rintro ⟨hne, hpath⟩
      exact ⟨hne, Nat.le_trans (hpath.length_le hc hd hsize) hlength, hpath⟩
    · rintro ⟨hne, _, hpath⟩
      exact ⟨hne, hpath⟩
  rw [hset, Set.encard_coe_eq_coe_finsetCard,
    List.toFinset_card_of_nodup (nodup_callPaths length number)]

end Regions

end Preverification

import Preverification.Proofs.CallDepth
import Mathlib.Algebra.BigOperators.Group.Finset.Basic
import Mathlib.Data.List.Nodup
import Mathlib.Order.Bounds.Basic

/-!
# Recursion

The search for sizes goes down the calls of the regions, and a region is in progress while it goes
down the calls in it. So what is in progress leads to where the search is: to meet it again is to
go round a cycle. Without a cycle the search ends with the exact size, whatever had been worked out
before and in whatever order regions are called. With one it ends as well, because a cycle can have
no size.

* `CallGraph.OnCycle`, `CallGraph.Measures`: what the search should find out.
* `CallGraph.measures_iff`: a size is exact if its depth is that of the longest paths, and its
  operations are those of all of them.
* `CallGraph.Closed.outcome`: the search ends on a cycle, or with a size that has been added up.
* `CallGraph.expandedSize_exact`: it finds out exactly whether calls lead to a cycle, and else the
  exact size.
-/

namespace Preverification

namespace CallGraph

variable {graph graph' : CallGraph} {root number reached : Nat} {known known' : KnownSizes}
  {size : ExpandedSize} {calls : List Nat}

/-- A path goes on with a call of the region that it has reached. -/
theorem Path.concat {index callee : Nat} (h : graph.Path number calls reached)
    (hcall : (graph.region reached).callees[index]? = some callee) :
    graph.Path number (calls ++ [index]) callee := by
  induction h with
  | nil => exact .cons hcall .nil
  | cons hfirst _ ih => exact .cons hfirst (ih hcall)

/-- Calls lead from a root to a region, and from there back to it. -/
def OnCycle (graph : CallGraph) (root number : Nat) : Prop :=
  (∃ calls, graph.Path root calls number) ∧ ∃ calls, calls ≠ [] ∧ graph.Path number calls number

/-- A size is that of a region whose calls are replaced by what they call. -/
structure Measures (graph : CallGraph) (root : Nat) (size : ExpandedSize) : Prop where
  -- the depth is the length of the longest paths
  longest : IsGreatest {length | ∃ calls reached, graph.Path root calls reached ∧
    calls.length = length} size.depth
  -- for each path, the empty one too, the operations of the region that it leads to are counted, up
  -- to the number where counting stops
  total : ∃ paths : Finset (List Nat × Nat),
    (∀ calls reached, (calls, reached) ∈ paths ↔ graph.Path root calls reached) ∧
      size.operations = min (∑ path ∈ paths, (graph.region path.2).operations)
        ExpandedSize.maxOperations

/-! ### What has a size is on no cycle -/

/-- Sizes descend along calls, so none is on a cycle. -/
theorem Descends.not_onCycle (hd : graph.Descends known)
    (hsize : known[root]? = some (some size)) : ¬ graph.OnCycle root number := by
  rintro ⟨⟨calls, hpath⟩, round, hne, hround⟩
  obtain ⟨lower, hlower, -⟩ := hd.along hpath hsize
  obtain ⟨again, hagain, hle⟩ := hd.along hround hlower
  -- behind the cycle the depth would be lower, but it is the same region
  rw [hlower] at hagain
  cases hagain
  have hpos := List.length_pos_iff.2 hne
  omega

/-! ### All paths -/

/-- The paths with fewer calls than a number of levels, each with the region that it leads to. -/
def paths (graph : CallGraph) : (levels number : Nat) → List (List Nat × Nat)
  | 0, _ => []
  | levels + 1, number => ([], number) :: (graph.region number).callees.zipIdx.flatMap fun site =>
    (graph.paths levels site.1).map fun path => (site.2 :: path.1, path.2)

/-- The paths of a list are those that are short enough. -/
theorem mem_paths {levels : Nat} : (calls, reached) ∈ graph.paths levels number ↔
    calls.length < levels ∧ graph.Path number calls reached := by
  -- a path is a call to start with, and a path of a level less from there
  induction levels generalizing number calls with
  | zero => simp [paths]
  | succ levels ih =>
    rw [paths, List.mem_cons, List.mem_flatMap]
    constructor
    · rintro (heq | ⟨⟨callee, index⟩, hsite, hmem⟩)
      · obtain ⟨rfl, rfl⟩ := Prod.mk.inj heq
        exact ⟨Nat.succ_pos levels, .nil⟩
      · obtain ⟨⟨rest, last⟩, hrest, ⟨⟩⟩ := List.mem_map.1 hmem
        obtain ⟨hlt, hpath⟩ := ih.1 hrest
        exact ⟨Nat.succ_lt_succ hlt, .cons (List.mk_mem_zipIdx_iff_getElem?.1 hsite) hpath⟩
    · rintro ⟨hlt, hpath⟩
      cases hpath with
      | nil => exact .inl rfl
      | cons hcall hpath =>
        exact .inr ⟨_, List.mk_mem_zipIdx_iff_getElem?.2 hcall,
          List.mem_map.2 ⟨_, ih.2 ⟨Nat.lt_of_succ_lt_succ hlt, hpath⟩, rfl⟩⟩

/-- No call path is listed twice. -/
theorem nodup_paths (levels number : Nat) : (graph.paths levels number).Nodup := by
  induction levels generalizing number with
  | zero => exact List.nodup_nil
  | succ levels ih =>
    rw [paths, List.nodup_cons, List.nodup_flatMap]
    refine ⟨?_, fun site _ => (ih site.1).map fun path path' heq => ?_, ?_⟩
    · simp
    · obtain ⟨hcalls, hreached⟩ := Prod.mk.inj heq
      exact Prod.ext (List.tail_eq_of_cons_eq hcalls) hreached
    · -- different calls have different indices
      have hindices : (graph.region number).callees.zipIdx.Pairwise fun site site' =>
          site.2 ≠ site'.2 := by
        refine List.pairwise_map.1 ?_
        rw [List.zipIdx_map_snd]
        exact List.nodup_range'
      refine hindices.imp ?_
      intro site site' hne path hmem hmem'
      obtain ⟨rest, -, rfl⟩ := List.mem_map.1 hmem
      obtain ⟨rest', -, heq⟩ := List.mem_map.1 hmem'
      exact hne (List.head_eq_of_cons_eq (Prod.mk.inj heq).1).symm

/-- The operations of all of them add up level by level. -/
theorem sum_paths (levels number : Nat) :
    ((graph.paths levels number).map fun path => (graph.region path.2).operations).sum =
      graph.nestedOperations levels number := by
  induction levels generalizing number with
  | zero => rfl
  | succ levels ih =>
    have hfrom : ∀ site : Nat × Nat,
        (((graph.paths levels site.1).map fun path => (site.2 :: path.1, path.2)).map fun path =>
          (graph.region path.2).operations).sum = graph.nestedOperations levels site.1 := by
      intro site
      rw [List.map_map, ← ih]
      rfl
    have hcallees := congrArg (List.map (graph.nestedOperations levels))
      (List.zipIdx_map_fst 0 (graph.region number).callees)
    rw [List.map_map] at hcallees
    rw [paths, List.map_cons, List.sum_cons, List.map_flatMap, List.flatMap_def, List.sum_flatten,
      List.map_map, nestedOperations, ← hcallees]
    exact congrArg (_ + List.sum ·) (List.map_congr_left fun site _ => hfrom site)

/-- If no path is longer, the list has all paths. -/
theorem mem_paths_toFinset {levels : Nat} (hle : ∀ calls reached, graph.Path root calls reached →
    calls.length < levels) :
    (calls, reached) ∈ (graph.paths levels root).toFinset ↔ graph.Path root calls reached := by
  rw [List.mem_toFinset, mem_paths]
  exact and_iff_right_of_imp (hle calls reached)

/-- A size is exact if its depth is the length of the longest paths, and if the operations are
those beyond that many levels. -/
theorem measures_iff : graph.Measures root size ↔
    (∀ calls reached, graph.Path root calls reached → calls.length < size.depth + 1) ∧
      (∃ calls reached, graph.Path root calls reached ∧ calls.length = size.depth) ∧
      size.operations =
        min (graph.nestedOperations (size.depth + 1) root) ExpandedSize.maxOperations := by
  constructor
  · rintro ⟨⟨hdeepest, hupper⟩, paths, hmem, htotal⟩
    have hle : ∀ calls reached, graph.Path root calls reached → calls.length < size.depth + 1 :=
      fun calls reached hpath => Nat.lt_succ_of_le (hupper ⟨calls, reached, hpath, rfl⟩)
    -- the paths are those in the list
    have hpaths : paths = (graph.paths (size.depth + 1) root).toFinset :=
      Finset.ext fun path => (hmem path.1 path.2).trans (mem_paths_toFinset hle).symm
    refine ⟨hle, hdeepest, ?_⟩
    rw [htotal, hpaths, List.sum_toFinset _ (nodup_paths _ _), sum_paths]
  · rintro ⟨hle, hdeepest, hoperations⟩
    refine ⟨⟨hdeepest, ?_⟩, (graph.paths (size.depth + 1) root).toFinset,
      fun calls reached => mem_paths_toFinset hle, ?_⟩
    · rintro _ ⟨calls, reached, hpath, rfl⟩
      exact Nat.le_of_lt_succ (hle calls reached hpath)
    · rw [hoperations, List.sum_toFinset _ (nodup_paths _ _), sum_paths]

/-! ### Other orders of the calls -/

/-- The regions of two graphs are the same, except for the order in which they call others. -/
structure Reorders (graph graph' : CallGraph) : Prop where
  size : graph'.size = graph.size
  entry : ∀ number, (graph'.region number).entry = (graph.region number).entry
  operations : ∀ number, (graph'.region number).operations = (graph.region number).operations
  callees : ∀ number, (graph'.region number).callees.Perm (graph.region number).callees

namespace Reorders

theorem refl (graph : CallGraph) : graph.Reorders graph :=
  ⟨rfl, fun _ => rfl, fun _ => rfl, fun _ => .refl _⟩

/-- Either order is one of the other. -/
theorem symm (h : graph.Reorders graph') : graph'.Reorders graph :=
  ⟨h.size.symm, fun number => (h.entry number).symm, fun number => (h.operations number).symm,
    fun number => (h.callees number).symm⟩

/-- A graph with reordered calls calls the same regions, so that none is missing. -/
theorem closed (h : graph.Reorders graph') (hg : graph.Closed) : graph'.Closed := by
  refine closed_iff.2 fun number callee hmem => ?_
  rw [h.size, h.entry]
  exact closed_iff.1 hg number callee ((h.callees number).mem_iff.1 hmem)

/-- Each path has one of the same length when calls are reordered. -/
theorem path (h : graph.Reorders graph') (hpath : graph.Path number calls reached) :
    ∃ calls', graph'.Path number calls' reached ∧ calls'.length = calls.length := by
  induction hpath with
  | nil => exact ⟨[], .nil, rfl⟩
  | cons hcall _ ih =>
    obtain ⟨calls', hpath', hlength⟩ := ih
    obtain ⟨index', hindex'⟩ := List.mem_iff_getElem?.1
      ((h.callees _).mem_iff.2 (List.mem_of_getElem? hcall))
    exact ⟨index' :: calls', .cons hindex' hpath', congrArg (· + 1) hlength⟩

/-- A region on a cycle stays on one when calls are reordered. -/
theorem onCycle (h : graph.Reorders graph') (hcycle : graph.OnCycle root number) :
    graph'.OnCycle root number := by
  obtain ⟨⟨calls, hpath⟩, round, hne, hround⟩ := hcycle
  obtain ⟨calls', hpath', -⟩ := h.path hpath
  obtain ⟨round', hround', hlength⟩ := h.path hround
  refine ⟨⟨calls', hpath'⟩, round', ?_, hround'⟩
  rw [← List.length_pos_iff, hlength]
  exact List.length_pos_iff.2 hne

/-- Sums over nested calls do not depend on the order of the calls. -/
theorem nestedOperations_eq (h : graph.Reorders graph') (levels number : Nat) :
    graph'.nestedOperations levels number = graph.nestedOperations levels number := by
  induction levels generalizing number with
  | zero => rfl
  | succ levels ih =>
    rw [nestedOperations, nestedOperations, h.operations, funext ih,
      ((h.callees number).map _).sum_nat]

end Reorders

/-! ### Going down the calls -/

section Calls

variable {find find' : Nat → Sizes ExpandedSize} {pending : Finset Nat} {callees : List Nat}
  {start : ExpandedSize} {error : SubroutineError}

/-- Working out sizes one after the other fails at one of them. -/
theorem FindsCalled.addCalls_error (hfind : graph.FindsCalled pending find callees)
    (hprogress : graph.Progress pending known)
    (h : ExpandedSize.addCalls find callees start known = .error error) :
    ∃ callee ∈ callees, ∃ middle, graph.Progress pending middle ∧
      find callee middle = .error error := by
  induction callees generalizing known start with
  | nil => cases h
  | cons callee callees ih =>
    rw [ExpandedSize.addCalls_cons] at h
    rcases sizes_bind_error.1 h with hfirst | ⟨lower, middle, hfirst, hrest⟩
    · exact ⟨callee, List.mem_cons_self, known, hprogress, hfirst⟩
    · have hfinds := hfind callee (by simp) known lower middle hprogress hfirst
      obtain ⟨other, hmem, hother⟩ :=
        ih (fun other hmem => hfind other (by simp [hmem])) hfinds.progress hrest
      exact ⟨other, List.mem_cons_of_mem _ hmem, hother⟩

/-- Sizes that are found in the same way add up in the same way. -/
theorem FindsCalled.addCalls_congr (hfind : graph.FindsCalled pending find callees)
    (hsame : ∀ callee ∈ callees, ∀ known, graph.Progress pending known →
      find' callee known = find callee known)
    (hprogress : graph.Progress pending known) :
    ExpandedSize.addCalls find' callees start known =
      ExpandedSize.addCalls find callees start known := by
  induction callees generalizing known start with
  | nil => rfl
  | cons callee callees ih =>
    rw [ExpandedSize.addCalls_cons, ExpandedSize.addCalls_cons]
    refine sizes_bind_congr (hsame callee (by simp) known hprogress) fun lower middle hfirst => ?_
    have hfinds := hfind callee (by simp) known lower middle hprogress hfirst
    exact ih (fun other hmem => hfind other (by simp [hmem]))
      (fun other hmem => hsame other (by simp [hmem])) hfinds.progress

end Calls

section Rounds

variable {pending : Finset Nat} {rounds : Nat}

/-- With enough rounds, called regions are found in those that are left. -/
theorem Closed.findsCalled (hg : graph.Closed) (hnew : known[number]? = none)
    (hprogress : graph.Progress pending known)
    (hrounds : graph.size + 1 ≤ rounds + 1 + pending.card) :
    graph.FindsCalled (insert number pending) (graph.expandedSize rounds)
      (graph.region number).callees := by
  intro callee hmem known size known' hprogress' h
  obtain ⟨hlt, hentry⟩ := closed_iff.1 hg number callee hmem
  exact hg.expandedSize_finds rounds (hprogress.rounds_begin hnew hrounds) hlt (fun _ => hentry)
    hprogress' h

/-- More rounds than enough change nothing. -/
theorem Closed.expandedSize_rounds (hg : graph.Closed) {rounds' : Nat} (hle : rounds ≤ rounds')
    (hrounds : graph.size + 1 ≤ rounds + pending.card) (hnumber : number < graph.size)
    (hentry : number ∈ pending → (graph.region number).entry.isSome)
    (hprogress : graph.Progress pending known) :
    graph.expandedSize rounds' number known = graph.expandedSize rounds number known := by
  induction rounds generalizing rounds' number pending known with
  | zero => exact (hprogress.rounds_pos (by omega)).elim
  | succ rounds ih =>
    obtain ⟨rounds', rfl⟩ := Nat.exists_eq_add_of_le' (Nat.lt_of_lt_of_le (Nat.succ_pos rounds) hle)
    rcases hknown : known[number]? with _ | _ | found
    · rw [expandedSize_of_new hknown, expandedSize_of_new hknown, visit_eq, visit_eq]
      refine congrArg _ ?_
      refine (hg.findsCalled hknown hprogress hrounds).addCalls_congr (fun callee hmem middle h => ?_)
        (hprogress.begin hknown hnumber)
      obtain ⟨hlt, hcalled⟩ := closed_iff.1 hg number callee hmem
      exact ih (Nat.le_of_succ_le_succ hle) (hprogress.rounds_begin hknown hrounds) hlt
        (fun _ => hcalled) h
    · obtain ⟨entry, hsome⟩ := Option.isSome_iff_exists.1 (hentry ((hprogress.mem number).1 hknown))
      rw [expandedSize_of_pending hknown hsome, expandedSize_of_pending hknown hsome]
    · rw [expandedSize_of_known hknown, expandedSize_of_known hknown]

/-- What is in progress leads to where the search is, so the search only fails on a cycle. -/
theorem Closed.onCycle_of_error (hg : graph.Closed)
    (hrounds : graph.size + 1 ≤ rounds + pending.card) (hnumber : number < graph.size)
    (hentry : number ∈ pending → (graph.region number).entry.isSome)
    (hprogress : graph.Progress pending known) (hroot : ∃ calls, graph.Path root calls number)
    (htrail : ∀ earlier ∈ pending, ∃ calls, calls ≠ [] ∧ graph.Path earlier calls number)
    {error : SubroutineError} (h : graph.expandedSize rounds number known = .error error) :
    ∃ reached label, graph.OnCycle root reached ∧
      (graph.region reached).entry = some label ∧ error = .recursive label := by
  induction rounds generalizing number pending known with
  | zero => cases h
  | succ rounds ih =>
    rcases hknown : known[number]? with _ | _ | found
    · rw [expandedSize_of_new hknown, visit_error] at h
      obtain ⟨callee, hmem, middle, hprogress', hcallee⟩ :=
        (hg.findsCalled hknown hprogress hrounds).addCalls_error (hprogress.begin hknown hnumber) h
      obtain ⟨index, hindex⟩ := List.mem_iff_getElem?.1 hmem
      obtain ⟨hlt, hcalled⟩ := closed_iff.1 hg number callee hmem
      obtain ⟨calls, hpath⟩ := hroot
      refine ih (hprogress.rounds_begin hknown hrounds) hlt (fun _ => hcalled) hprogress'
        ⟨calls ++ [index], hpath.concat hindex⟩ (fun earlier hearlier => ?_) hcallee
      -- the call goes on from the region, and from all that led to it
      rcases Finset.mem_insert.1 hearlier with rfl | hearlier
      · exact ⟨[index], nofun, .cons hindex .nil⟩
      · obtain ⟨trail, -, htrail⟩ := htrail earlier hearlier
        exact ⟨trail ++ [index], by simp, htrail.concat hindex⟩
    · have hmem := (hprogress.mem number).1 hknown
      obtain ⟨entry, hsome⟩ := Option.isSome_iff_exists.1 (hentry hmem)
      rw [expandedSize_of_pending hknown hsome] at h
      cases h
      exact ⟨number, entry, ⟨hroot, htrail number hmem⟩, hsome, rfl⟩
    · rw [expandedSize_of_known hknown] at h
      cases h

end Rounds

/-! ### The outcome -/

/-- The sizes of some regions have been worked out, one after the other. -/
inductive Filled (graph : CallGraph) : KnownSizes → Prop where
  | empty : Filled graph ∅
  | add {number : Nat} {size : ExpandedSize} {known known' : KnownSizes} : number < graph.size →
    Filled graph known → graph.expandedSize (graph.size + 1) number known = .ok (size, known') →
      Filled graph known'

/-- What was worked out before is a state of the search in which nothing is in progress. -/
theorem Filled.progress (hg : graph.Closed) (h : graph.Filled known) : graph.Progress ∅ known := by
  induction h with
  | empty => exact progress_empty graph
  | add hnumber _ hrun ih =>
    exact (hg.expandedSize_finds _ (by simp) hnumber (by simp) ih hrun).progress

/-- The search for the size of a root does what it should. -/
structure Exact (graph : CallGraph) (root : Nat)
    (outcome : Except SubroutineError (ExpandedSize × KnownSizes)) : Prop where
  -- if calls lead from the root to a cycle, the search fails, and names a region on such a cycle by
  -- its entry
  recursive : (∃ number, graph.OnCycle root number) → ∃ number label, graph.OnCycle root number ∧
    (graph.region number).entry = some label ∧ outcome = .error (.recursive label)
  -- if they do not, the search ends with the exact size
  sized : (¬ ∃ number, graph.OnCycle root number) → ∃ size known',
    outcome = .ok (size, known') ∧ graph.Measures root size

/-- Numbers of operations that are added up do not go beyond the one where counting stops. -/
theorem Tallies.operations_le (ht : graph.Tallies known)
    (hcounts : ∀ region ∈ graph, region.operations ≤ ExpandedSize.maxOperations)
    (hsize : known[number]? = some (some size)) : size.operations ≤ ExpandedSize.maxOperations := by
  have hown := (forall_region_iff (Nat.zero_le _)).1 hcounts number
  obtain ⟨lowers, -, rfl⟩ := ht number size hsize
  exact ExpandedSize.operations_foldl_addCall_le lowers hown

/-- What has been added up for a region is its exact size. -/
theorem Tallies.measures (ht : graph.Tallies known)
    (hcounts : ∀ region ∈ graph, region.operations ≤ ExpandedSize.maxOperations)
    (hsize : known[root]? = some (some size)) : graph.Measures root size := by
  refine measures_iff.2 ⟨fun calls reached hpath => ?_, ht.exists_path hsize, ?_⟩
  · obtain ⟨lower, -, hle⟩ := ht.descends.along hpath hsize
    omega
  · rw [← ht.operations _ hsize (Nat.lt_succ_self _)]
    exact (Nat.min_eq_left (ht.operations_le hcounts hsize)).symm

/-- Regions that call others in another order have the same size. -/
theorem Reorders.measures (h : graph.Reorders graph') (hmeasures : graph'.Measures root size) :
    graph.Measures root size := by
  obtain ⟨hle, ⟨calls', reached, hpath', hlength'⟩, hoperations⟩ := measures_iff.1 hmeasures
  obtain ⟨calls, hpath, hlength⟩ := h.symm.path hpath'
  refine measures_iff.2 ⟨fun other reached hother => ?_, ⟨calls, reached, hpath, ?_⟩, ?_⟩
  · obtain ⟨other', hother', hsame⟩ := h.path hother
    exact hsame ▸ hle other' reached hother'
  · exact hlength.trans hlength'
  · rw [hoperations, h.nestedOperations_eq]

/-- An outcome that is exact for one order is exact for the other one. -/
theorem Reorders.exact {outcome : Except SubroutineError (ExpandedSize × KnownSizes)}
    (h : graph.Reorders graph') (hexact : graph'.Exact root outcome) :
    graph.Exact root outcome where
  recursive := by
    rintro ⟨number, hcycle⟩
    obtain ⟨named, label, hnamed, hentry, houtcome⟩ := hexact.recursive ⟨number, h.onCycle hcycle⟩
    exact ⟨named, label, h.symm.onCycle hnamed, (h.entry named).symm.trans hentry, houtcome⟩
  sized hno := by
    obtain ⟨size, known', houtcome, hmeasures⟩ :=
      hexact.sized fun ⟨number, hcycle⟩ => hno ⟨number, h.symm.onCycle hcycle⟩
    exact ⟨size, known', houtcome, h.measures hmeasures⟩

/-- The regions themselves have the same sizes. -/
theorem Reorders.counts (h : graph.Reorders graph')
    (hcounts : ∀ region ∈ graph, region.operations ≤ ExpandedSize.maxOperations) :
    ∀ region ∈ graph', region.operations ≤ ExpandedSize.maxOperations := by
  refine (forall_region_iff (Nat.zero_le _)).2 fun number => ?_
  rw [h.operations]
  exact (forall_region_iff (Nat.zero_le _)).1 hcounts number

/-- With nothing in progress, the search ends on a cycle, or with a size that has been added up. -/
theorem Closed.outcome (hg : graph.Closed) (hroot : root < graph.size)
    (hprogress : graph.Progress ∅ known) {rounds : Nat} (hrounds : graph.size < rounds) :
    (∃ number label, graph.OnCycle root number ∧ (graph.region number).entry = some label ∧
        graph.expandedSize rounds root known = .error (.recursive label)) ∨
      ∃ size known', graph.expandedSize rounds root known = .ok (size, known') ∧
        graph.Tallies known' ∧ known'[root]? = some (some size) := by
  have henough : graph.size + 1 ≤ rounds + (∅ : Finset Nat).card := hrounds
  cases hrun : graph.expandedSize rounds root known with
  | error error =>
    obtain ⟨number, label, hcycle, hentry, rfl⟩ := hg.onCycle_of_error henough hroot (by simp)
      hprogress ⟨[], .nil⟩ (by simp) hrun
    exact .inl ⟨number, label, hcycle, hentry, rfl⟩
  | ok found =>
    have hfinds := hg.expandedSize_finds rounds henough hroot (by simp) hprogress hrun
    exact .inr ⟨found.1, found.2, rfl, hfinds.progress.tallies, hfinds.found⟩

/-- Starting with nothing in progress, the search is exact. -/
theorem Closed.exact (hg : graph.Closed)
    (hcounts : ∀ region ∈ graph, region.operations ≤ ExpandedSize.maxOperations)
    (hroot : root < graph.size) (hprogress : graph.Progress ∅ known) {rounds : Nat}
    (hrounds : graph.size < rounds) :
    graph.Exact root (graph.expandedSize rounds root known) := by
  rcases hg.outcome hroot hprogress hrounds with
    ⟨number, label, hcycle, hentry, hrun⟩ | ⟨size, known', hrun, ht, hsize⟩
  · exact ⟨fun _ => ⟨number, label, hcycle, hentry, hrun⟩, fun hno => absurd ⟨number, hcycle⟩ hno⟩
  · exact ⟨fun ⟨_, hcycle⟩ => absurd hcycle (ht.descends.not_onCycle hsize),
      fun _ => ⟨size, known', hrun, ht.measures hcounts hsize⟩⟩

/-- The search for a size finds out exactly whether calls lead to a cycle, and else the exact size.
It does so in whatever order regions call others, whatever sizes have been worked out before, and in
no more rounds than one for each region and a last one. -/
theorem expandedSize_exact (hg : graph.Closed)
    (hcounts : ∀ region ∈ graph, region.operations ≤ ExpandedSize.maxOperations)
    (hroot : root < graph.size) (horder : graph.Reorders graph') (hknown : graph'.Filled known)
    {rounds : Nat} (hrounds : graph.size < rounds) :
    graph.Exact root (graph'.expandedSize rounds root known) ∧
      graph'.expandedSize rounds root known =
        graph'.expandedSize (graph.size + 1) root known := by
  have hg' := horder.closed hg
  have hprogress := hknown.progress hg'
  have hsize := horder.size
  constructor
  · exact horder.exact (hg'.exact (horder.counts hcounts) (hsize ▸ hroot) hprogress
      (hsize ▸ hrounds))
  · exact hg'.expandedSize_rounds hrounds (by simp [hsize]) (hsize ▸ hroot) (by simp) hprogress

/-! ### A subroutine that calls itself, and one that is called in two ways -/

/-- A subroutine that calls itself. -/
def callsItself : CallGraph := #[⟨none, [1], 2⟩, ⟨some ⟨0⟩, [1], 3⟩]

/-- A subroutine that is called by the outer region and by another subroutine. -/
def sharedCallee : CallGraph := #[⟨none, [1, 2], 3⟩, ⟨some ⟨0⟩, [2], 3⟩, ⟨some ⟨1⟩, [], 2⟩]

/-- The calls of `sharedCallee` in another order. -/
def sharedFirst : CallGraph := #[⟨none, [2, 1], 3⟩, ⟨some ⟨0⟩, [2], 3⟩, ⟨some ⟨1⟩, [], 2⟩]

/-- The two graphs differ in the order of calls only. -/
theorem reorders_sharedCallee : sharedCallee.Reorders sharedFirst := by
  have hregions : ∀ number, (sharedFirst.region number).entry = (sharedCallee.region number).entry ∧
      (sharedFirst.region number).operations = (sharedCallee.region number).operations ∧
      (sharedFirst.region number).callees.Perm (sharedCallee.region number).callees := by
    intro number
    rcases number with _ | _ | _ | number
    · exact ⟨rfl, rfl, .swap 1 2 []⟩
    · exact ⟨rfl, rfl, .refl _⟩
    · exact ⟨rfl, rfl, .refl _⟩
    · exact ⟨rfl, rfl, .refl _⟩
  exact ⟨rfl, fun number => (hregions number).1, fun number => (hregions number).2.1,
    fun number => (hregions number).2.2⟩

/-- What is known when the size of the shared subroutine has been worked out. -/
def sharedKnown : KnownSizes := ((∅ : KnownSizes).insert 2 none).insert 2 (some ⟨0, 2⟩)

/-- The size of the shared subroutine may have been worked out before. -/
theorem filled_sharedKnown : sharedFirst.Filled sharedKnown :=
  .add (by decide) .empty
    (@expandedSize_of_no_callee sharedFirst 2 ∅ 3 Std.HashMap.getElem?_empty rfl)

/-- The search goes down both ways, and finds the shared size the second time. -/
theorem sharedFirst_expandedSize :
    ∃ known', sharedFirst.expandedSize 4 0 sharedKnown = .ok (⟨2, 10⟩, known') := by
  have hcallees : (sharedFirst.region 0).callees = [2, 1] := rfl
  have hcallees' : (sharedFirst.region 1).callees = [2] := rfl
  -- the callee is known from the start, also where it is called again
  let begun := sharedKnown.insert 0 none
  have hfound : begun[2]? = some (some ⟨0, 2⟩) :=
    (getElem?_insert_of_ne none (by decide)).trans Std.HashMap.getElem?_insert_self
  have hagain : (begun.insert 1 none)[2]? = some (some ⟨0, 2⟩) :=
    (getElem?_insert_of_ne none (by decide)).trans hfound
  have hcaller : sharedFirst.expandedSize 3 1 begun =
      .ok (⟨1, 5⟩, (begun.insert 1 none).insert 1 (some ⟨1, 5⟩)) := by
    rw [expandedSize_of_new (by simp [begun, sharedKnown]), visit_ok, hcallees']
    refine ⟨begun.insert 1 none, ?_, rfl⟩
    rw [ExpandedSize.addCalls_cons]
    exact sizes_bind_ok.2 ⟨_, _, expandedSize_of_known hagain, rfl⟩
  refine ⟨((begun.insert 1 none).insert 1 (some ⟨1, 5⟩)).insert 0 (some ⟨2, 10⟩), ?_⟩
  rw [expandedSize_of_new (by simp [sharedKnown]), visit_ok, hcallees]
  refine ⟨_, ?_, rfl⟩
  rw [ExpandedSize.addCalls_cons]
  refine sizes_bind_ok.2 ⟨_, _, expandedSize_of_known hfound, ?_⟩
  rw [ExpandedSize.addCalls_cons]
  exact sizes_bind_ok.2 ⟨_, _, hcaller, rfl⟩

/-- The search fails at a subroutine that calls itself. It finds the exact size of a body with a
subroutine that is called in two ways, although its size was worked out before. -/
theorem callsItself_and_sharedCallee :
    callsItself.expandedSize 3 0 ∅ = .error (.recursive ⟨0⟩) ∧
      sharedFirst.Filled sharedKnown ∧ sharedCallee.Measures 0 ⟨2, 10⟩ ∧
      ∃ known', sharedFirst.expandedSize 4 0 sharedKnown = .ok (⟨2, 10⟩, known') := by
  constructor
  · have hcycle : callsItself.OnCycle 0 1 :=
      ⟨⟨[0], .cons rfl .nil⟩, [0], nofun, .cons rfl .nil⟩
    obtain ⟨hexact, -⟩ := @expandedSize_exact callsItself callsItself 0 ∅ (by decide) (by decide)
      (by decide) (.refl _) .empty 3 (by decide)
    obtain ⟨number, label, -, hentry, hrun⟩ := hexact.recursive ⟨1, hcycle⟩
    -- the only region with an entry is the subroutine
    rcases number with _ | _ | number
    · cases hentry
    · cases hentry
      exact hrun
    · cases hentry
  · obtain ⟨hexact, -⟩ := @expandedSize_exact sharedCallee sharedFirst 0 sharedKnown (by decide)
      (by decide) (by decide) reorders_sharedCallee filled_sharedKnown 4 (by decide)
    obtain ⟨known', hfound⟩ := sharedFirst_expandedSize
    -- no error was found, so there is no cycle
    have hno : ¬ ∃ number, sharedCallee.OnCycle 0 number := by
      intro hcycle
      obtain ⟨_, _, -, -, hrun⟩ := hexact.recursive hcycle
      rw [hfound] at hrun
      cases hrun
    obtain ⟨size, _, hrun, hmeasures⟩ := hexact.sized hno
    rw [hfound] at hrun
    cases hrun
    exact ⟨filled_sharedKnown, hmeasures, known', hfound⟩

end CallGraph

/-- Working out the size of a body fails exactly if calls lead from the outer region to a cycle. -/
theorem Regions.totalSize_error_iff {regions : Regions} {body : Body} (hc : regions.Cuts body) :
    (∃ error, regions.totalSize = .error error) ↔
      ∃ number, regions.callGraph.OnCycle outer number := by
  have houter : outer < regions.callGraph.size := by
    rw [size_callGraph]
    exact hc.some_region
  rcases (closed_callGraph hc).outcome houter (CallGraph.progress_empty _) (Nat.lt_succ_self _) with
    ⟨number, label, hcycle, -, hrun⟩ | ⟨size, known, hrun, ht, hsize⟩
  · have herror : regions.totalSize = .error (.recursive label) := by
      unfold totalSize
      exact congrArg (Except.map Prod.fst) hrun
    exact ⟨fun _ => ⟨number, hcycle⟩, fun _ => ⟨_, herror⟩⟩
  · have hok : regions.totalSize = .ok size := totalSize_ok.2 ⟨known, hrun⟩
    constructor
    · rintro ⟨error, herror⟩
      rw [hok] at herror
      cases herror
    · rintro ⟨number, hcycle⟩
      exact absurd hcycle (ht.descends.not_onCycle hsize)

end Preverification

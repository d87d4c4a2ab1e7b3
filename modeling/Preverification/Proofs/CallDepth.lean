import Preverification.Proofs.Regions
import Preverification.Subroutine.Inline
import Mathlib.Algebra.GroupWithZero.Nat
import Mathlib.Data.Finset.Card
import Mathlib.Data.Finset.Range

/-!
# Depths of calls

The sizes of regions are worked out one region after the other, and what has been found is kept.
Regions in progress have no size yet, and are all different, so there are enough rounds for each
chain of calls. In the end every size is added up from those of the regions that are called, which
have lower depths.

* `CallGraph.Progress`: what is kept while the search for sizes goes down calls.
* `CallGraph.Closed.expandedSize_finds`: with enough rounds sizes are found.
* `CallGraph.Descends.along`, `CallGraph.Tallies.exists_path`: depths are lengths of paths.
* `Regions.totalSize_tallies`, `Regions.totalSize_descends`: the sizes in a body are added up from
  those of the regions that are called.
-/

namespace Preverification

/-! ### Steps that know sizes -/

section Sizes

variable {α β : Type} {known known' : KnownSizes}

/-- A step that succeeds passes on what is known. -/
theorem sizes_bind_ok {x : Sizes α} {f : α → Sizes β} {b : β} :
    (x >>= f) known = .ok (b, known') ↔
      ∃ a middle, x known = .ok (a, middle) ∧ f a middle = .ok (b, known') := by
  change (x known >>= fun p => f p.1 p.2) = _ ↔ _
  rw [except_bind_ok, Prod.exists]

/-- Steps fail at one of their parts. -/
theorem sizes_bind_error {x : Sizes α} {f : α → Sizes β} {error : SubroutineError} :
    (x >>= f) known = .error error ↔ x known = .error error ∨
      ∃ a middle, x known = .ok (a, middle) ∧ f a middle = .error error := by
  change Except.bind (x known) (fun p => f p.1 p.2) = _ ↔ _
  cases x known with
  | error found => simp [Except.bind]
  | ok found =>
    obtain ⟨a, middle⟩ := found
    simp [Except.bind]

/-- Steps that start in the same way and go on in the same way are the same. -/
theorem sizes_bind_congr {x x' : Sizes α} {f f' : α → Sizes β} (hx : x' known = x known)
    (hf : ∀ a middle, x known = .ok (a, middle) → f' a middle = f a middle) :
    (x' >>= f') known = (x >>= f) known := by
  change Except.bind (x' known) (fun p => f' p.1 p.2) =
    Except.bind (x known) (fun p => f p.1 p.2)
  rw [hx]
  cases hrun : x known with
  | error error => rfl
  | ok found => exact hf found.1 found.2 hrun

theorem sizes_get_bind (f : KnownSizes → Sizes α) : (get >>= f) known = f known known := rfl

theorem sizes_pure_ok {a b : α} :
    (pure a : Sizes α) known = .ok (b, known') ↔ a = b ∧ known = known' := by
  change Except.ok (a, known) = _ ↔ _
  simp

end Sizes

namespace ExpandedSize

/-- Adding up sizes makes the depth higher than all of theirs, and no lower. -/
theorem depth_foldl_addCall (lowers : List ExpandedSize) (start : ExpandedSize) :
    start.depth ≤ (lowers.foldl (fun size lower => lower.addCall size) start).depth ∧
      ∀ lower ∈ lowers,
        lower.depth < (lowers.foldl (fun size lower => lower.addCall size) start).depth := by
  induction lowers generalizing start with
  | nil => exact ⟨Nat.le_refl _, nofun⟩
  | cons first rest ih =>
    obtain ⟨hle, hall⟩ := ih (first.addCall start)
    have hstart : start.depth ≤ (first.addCall start).depth := Nat.le_max_left _ _
    have hfirst : first.depth + 1 ≤ (first.addCall start).depth := Nat.le_max_right _ _
    rw [List.foldl_cons]
    refine ⟨Nat.le_trans hstart hle, fun lower hmem => ?_⟩
    rcases List.mem_cons.1 hmem with rfl | hmem
    · exact Nat.lt_of_lt_of_le hfirst hle
    · exact hall lower hmem

/-- The depth is that of the start, or one more than one of theirs. -/
theorem depth_foldl_addCall_cases (lowers : List ExpandedSize) (start : ExpandedSize) :
    (lowers.foldl (fun size lower => lower.addCall size) start).depth = start.depth ∨
      ∃ lower ∈ lowers,
        (lowers.foldl (fun size lower => lower.addCall size) start).depth = lower.depth + 1 := by
  induction lowers generalizing start with
  | nil => exact .inl rfl
  | cons first rest ih =>
    rw [List.foldl_cons]
    rcases ih (first.addCall start) with hstart | ⟨lower, hmem, hlower⟩
    · -- the greater one of two depths is one of them
      have hmax : (first.addCall start).depth = max start.depth (first.depth + 1) := rfl
      rcases Nat.le_total start.depth (first.depth + 1) with hle | hle
      · right
        refine ⟨first, List.mem_cons_self, ?_⟩
        rw [hstart, hmax, Nat.max_eq_right hle]
      · left
        rw [hstart, hmax, Nat.max_eq_left hle]
    · exact .inr ⟨lower, List.mem_cons_of_mem _ hmem, hlower⟩

/-- Adding up does not go beyond the number where counting stops. -/
theorem operations_foldl_addCall_le (lowers : List ExpandedSize) {start : ExpandedSize}
    (hstart : start.operations ≤ maxOperations) :
    (lowers.foldl (fun size lower => lower.addCall size) start).operations ≤ maxOperations := by
  induction lowers generalizing start with
  | nil => exact hstart
  | cons lower lowers ih => exact ih (Nat.min_le_right _ _)

/-- Adding up numbers of operations gives their sum, up to the number where counting stops. -/
theorem operations_foldl_addCall {count : Nat → Nat} {callees : List Nat}
    {lowers : List ExpandedSize}
    (h : List.Forall₂ (fun callee (lower : ExpandedSize) =>
      min lower.operations ExpandedSize.maxOperations =
        min (count callee) ExpandedSize.maxOperations) callees lowers)
    {start : ExpandedSize} {total : Nat}
    (hstart : min start.operations ExpandedSize.maxOperations =
      min total ExpandedSize.maxOperations) :
    min (lowers.foldl (fun size lower => lower.addCall size) start).operations
        ExpandedSize.maxOperations =
      min (total + (callees.map count).sum) ExpandedSize.maxOperations := by
  induction h generalizing start total with
  | nil => exact hstart
  | @cons callee lower callees lowers hfirst _ ih =>
    rw [List.foldl_cons, List.map_cons, List.sum_cons, ← Nat.add_assoc]
    refine ih ?_
    change min (min (start.operations + lower.operations) ExpandedSize.maxOperations) _ = _
    omega

variable {find : Nat → Sizes ExpandedSize} {known : KnownSizes}

/-- Calls are added one after the other. -/
@[simp] theorem addCalls_cons (find : Nat → Sizes ExpandedSize) (callee : Nat) (callees : List Nat)
    (size : ExpandedSize) : addCalls find (callee :: callees) size =
      find callee >>= fun lower => addCalls find callees (lower.addCall size) := by
  unfold addCalls
  rw [List.foldlM_cons, bind_assoc]
  rfl

/-- A size that is known is added for each call. -/
theorem addCalls_replicate {callee : Nat} {lower : ExpandedSize}
    (hfind : find callee known = .ok (lower, known)) (count : Nat) (start : ExpandedSize) :
    addCalls find (.replicate count callee) start known =
      .ok ((List.replicate count lower).foldl (fun size lower => lower.addCall size) start,
        known) := by
  induction count generalizing start with
  | zero => rfl
  | succ count ih =>
    rw [List.replicate_succ, List.replicate_succ, addCalls_cons]
    exact sizes_bind_ok.2 ⟨_, _, hfind, ih _⟩

end ExpandedSize

/-- Sizes that were known stay known. -/
def Keeps (known known' : KnownSizes) : Prop :=
  ∀ (number : Nat) (size : ExpandedSize), known[number]? = some (some size) →
    known'[number]? = some (some size)

section Insert

variable {known : KnownSizes} {number : Nat}

/-- Other regions keep their sizes. -/
theorem getElem?_insert_of_ne (entry : Option ExpandedSize) {other : Nat} (h : other ≠ number) :
    (known.insert number entry)[other]? = known[other]? := by
  rw [Std.HashMap.getElem?_insert, if_neg (by simpa using Ne.symm h)]

/-- A size is noted for a region that had none before, or none is noted. -/
theorem keeps_insert (entry : Option ExpandedSize)
    (hnone : ∀ size, known[number]? ≠ some (some size)) :
    Keeps known (known.insert number entry) := by
  intro other found hfound
  have hne : other ≠ number := by
    rintro rfl
    exact hnone found hfound
  rw [getElem?_insert_of_ne _ hne, hfound]

end Insert

namespace CallGraph

variable {graph : CallGraph} {number : Nat} {known known' : KnownSizes} {size : ExpandedSize}

/-- What all regions have in common holds of all numbers, if it also holds of an empty region, for
which other numbers stand. -/
theorem forall_region_iff {P : RegionCalls → Prop} (hdefault : P default) :
    (∀ region ∈ graph, P region) ↔ ∀ number, P (graph.region number) := by
  unfold region
  simp only [Array.getD_eq_getD_getElem?]
  constructor
  · intro h number
    cases hfound : graph[number]? with
    | none => exact hdefault
    | some found => exact h found (Array.mem_of_getElem? hfound)
  · intro h found hfound
    obtain ⟨number, hnumber⟩ := Array.mem_iff_getElem?.1 hfound
    have hself := h number
    rwa [hnumber] at hself

/-- What is called is a region, which has a label by which it is called. -/
def Closed (graph : CallGraph) : Prop :=
  ∀ region ∈ graph, ∀ callee ∈ region.callees,
    callee < graph.size ∧ (graph.region callee).entry.isSome

instance (graph : CallGraph) : Decidable graph.Closed :=
  inferInstanceAs (Decidable (∀ region ∈ graph, ∀ callee ∈ region.callees,
    callee < graph.size ∧ (graph.region callee).entry.isSome))

theorem closed_iff : graph.Closed ↔ ∀ number, ∀ callee ∈ (graph.region number).callees,
    callee < graph.size ∧ (graph.region callee).entry.isSome :=
  forall_region_iff nofun

/-- The size of a region that is added up from the sizes of the regions that it calls. -/
def tally (graph : CallGraph) (number : Nat) (lowers : List ExpandedSize) : ExpandedSize :=
  lowers.foldl (fun size lower => lower.addCall size) ⟨0, (graph.region number).operations⟩

/-- Sizes are added up from those of the regions that are called, one for each call. -/
def Tallies (graph : CallGraph) (known : KnownSizes) : Prop :=
  ∀ (number : Nat) (size : ExpandedSize), known[number]? = some (some size) →
    ∃ lowers, List.Forall₂ (fun (callee : Nat) lower => known[callee]? = some (some lower))
      (graph.region number).callees lowers ∧ size = graph.tally number lowers

/-- Regions that are called have lower depths than their callers. -/
def Descends (graph : CallGraph) (known : KnownSizes) : Prop :=
  ∀ (number : Nat) (size : ExpandedSize), known[number]? = some (some size) →
    ∀ callee ∈ (graph.region number).callees,
      ∃ lower, known[callee]? = some (some lower) ∧ lower.depth < size.depth

/-- Sizes that are added up have higher depths than those they are made of. -/
theorem Tallies.descends (h : graph.Tallies known) : graph.Descends known := by
  intro number size hsize callee hmem
  rcases h number size hsize with ⟨lowers, hlowers, rfl⟩
  rcases forall₂_exists hlowers hmem with ⟨lower, hmem', hlower⟩
  exact ⟨lower, hlower, (ExpandedSize.depth_foldl_addCall lowers _).2 lower hmem'⟩

/-- Certain regions are in progress, and the sizes that are known have been added up. -/
structure Progress (graph : CallGraph) (pending : Finset Nat) (known : KnownSizes) : Prop where
  tallies : graph.Tallies known
  mem : ∀ number : Nat, known[number]? = some none ↔ number ∈ pending
  lt : ∀ number ∈ pending, number < graph.size

/-- A region of which nothing is known is not in progress. -/
theorem Progress.notMem {pending : Finset Nat} (h : graph.Progress pending known)
    (hnew : known[number]? = none) : number ∉ pending := by
  rw [← h.mem, hnew]
  nofun

/-- At first nothing is known. -/
theorem progress_empty (graph : CallGraph) : graph.Progress ∅ ∅ where
  tallies number size h := by simp at h
  mem := by simp
  lt := by simp

/-- What working out the size of a region does. -/
structure Finds (graph : CallGraph) (pending : Finset Nat) (number : Nat) (size : ExpandedSize)
    (known known' : KnownSizes) : Prop where
  progress : graph.Progress pending known'
  keeps : Keeps known known'
  found : known'[number]? = some (some size)

/-! ### Beginning and ending with a region -/

/-- Sizes are added up from others that stay known. -/
theorem Tallies.of_keeps (h : graph.Tallies known) (hkeeps : Keeps known known')
    (hsize : known[number]? = some (some size)) :
    ∃ lowers, List.Forall₂ (fun (callee : Nat) lower => known'[callee]? = some (some lower))
      (graph.region number).callees lowers ∧ size = graph.tally number lowers := by
  rcases h number size hsize with ⟨lowers, hlowers, htally⟩
  exact ⟨lowers, hlowers.imp fun callee lower hlower => hkeeps callee lower hlower, htally⟩

/-- A region that gets in progress has no size, and none that has a size calls it. -/
theorem Progress.begin {pending : Finset Nat} (h : graph.Progress pending known)
    (hnew : known[number]? = none) (hnumber : number < graph.size) :
    graph.Progress (insert number pending) (known.insert number none) where
  tallies other size hsize := by
    -- the region itself has no size now
    have hne : other ≠ number := by
      rintro rfl
      rw [Std.HashMap.getElem?_insert_self] at hsize
      cases hsize
    rw [getElem?_insert_of_ne _ hne] at hsize
    refine h.tallies.of_keeps (keeps_insert none fun size hnumber => ?_) hsize
    rw [hnew] at hnumber
    cases hnumber
  mem other := by
    rw [Finset.mem_insert]
    by_cases heq : other = number
    · subst heq
      simp
    · rw [getElem?_insert_of_ne _ heq, h.mem]
      simp [heq]
  lt other hmem := by
    rcases Finset.mem_insert.1 hmem with rfl | hmem
    · exact hnumber
    · exact h.lt other hmem

/-- A region in progress gets a size that no other region loses by it. -/
theorem Progress.finish {pending : Finset Nat} (hnew : number ∉ pending)
    (h : graph.Progress (insert number pending) known) {lowers : List ExpandedSize}
    (hlowers : List.Forall₂ (fun (callee : Nat) lower => known[callee]? = some (some lower))
      (graph.region number).callees lowers) (hsize : size = graph.tally number lowers)
    (hkeeps : Keeps known' known) :
    graph.Finds pending number size known' (known.insert number (some size)) := by
  have hnone : known[number]? = some none := (h.mem number).2 (Finset.mem_insert_self _ _)
  -- the region had no size before
  have hsome : Keeps known (known.insert number (some size)) := by
    refine keeps_insert _ fun found hfound => ?_
    rw [hnone] at hfound
    cases hfound
  refine ⟨⟨?_, ?_, fun other hmem => h.lt other (Finset.mem_insert_of_mem hmem)⟩, ?_,
    Std.HashMap.getElem?_insert_self⟩
  · intro other found hfound
    by_cases heq : other = number
    · subst heq
      rw [Std.HashMap.getElem?_insert_self] at hfound
      cases hfound
      exact ⟨lowers, hlowers.imp fun callee lower hlower => hsome callee lower hlower, hsize⟩
    · rw [getElem?_insert_of_ne _ heq] at hfound
      exact h.tallies.of_keeps hsome hfound
  · intro other
    by_cases heq : other = number
    · subst heq
      simp [hnew]
    · rw [getElem?_insert_of_ne _ heq, h.mem, Finset.mem_insert, or_iff_right heq]
  · exact fun other found hfound => hsome _ _ (hkeeps _ _ hfound)

/-! ### One round -/

section Round

variable {rounds : Nat}

theorem expandedSize_of_known (h : known[number]? = some (some size)) :
    graph.expandedSize (rounds + 1) number known = .ok (size, known) := by
  rw [expandedSize, sizes_get_bind, h]
  rfl

/-- A region is called while it is in progress. -/
theorem expandedSize_of_pending {entry : Label} (h : known[number]? = some none)
    (hentry : (graph.region number).entry = some entry) :
    graph.expandedSize (rounds + 1) number known = .error (.recursive entry) := by
  rw [expandedSize, sizes_get_bind, h, hentry]
  rfl

theorem expandedSize_of_new (h : known[number]? = none) :
    graph.expandedSize (rounds + 1) number known =
      graph.visit (graph.expandedSize rounds) number known := by
  rw [expandedSize, sizes_get_bind, h]

variable {find : Nat → Sizes ExpandedSize}

theorem visit_eq (graph : CallGraph) (find : Nat → Sizes ExpandedSize) (number : Nat)
    (known : KnownSizes) : graph.visit find number known =
      (ExpandedSize.addCalls find (graph.region number).callees
        ⟨0, (graph.region number).operations⟩ (known.insert number none)).map fun found =>
          (found.1, found.2.insert number (some found.1)) := by
  change Except.bind (ExpandedSize.addCalls find _ _ _) _ = _
  cases ExpandedSize.addCalls find _ _ _ <;> rfl

/-- The size of a region is that of its calls, and is noted. -/
theorem visit_ok : graph.visit find number known = .ok (size, known') ↔
    ∃ middle, ExpandedSize.addCalls find (graph.region number).callees
        ⟨0, (graph.region number).operations⟩ (known.insert number none) = .ok (size, middle) ∧
      known' = middle.insert number (some size) := by
  rw [visit_eq, except_map_ok]
  constructor
  · rintro ⟨⟨found, middle⟩, hcalls, ⟨⟩⟩
    exact ⟨middle, hcalls, rfl⟩
  · rintro ⟨middle, hcalls, rfl⟩
    exact ⟨(size, middle), hcalls, rfl⟩

/-- The search fails in a region if it fails at one of its calls. -/
theorem visit_error {error : SubroutineError} : graph.visit find number known = .error error ↔
    ExpandedSize.addCalls find (graph.region number).callees
      ⟨0, (graph.region number).operations⟩ (known.insert number none) = .error error := by
  rw [visit_eq]
  cases ExpandedSize.addCalls find _ _ _ <;> simp [Except.map]

end Round

/-! ### All rounds -/

section Calls

variable {find : Nat → Sizes ExpandedSize} {pending : Finset Nat} {callees : List Nat}

/-- The sizes of called regions are found, if none of them fails. -/
def FindsCalled (graph : CallGraph) (pending : Finset Nat) (find : Nat → Sizes ExpandedSize)
    (callees : List Nat) : Prop :=
  ∀ callee ∈ callees, ∀ known size known', graph.Progress pending known →
    find callee known = .ok (size, known') → graph.Finds pending callee size known known'

/-- The sizes of called regions, one after the other. -/
theorem FindsCalled.addCalls (hfind : graph.FindsCalled pending find callees)
    {start : ExpandedSize} (hprogress : graph.Progress pending known)
    (h : ExpandedSize.addCalls find callees start known = .ok (size, known')) :
    graph.Progress pending known' ∧ Keeps known known' ∧
      ∃ lowers, List.Forall₂ (fun (callee : Nat) lower => known'[callee]? = some (some lower))
        callees lowers ∧ size = lowers.foldl (fun size lower => lower.addCall size) start := by
  induction callees generalizing known start with
  | nil =>
    rcases sizes_pure_ok.1 h with ⟨rfl, rfl⟩
    exact ⟨hprogress, fun _ _ h => h, [], .nil, rfl⟩
  | cons callee callees ih =>
    rw [ExpandedSize.addCalls_cons] at h
    rcases sizes_bind_ok.1 h with ⟨lower, middle, hfirst, hrest⟩
    -- the first callee is found, and found things stay
    have hfinds := hfind callee (by simp) known lower middle hprogress hfirst
    rcases ih (fun other hmem => hfind other (by simp [hmem])) hfinds.progress hrest with
      ⟨hprogress', hkeeps, lowers, hlowers, hsize⟩
    exact ⟨hprogress', fun number size h => hkeeps _ _ (hfinds.keeps _ _ h), lower :: lowers,
      .cons (hkeeps _ _ hfinds.found) hlowers, hsize⟩

/-- The size of a region is found if those of its calls are. -/
theorem FindsCalled.visit
    (hfind : graph.FindsCalled (insert number pending) find (graph.region number).callees)
    (hnumber : number < graph.size) (hprogress : graph.Progress pending known)
    (hnew : known[number]? = none) (h : graph.visit find number known = .ok (size, known')) :
    graph.Finds pending number size known known' := by
  rcases visit_ok.1 h with ⟨middle, hcalls, rfl⟩
  rcases hfind.addCalls (hprogress.begin hnew hnumber) hcalls with
    ⟨hprogress', hkeeps, lowers, hlowers, hsize⟩
  refine hprogress'.finish (hprogress.notMem hnew) hlowers hsize fun other found hfound => ?_
  have hne : other ≠ number := by
    rintro rfl
    rw [hnew] at hfound
    cases hfound
  exact hkeeps _ _ ((getElem?_insert_of_ne _ hne).trans hfound)

end Calls

/-- With a region more in progress, one round less is enough. -/
theorem Progress.rounds_begin {pending : Finset Nat} (h : graph.Progress pending known)
    (hnew : known[number]? = none) {rounds : Nat}
    (hrounds : graph.size + 1 ≤ rounds + 1 + pending.card) :
    graph.size + 1 ≤ rounds + (insert number pending).card := by
  rw [Finset.card_insert_of_notMem (h.notMem hnew)]
  omega

/-- There are not more regions in progress than regions. -/
theorem Progress.rounds_pos {pending : Finset Nat} (h : graph.Progress pending known)
    (hrounds : graph.size + 1 ≤ pending.card) : False := by
  have hsubset : pending ⊆ Finset.range graph.size := fun number hmem =>
    Finset.mem_range.2 (h.lt number hmem)
  have hcard := Finset.card_le_card hsubset
  rw [Finset.card_range] at hcard
  omega

/-- With as many rounds as regions that are not in progress, and one more, sizes are found. -/
theorem Closed.expandedSize_finds (hg : graph.Closed) (rounds : Nat) {pending : Finset Nat}
    (hrounds : graph.size + 1 ≤ rounds + pending.card) (hnumber : number < graph.size)
    (hentry : number ∈ pending → (graph.region number).entry.isSome)
    (hprogress : graph.Progress pending known)
    (h : graph.expandedSize rounds number known = .ok (size, known')) :
    graph.Finds pending number size known known' := by
  induction rounds generalizing number pending known known' size with
  | zero => exact (hprogress.rounds_pos (by omega)).elim
  | succ rounds ih =>
    rcases hknown : known[number]? with _ | _ | found
    · rw [expandedSize_of_new hknown] at h
      refine FindsCalled.visit (fun callee hmem known size known' hprogress' h' => ?_) hnumber
        hprogress hknown h
      obtain ⟨hlt, hcalled⟩ := closed_iff.1 hg number callee hmem
      exact ih (hprogress.rounds_begin hknown hrounds) hlt (fun _ => hcalled) hprogress' h'
    · -- what is in progress has an entry, and fails
      obtain ⟨entry, hsome⟩ := Option.isSome_iff_exists.1 (hentry ((hprogress.mem number).1 hknown))
      rw [expandedSize_of_pending hknown hsome] at h
      cases h
    · rw [expandedSize_of_known hknown] at h
      cases h
      exact ⟨hprogress, fun _ _ h => h, hknown⟩

/-! ### Paths of calls -/

/-- Calls that lead from a region to another one, each given by its index among the calls of the
region that it is in. -/
inductive Path (graph : CallGraph) : Nat → List Nat → Nat → Prop where
  | nil {number : Nat} : Path graph number [] number
  | cons {number index callee reached : Nat} {calls : List Nat} :
    (graph.region number).callees[index]? = some callee → Path graph callee calls reached →
      Path graph number (index :: calls) reached

variable {reached : Nat} {calls : List Nat}

/-- What is reached from a region has a size, and a depth that is lower by the number of calls. -/
theorem Descends.along (hd : graph.Descends known) (h : graph.Path number calls reached)
    (hsize : known[number]? = some (some size)) :
    ∃ lower, known[reached]? = some (some lower) ∧ lower.depth + calls.length ≤ size.depth := by
  induction h generalizing size with
  | nil => exact ⟨size, hsize, Nat.le_refl _⟩
  | cons hcall _ ih =>
    obtain ⟨lower, hlower, hlt⟩ := hd _ size hsize _ (List.mem_of_getElem? hcall)
    obtain ⟨last, hlast, hle⟩ := ih hlower
    exact ⟨last, hlast, by simp only [List.length_cons]; omega⟩

/-- Some path is as long as the depth of a region. -/
theorem Tallies.exists_path (ht : graph.Tallies known) (hsize : known[number]? = some (some size)) :
    ∃ calls reached, graph.Path number calls reached ∧ calls.length = size.depth := by
  induction hdepth : size.depth generalizing number size with
  | zero => exact ⟨[], number, .nil, rfl⟩
  | succ depth ih =>
    obtain ⟨lowers, hlowers, rfl⟩ := ht number size hsize
    rcases ExpandedSize.depth_foldl_addCall_cases lowers ⟨0, (graph.region number).operations⟩ with
      hzero | ⟨lower, hmem, hlower⟩
    · have hsucc : depth + 1 = 0 := hdepth.symm.trans hzero
      omega
    · -- the depth comes from one of the calls
      have hsucc : depth + 1 = lower.depth + 1 := hdepth.symm.trans hlower
      obtain ⟨callee, hcallee, hknown⟩ := forall₂_exists hlowers.flip hmem
      obtain ⟨index, hindex⟩ := List.mem_iff_getElem?.1 hcallee
      obtain ⟨calls, reached, hpath, hlength⟩ := ih hknown (by omega)
      exact ⟨index :: calls, reached, .cons hindex hpath, congrArg (· + 1) hlength⟩

/-! ### Operations -/

/-- The number of operations of a region in which calls are replaced up to some levels. -/
def nestedOperations (graph : CallGraph) : (levels number : Nat) → Nat
  | 0, _ => 0
  | levels + 1, number => (graph.region number).operations +
    ((graph.region number).callees.map (graph.nestedOperations levels)).sum

/-- The operations that were counted for a region are its own, and those of the regions that are
called in it. -/
theorem Tallies.operations (ht : graph.Tallies known) (levels : Nat)
    (hsize : known[number]? = some (some size)) (hlevels : size.depth < levels) :
    min size.operations ExpandedSize.maxOperations =
      min (graph.nestedOperations levels number) ExpandedSize.maxOperations := by
  induction levels generalizing number size with
  | zero => omega
  | succ levels ih =>
    have hd := ht.descends number size hsize
    rcases ht number size hsize with ⟨lowers, hlowers, rfl⟩
    -- what is called has a lower depth
    have hcounts := ((List.forall₂_and_left _ _).2 ⟨hd, hlowers⟩).imp
      fun callee lower (hcallee : _ ∧ known[callee]? = some (some lower)) => by
        rcases hcallee with ⟨⟨found, hfound, hlt⟩, hlower⟩
        rw [hlower] at hfound
        cases hfound
        exact ih hlower (by omega)
    exact ExpandedSize.operations_foldl_addCall hcounts rfl

end CallGraph

namespace Regions

variable {regions : Regions} {body : Body}

theorem region_eq_default {number : Nat} (h : regions.regions.size ≤ number) :
    regions.region number = default := by
  unfold region
  rw [Array.getD_eq_getD_getElem?, Array.getElem?_eq_none h]
  rfl

/-- Each position belongs to a region. -/
theorem owner_lt {body : Body} (hc : regions.Cuts body) (position : Nat) :
    regions.owner position < regions.regions.size := by
  by_cases hlt : position < body.nodes.length
  · exact hc.known position hlt
  · -- behind the last node the outer region is meant
    have howner : regions.owner position = outer := by
      unfold owner
      rw [Array.getD_eq_getD_getElem?, Array.getElem?_eq_none (by rw [hc.size]; omega)]
      rfl
    rw [howner]
    exact hc.some_region

/-- The contents of a region are nodes of the body. -/
theorem contents_subset (hnodes : regions.flow.nodes = body.nodes.toArray) (number : Nat) :
    regions.contents number ⊆ body.nodes := by
  intro node hnode
  obtain ⟨⟨found, owner⟩, hmem, hfound⟩ := List.mem_filterMap.1 hnode
  dsimp only at hfound
  split at hfound
  · obtain rfl := Option.some.inj hfound
    have hextract := (List.of_mem_zip hmem).1
    rw [hnodes, Array.toList_extract, List.extract_eq_take_drop] at hextract
    exact List.mem_of_mem_drop (List.mem_of_mem_take hextract)
  · cases hfound

/-- What is called by a label is the region that owns it. -/
theorem callee_eq (hc : regions.Cuts body) {label : Label} {place : Nat}
    (hplace : body.nodes[place]? = some (.label label)) :
    regions.callee label = regions.owner place := by
  have hposition := (hc.flow.position_ok label place).2 hplace
  unfold Flow.position at hposition
  unfold callee
  rw [Std.HashMap.getD_eq_getD_getElem?]
  cases hfound : regions.flow.positions[label]? with
  | none =>
    rw [hfound] at hposition
    cases hposition
  | some found =>
    rw [hfound] at hposition
    cases hposition
    rfl

/-- A call leads to a subroutine, which has a label by which it is called. -/
theorem entry_of_mem_callees (hc : regions.Cuts body) {number callee : Nat}
    (h : callee ∈ regions.callees number) :
    callee < regions.regions.size ∧ (regions.region callee).entry.isSome := by
  rcases List.mem_filterMap.1 h with ⟨node, hmem, hnode⟩
  split at hnode
  · rename_i target
    cases hnode
    have hcalls : body.Calls target := contents_subset hc.flow.nodes_eq number hmem
    rcases hc.placed target hcalls with ⟨place, hplace⟩
    rw [callee_eq hc hplace, (hc.entered place target hplace hcalls).2.2]
    exact ⟨owner_lt hc place, rfl⟩
  · cases hnode

theorem callee_lt (hc : regions.Cuts body) {number callee : Nat}
    (h : callee ∈ regions.callees number) : callee < regions.regions.size :=
  (entry_of_mem_callees hc h).1

/-! ### The calls in the regions of a body -/

theorem size_callGraph (regions : Regions) : regions.callGraph.size = regions.regions.size :=
  Array.size_ofFn

/-- A number that no region has stands for an empty region, which calls nothing. -/
theorem region_callGraph (regions : Regions) (number : Nat) : regions.callGraph.region number =
    ⟨(regions.region number).entry, regions.callees number,
      (regions.contents number).countP Node.isOperation⟩ := by
  unfold callGraph CallGraph.region
  rw [Array.getD_eq_getD_getElem?, Array.getElem?_ofFn]
  split
  · rfl
  · rename_i hlt
    have hdefault := region_eq_default (Nat.le_of_not_lt hlt)
    have hstop : (default : Region).stop = 0 := rfl
    have hcontents : regions.contents number = [] := by simp [contents, hdefault, hstop]
    unfold callees
    rw [hdefault, hcontents]
    rfl

theorem closed_callGraph (hc : regions.Cuts body) : regions.callGraph.Closed := by
  refine CallGraph.closed_iff.2 fun number callee hmem => ?_
  rw [region_callGraph] at hmem
  rw [size_callGraph, region_callGraph]
  exact entry_of_mem_callees hc hmem

/-- Called regions have lower depths. -/
theorem descends_callGraph {known : KnownSizes} (h : regions.callGraph.Descends known)
    {number : Nat} {size : ExpandedSize} (hsize : known[number]? = some (some size)) {callee : Nat}
    (hmem : callee ∈ regions.callees number) :
    ∃ lower, known[callee]? = some (some lower) ∧ lower.depth < size.depth := by
  refine h number size hsize callee ?_
  rwa [region_callGraph]

/-- The size of a body is that of the outer region. -/
theorem totalSize_ok {size : ExpandedSize} : regions.totalSize = .ok size ↔
    ∃ known, regions.callGraph.expandedSize (regions.callGraph.size + 1) outer ∅ =
      .ok (size, known) := by
  unfold totalSize
  constructor
  · intro h
    rcases except_bind_ok.1 h with ⟨⟨found, known⟩, hrun, ⟨⟩⟩
    exact ⟨known, hrun⟩
  · rintro ⟨known, hrun⟩
    exact except_bind_ok.2 ⟨(size, known), hrun, rfl⟩

/-- The size of a whole body is added up from those of the regions that are called in it. -/
theorem totalSize_tallies (hc : regions.Cuts body) {size : ExpandedSize}
    (h : regions.totalSize = .ok size) :
    ∃ known, regions.callGraph.Tallies known ∧ known[outer]? = some (some size) := by
  rcases totalSize_ok.1 h with ⟨known, hrun⟩
  have houter : outer < regions.callGraph.size := by
    rw [size_callGraph]
    exact hc.some_region
  have hfinds := (closed_callGraph hc).expandedSize_finds _ (by simp) houter (by simp)
    (CallGraph.progress_empty _) hrun
  exact ⟨known, hfinds.progress.tallies, hfinds.found⟩

/-- Every region has a depth that is higher than those of the regions it calls, as far as regions
are called from the outer one. -/
theorem totalSize_descends (hc : regions.Cuts body) {size : ExpandedSize}
    (h : regions.totalSize = .ok size) :
    ∃ known, regions.callGraph.Descends known ∧ known[outer]? = some (some size) := by
  rcases totalSize_tallies hc h with ⟨known, ht, hknown⟩
  exact ⟨known, ht.descends, hknown⟩

end Regions

/-! ### Regions that call one subroutine -/

namespace CallGraph

variable {graph : CallGraph} {number callee count : Nat} {known middle : KnownSizes}
variable {lower : ExpandedSize}

/-- A region without calls has its own size. -/
theorem expandedSize_of_no_callee (rounds : Nat) (hnew : known[number]? = none)
    (hcallees : (graph.region number).callees = []) :
    graph.expandedSize (rounds + 1) number known =
      .ok (graph.tally number [],
        (known.insert number none).insert number (some (graph.tally number []))) := by
  rw [expandedSize_of_new hnew]
  refine visit_ok.2 ⟨_, ?_, rfl⟩
  rw [hcallees]
  rfl

/-- The size of a subroutine is found for the first call, and known for the other ones. -/
theorem expandedSize_of_one_callee {rounds : Nat} (hnew : known[number]? = none)
    (hcallees : (graph.region number).callees = List.replicate (count + 1) callee)
    (hcallee : graph.expandedSize (rounds + 1) callee (known.insert number none) =
      .ok (lower, middle))
    (hfound : middle[callee]? = some (some lower)) :
    graph.expandedSize (rounds + 2) number known =
      .ok (graph.tally number (List.replicate (count + 1) lower),
        middle.insert number (some (graph.tally number (List.replicate (count + 1) lower)))) := by
  rw [expandedSize_of_new hnew]
  refine visit_ok.2 ⟨middle, ?_, rfl⟩
  rw [hcallees, List.replicate_succ, ExpandedSize.addCalls_cons]
  exact sizes_bind_ok.2 ⟨_, _, hcallee,
    ExpandedSize.addCalls_replicate (expandedSize_of_known hfound) count _⟩

end CallGraph

namespace Regions

variable {regions : Regions} {callee count : Nat}

/-- The size of a body whose only subroutine calls nothing. -/
theorem totalSize_of_one_callee (hregions : 0 < regions.regions.size) (hne : outer ≠ callee)
    (houter : regions.callees outer = List.replicate (count + 1) callee)
    (hcallee : regions.callees callee = []) :
    regions.totalSize =
      .ok ((List.replicate (count + 1)
        ⟨0, (regions.contents callee).countP Node.isOperation⟩).foldl
          (fun size lower => ExpandedSize.addCall lower size)
            ⟨0, (regions.contents outer).countP Node.isOperation⟩) := by
  obtain ⟨rounds, hrounds⟩ := Nat.exists_eq_add_of_le' hregions
  have hnew : ((∅ : KnownSizes).insert outer none)[callee]? = none := by
    rw [getElem?_insert_of_ne _ hne.symm, Std.HashMap.getElem?_empty]
  have hinner : (regions.callGraph.region callee).callees = [] := by
    rw [region_callGraph, hcallee]
  have hwhole : (regions.callGraph.region outer).callees = List.replicate (count + 1) callee := by
    rw [region_callGraph, houter]
  have hsize := CallGraph.expandedSize_of_one_callee Std.HashMap.getElem?_empty hwhole
    (CallGraph.expandedSize_of_no_callee rounds hnew hinner) Std.HashMap.getElem?_insert_self
  have hmany : rounds + 2 = regions.callGraph.size + 1 := by
    rw [size_callGraph]
    omega
  rw [hmany] at hsize
  unfold CallGraph.tally at hsize
  rw [region_callGraph, region_callGraph] at hsize
  exact totalSize_ok.2 ⟨_, hsize⟩

end Regions

end Preverification

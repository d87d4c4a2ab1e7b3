import Preverification.Proofs.Effects
import Preverification.WidthVector
import Mathlib.Algebra.GroupWithZero.Nat

/-!
# Looking elements up by offset

As long as elements are only added, the offsets of a vector ascend, and bisection finds the element
that starts at an offset. What is found stays there when more elements are added.

* `WidthVector.Ascends`: the offsets of a vector ascend.
* `WidthVector.reached_spec`: bisection finds where the entries end that start at an offset or
  earlier.
* `WidthVector.Ascends.lookup_cases`: an element is found, or the answer is about the next one.
* `WidthVector.lookup_eq_some`: what is found at an offset is the element that starts there.
-/

namespace Preverification

/-- The number of slots is a sum of widths. -/
theorem totalWidth_eq_sum {α : Type} [HasWidth α] (xs : List α) :
    totalWidth xs = (xs.map width).sum := by
  induction xs with
  | nil => rfl
  | cons x xs ih => rw [totalWidth, ih, List.map_cons, List.sum_cons]

namespace WidthVector

variable {α : Type}

/-- The offsets ascend, and the next offset is above all of them. -/
structure Ascends (v : WidthVector α) : Prop where
  ascending : v.entries.toList.Pairwise fun entry later => entry.1 < later.1
  below : ∀ entry ∈ v.entries.toList, entry.1 < v.offsetLength

variable {v : WidthVector α} {offset index : Nat} {x : α}

theorem ascends_emptyAt (start : Nat) : (emptyAt start : WidthVector α).Ascends :=
  ⟨.nil, nofun⟩

/-- A further element starts where the vector ended. -/
theorem Ascends.push [HasWidth α] (h : v.Ascends) (hpos : 0 < width x) : (v.push x).Ascends := by
  obtain ⟨hascending, hbelow⟩ := h
  constructor
  · rw [WidthVector.push, Array.toList_push, List.pairwise_append]
    refine ⟨hascending, List.pairwise_singleton _ _, ?_⟩
    intro entry hentry last hlast
    rw [List.mem_singleton.1 hlast]
    exact hbelow entry hentry
  · intro entry hentry
    rw [WidthVector.push, Array.toList_push] at hentry
    change entry.1 < v.offsetLength + width x
    rcases List.mem_append.1 hentry with hentry | hentry
    · have := hbelow entry hentry
      omega
    · rw [List.mem_singleton.1 hentry]
      exact Nat.lt_add_of_pos_right hpos

theorem Ascends.append [HasWidth α] (h : v.Ascends) {xs : List α} (hpos : ∀ x ∈ xs, 0 < width x) :
    (v.append xs).Ascends := by
  induction xs generalizing v with
  | nil => exact h
  | cons x xs ih =>
    obtain ⟨hx, hxs⟩ := List.forall_mem_cons.1 hpos
    exact ih (h.push hx) hxs

/-- Of two entries the later one has the higher offset. -/
theorem Ascends.lt_iff (h : v.Ascends) {index' : Nat} {entry entry' : Nat × α}
    (hentry : v.entries[index]? = some entry) (hentry' : v.entries[index']? = some entry') :
    index < index' ↔ entry.1 < entry'.1 := by
  have hlt : ∀ {i j : Nat} {a b : Nat × α}, v.entries[i]? = some a → v.entries[j]? = some b →
      i < j → a.1 < b.1 := by
    intro i j a b ha hb hij
    rw [← Array.getElem?_toList, List.getElem?_eq_some_iff] at ha hb
    obtain ⟨hi, rfl⟩ := ha
    obtain ⟨hj, rfl⟩ := hb
    exact List.pairwise_iff_getElem.1 h.ascending i j hi hj hij
  constructor
  · exact hlt hentry hentry'
  · intro hoffset
    by_contra hge
    rcases Nat.eq_or_lt_of_le (Nat.not_lt.1 hge) with heq | hless
    · subst heq
      rw [hentry] at hentry'
      cases hentry'
      exact Nat.lt_irrefl _ hoffset
    · have := hlt hentry' hentry hless
      omega

/-- Bisection finds where the entries end that start at an offset or earlier. -/
theorem reached_spec (offset : Nat) {entries : Array (Nat × α)} {lo hi : Nat} (hle : lo ≤ hi)
    (hhi : hi ≤ entries.size)
    (hlow : ∀ index (entry : Nat × α), index < lo → entries[index]? = some entry →
      entry.1 ≤ offset)
    (hhigh : ∀ index (entry : Nat × α), hi ≤ index → entries[index]? = some entry →
      offset < entry.1)
    (hascends : ∀ (i j : Nat) (a b : Nat × α), entries[i]? = some a → entries[j]? = some b →
      i ≤ j → a.1 ≤ b.1) :
    reached entries offset lo hi ≤ entries.size ∧
      ∀ index (entry : Nat × α), entries[index]? = some entry →
        (index < reached entries offset lo hi ↔ entry.1 ≤ offset) := by
  -- entries below `lo` start early enough, and those from `hi` on too late
  fun_induction reached entries offset lo hi with
  | case1 lo hi hlt mid hnone =>
    have hmid : mid < entries.size := by omega
    rw [Array.getElem?_eq_getElem hmid] at hnone
    cases hnone
  | case2 lo hi hlt mid start found hmid hreaches ih =>
    refine ih (by omega) hhi ?_ hhigh
    intro index entry hindex hentry
    have := hascends index mid entry _ hentry hmid (by omega)
    dsimp only at this
    omega
  | case3 lo hi hlt mid start found hmid hreaches ih =>
    refine ih (by omega) (by omega) hlow ?_
    intro index entry hindex hentry
    have := hascends mid index _ entry hmid hentry hindex
    dsimp only at this
    omega
  | case4 lo hi hge =>
    refine ⟨by omega, ?_⟩
    intro index entry hentry
    constructor
    · intro hindex
      exact hlow index entry hindex hentry
    · intro hentry'
      by_contra hindex
      have := hhigh index entry (by omega) hentry
      omega

/-- Either an element starts at an offset and is found, or none does, and the answer is about the
next one. -/
theorem Ascends.lookup_cases (h : v.Ascends) (offset : Nat) :
    (∃ index x, v.entries[index]? = some (offset, x) ∧ v.lookup offset = .found index x) ∨
      ∃ next, next ≤ v.size ∧ v.lookup offset = v.missed next ∧
        ∀ index (entry : Nat × α), v.entries[index]? = some entry →
          entry.1 ≠ offset ∧ (index < next ↔ entry.1 < offset) := by
  have hle : ∀ (i j : Nat) (a b : Nat × α), v.entries[i]? = some a → v.entries[j]? = some b →
      i ≤ j → a.1 ≤ b.1 := by
    intro i j a b ha hb hij
    by_contra hlt
    have := (h.lt_iff hb ha).2 (by omega)
    omega
  obtain ⟨hsize, hreached⟩ := reached_spec offset (Nat.zero_le v.size) (Nat.le_refl _)
    (fun index entry hlt _ => absurd hlt (Nat.not_lt_zero _))
    (fun index entry hge hentry => by
      have := (Array.getElem?_eq_some_iff.1 hentry).1
      unfold size at hge
      omega)
    hle
  unfold lookup
  split
  · -- no element starts at the offset or earlier
    rename_i hzero
    rw [hzero] at hreached
    refine .inr ⟨0, Nat.zero_le _, rfl, fun index entry hentry => ?_⟩
    have := hreached index entry hentry
    omega
  · rename_i last hlast
    rw [hlast] at hreached hsize
    obtain ⟨⟨start, found⟩, hself⟩ : ∃ entry, v.entries[last]? = some entry :=
      ⟨_, Array.getElem?_eq_getElem (by omega)⟩
    rw [hself]
    dsimp only
    split
    · rename_i hstart
      subst hstart
      exact .inl ⟨last, found, hself, rfl⟩
    · -- the last element that starts at the offset or earlier is the only one that may start there
      rename_i hstart
      refine .inr ⟨last + 1, hsize, rfl, fun index entry hentry => ?_⟩
      have hindex := hreached index entry hentry
      have hbound := (hreached last _ hself).1 (Nat.lt_succ_self last)
      have hbefore := hle index last entry _ hentry hself
      dsimp only at hbound hbefore
      omega

/-- An element is found at an offset exactly if it starts there. -/
theorem lookup_eq_found (h : v.Ascends) :
    v.lookup offset = .found index x ↔ v.entries[index]? = some (offset, x) := by
  rcases h.lookup_cases offset with ⟨index', x', hentry, hlookup⟩ | ⟨next, -, hlookup, hmissed⟩
  · rw [hlookup]
    constructor
    · intro hfound
      cases hfound
      exact hentry
    · intro hentry'
      -- no two elements start at the same offset
      have hlt := h.lt_iff hentry hentry'
      have hgt := h.lt_iff hentry' hentry
      dsimp only at hlt hgt
      obtain rfl : index' = index := by omega
      rw [hentry] at hentry'
      cases hentry'
      rfl
  · rw [hlookup]
    constructor
    · intro hfound
      unfold missed at hfound
      split at hfound <;> cases hfound
    · intro hentry
      exact absurd rfl (hmissed index _ hentry).1

/-- What is found at an offset is the element that starts there. -/
theorem lookup_eq_some (h : v.Ascends) :
    (v.lookup offset).toOption = some x ↔ (offset, x) ∈ v.entries.toList := by
  rw [List.mem_iff_getElem?]
  simp only [Array.getElem?_toList, ← lookup_eq_found h]
  constructor
  · intro hsome
    cases hlookup : v.lookup offset with
    | found index found =>
      rw [hlookup] at hsome
      cases hsome
      exact ⟨index, rfl⟩
    | between | beyond =>
      rw [hlookup] at hsome
      cases hsome
  · rintro ⟨index, hlookup⟩
    rw [hlookup]
    rfl

end WidthVector

end Preverification

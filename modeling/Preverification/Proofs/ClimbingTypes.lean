import Preverification.Proofs.MergeBound
import Preverification.Proofs.TransferLimits
import Preverification.Proofs.UncachedAnswers

/-!
# How what is known climbs

What is known in front of an operation changes when control arrives there on one more way. Then it
climbs: a local that was missing is added as an unusable one, a local becomes unusable, null becomes
an object, a class becomes a later one of its chain of superclasses or the root, and an array
becomes a class or an array of what its elements climb to. The other slots stay as they are.

Classes that cannot be resolved do not matter here. Where their chains are needed the merge fails,
and where they are not the root or a class of arrays takes their place.

* `RefType.Climbs`, `InferredType.Climbs`, `TypeState.Climbs`: how what is known may change.
* `Headers.CommonRefType.climbs`: a type climbs to what it has in common with another one.
* `states_climbs`: what becomes of a state that is merged is what it was, or it climbs.
-/

namespace Preverification

/-- A type of objects becomes a higher one. -/
inductive RefType.Climbs (headers : Headers) : RefType → RefType → Prop where
  | chain {name other : BinaryName} {looked chain : List BinaryName}
    (h : headers.Chain [] name looked (.ok chain)) (hmem : other ∈ chain) (hne : other ≠ name) :
    Climbs headers (.object name) (.object other)
  | root {name : BinaryName} (hne : name ≠ .object) : Climbs headers (.object name) (.object .object)
  | array {type : RefType} (h : type.IsArray) {name : BinaryName} (hname : name.isArraySupertype) :
    Climbs headers type (.object name)
  | element {type element other : RefType} (h : type.element? = some (.ref element))
    (hclimbs : Climbs headers element other) : Climbs headers type (other.addDimensions 1)

/-- A type of values becomes a higher one. -/
inductive InferredType.Climbs (headers : Headers) : InferredType → InferredType → Prop where
  | top {type : InferredType} (hne : type ≠ .top) : Climbs headers type .top
  | null (type : RefType) : Climbs headers .null (.object type)
  | object {type other : RefType} (h : RefType.Climbs headers type other) :
    Climbs headers (.object type) (.object other)

/-- Some slots become higher ones, or stay as they are. What is added cannot be used. -/
structure Raises (headers : Headers) (old new : List InferredType) : Prop where
  length_le : old.length ≤ new.length
  climbs : ∀ slot < old.length, localAt new slot = localAt old slot ∨
    InferredType.Climbs headers (localAt old slot) (localAt new slot)
  added : ∀ slot, old.length ≤ slot → localAt new slot = .top

/-- A state becomes a higher one, in which there is some room for locals. -/
structure TypeState.Climbs (headers : Headers) (room : Nat) (old new : TypeState) : Prop where
  locals : Raises headers old.locals new.locals
  stack : Raises headers old.stack.values new.stack.values
  room : new.locals.length ≤ room
  size : new.stack.size = old.stack.size
  changed : new ≠ old

/-! ### Classes and arrays -/

namespace Headers

variable {headers : Headers} {looked : List BinaryName}

/-- The first one of two classes climbs to what they have in common. -/
theorem CommonSuperclass.climbs {first second common : BinaryName}
    (h : headers.CommonSuperclass first second looked (.ok common)) :
    common = first ∨ RefType.Climbs headers (.object first) (.object common) := by
  cases h with
  | same => exact .inl rfl
  | meet hne hsecond hchain =>
    rename_i others chain
    cases hfind : chain.find? (· ∈ others) with
    | none =>
      -- without a class in both chains the root is left
      by_cases hroot : first = .object
      · exact .inl hroot.symm
      · exact .inr (.root hroot)
    | some found =>
      by_cases hother : found = first
      · exact .inl hother
      · exact .inr (.chain hchain (List.mem_of_find?_eq_some hfind) hother)

/-- The first one of two types climbs to what they have in common. -/
theorem CommonRefType.climbs {first second common : RefType}
    (h : headers.CommonRefType first second looked (.ok common)) :
    common = first ∨ RefType.Climbs headers first common := by
  generalize hanswer : (.ok common : Except ResolveError RefType) = answer at h
  induction h generalizing common with
  | same =>
    cases hanswer
    exact .inl rfl
  | classes _ hcommon =>
    obtain ⟨name, rfl, rfl⟩ := except_map_ok.1 hanswer.symm
    rcases hcommon.climbs with rfl | hclimbs
    · exact .inl rfl
    · exact .inr hclimbs
  | classAndArray name =>
    cases hanswer
    -- only the interfaces of arrays stay; any other class becomes the root
    by_cases hname : name.isArraySupertype
    · rw [if_pos hname]
      exact .inl rfl
    · rw [if_neg hname]
      refine .inr (.root ?_)
      rintro rfl
      exact hname rfl
  | arrayAndClass name harray =>
    cases hanswer
    -- an array becomes a class of arrays, or the root
    refine .inr (.array harray ?_)
    split
    · assumption
    · rfl
  | elements _ hfirst _ _ ih =>
    -- one dimension is put back around what the elements have in common
    obtain ⟨inner, rfl, rfl⟩ := except_map_ok.1 hanswer.symm
    rcases ih rfl with rfl | hclimbs
    · exact .inl (RefType.addDimensions_of_element? hfirst 0)
    · exact .inr (.element hfirst hclimbs)
  | others _ harray =>
    cases hanswer
    exact .inr (.array harray rfl)

end Headers

/-- An array climbs to no type of more dimensions. -/
theorem RefType.Climbs.dimensions_le {headers : Headers} {type other : RefType}
    (h : RefType.Climbs headers type other) : other.dimensions ≤ type.dimensions := by
  induction h with
  | chain | root => exact Nat.le_refl 0
  | array => exact Nat.zero_le _
  | @element type element other htype _ ih =>
    have hless := RefType.dimensions_of_element? htype
    have hone : (other.addDimensions 1).dimensions = other.dimensions + 1 := by
      cases other <;> rfl
    omega

/-- Nothing climbs to null. -/
theorem InferredType.Climbs.ne_null {headers : Headers} {type other : InferredType}
    (h : InferredType.Climbs headers type other) : other ≠ .null := by
  cases h <;> nofun

/-! ### Two types meet -/

/-- What a type becomes when it is merged with another one. -/
structure InferredType.Merges (headers : Headers) (most : Nat) (type merged : InferredType) :
    Prop where
  climbs : merged = type ∨ InferredType.Climbs headers type merged
  dimensions_le : merged.dimensions ≤ most

theorem InferredType.Merges.top (headers : Headers) (most : Nat) (type : InferredType) :
    InferredType.Merges headers most type .top := by
  refine ⟨?_, Nat.zero_le _⟩
  by_cases h : type = .top
  · exact .inl h.symm
  · exact .inr (.top h)

section Merge

open Resolver

variable {headers : Headers} {most : Nat} {resolver : Resolver}

/-- Two types meet at one to which the first one climbs, or at none. -/
theorem types_merges {first second : InferredType} (hheaders : resolver.header? = headers)
    (hfirst : first.dimensions ≤ most) (hsecond : second.dimensions ≤ most) :
    Answers (Merge.types first second) resolver fun common =>
      ∀ type, common = some type → InferredType.Merges headers most first type := by
  unfold Merge.types
  split
  · refine .pure ?_
    rintro _ ⟨⟩
    exact ⟨.inl rfl, hfirst⟩
  · split
    · -- null becomes an object
      refine .pure ?_
      rintro _ ⟨⟩
      exact ⟨.inr (.null _), hsecond⟩
    · refine .pure ?_
      rintro _ ⟨⟩
      exact ⟨.inl rfl, hfirst⟩
    · -- two references meet at a common type, which the resolver gives by the rules
      rename_i type other _
      -- what it answers does not depend on what it keeps
      have hcommon : Answers (commonRefType type other) resolver fun common =>
          common = type ∨ RefType.Climbs headers type common := by
        intro common resolver' hrun
        obtain ⟨looked, answer, hanswer, resolver'', hgives, hlooked⟩ :=
          commonRefType_gives type other resolver
        rw [hrun] at hgives
        cases answer with
        | error => cases hgives
        | ok found =>
          cases hgives
          rw [hheaders] at hanswer
          exact ⟨hlooked.header?_eq, hanswer.climbs⟩
      refine .bind (Merge.query_answers hcommon) fun common _ hcommon _ => .pure ?_
      rintro _ ⟨⟩
      rcases hcommon with rfl | hclimbs
      · exact ⟨.inl rfl, hfirst⟩
      · exact ⟨.inr (.object hclimbs), Nat.le_trans hclimbs.dimensions_le hfirst⟩
    · exact .pure nofun

/-! ### Two lists of types meet -/

/-- Lists of as many types are raised type by type. -/
theorem raises_of_merges {types merged : List InferredType}
    (h : List.Forall₂ (InferredType.Merges headers most) types merged) :
    Raises headers types merged ∧ DimensionsWithin most merged := by
  have hlength := h.length_eq
  constructor
  · refine ⟨Nat.le_of_eq hlength, ?_, ?_⟩
    · intro slot hlt
      exact (forall₂_getElem? h (localAt_of_lt hlt) (localAt_of_lt (hlength ▸ hlt))).climbs
    · intro slot hle
      exact localAt_of_le (hlength ▸ hle)
  · intro type hmem
    rcases forall₂_exists h.flip hmem with ⟨_, _, hmerges⟩
    exact hmerges.dimensions_le

/-- Each value of the stack is as it was, or it climbs. -/
theorem operandStacks_raises {first second : OperandStack} (hheaders : resolver.header? = headers)
    (hfirst : DimensionsWithin most first.values)
    (hsecond : DimensionsWithin most second.values) :
    Answers (Merge.operandStacks first second) resolver fun merged =>
      Raises headers first.values merged.values ∧ DimensionsWithin most merged.values ∧
        merged.size = first.size := by
  have hpairs : ∀ pair ∈ first.toList.zip second.toList, ∀ resolver',
      resolver'.header? = resolver.header? →
        Answers (Merge.stackTypes pair.1 pair.2) resolver' fun merged =>
          InferredType.Merges headers most pair.1 merged ∧ True := by
    intro pair hpair resolver' hsame
    obtain ⟨hmem, hmem'⟩ := List.of_mem_zip hpair
    have hmerges := types_merges (hsame.trans hheaders) (hfirst _ (List.mem_reverse.2 hmem))
      (hsecond _ (List.mem_reverse.2 hmem'))
    unfold Merge.stackTypes
    refine .bind hmerges fun common _ hcommon _ => ?_
    cases common with
    | none => exact .throw
    | some type => exact .pure ⟨hcommon type rfl, trivial⟩
  intro merged resolver' hrun
  obtain ⟨hsame, hlen, hvalues⟩ := Merge.operandStacks_pairwise hpairs merged resolver' hrun
  have hbottom : List.Forall₂ (InferredType.Merges headers most) first.toList merged.toList :=
    (Merge.forall₂_of_zip (S := fun _ _ => True) hvalues hlen).1
  have hall : List.Forall₂ (InferredType.Merges headers most) first.values merged.values :=
    List.rel_reverse hbottom
  obtain ⟨hraises, hwithin⟩ := raises_of_merges hall
  have hsize : merged.size = first.size := by
    rw [merged.size_eq, first.size_eq, hall.length_eq]
  exact ⟨hsame, hraises, hwithin, hsize⟩

/-- Making values unusable that have lost their second slot changes no length. -/
theorem length_keepPaired (locals : List InferredType) :
    (Merge.keepPaired locals).length = locals.length := by
  cases locals <;> simp [Merge.keepPaired]

/-- A merge raises each local variable, where one that was missing is added as an unusable one. -/
theorem locals_raises {first second : List InferredType} (hheaders : resolver.header? = headers)
    (hfirst : DimensionsWithin most first) (hsecond : DimensionsWithin most second) :
    Answers (Merge.locals first second) resolver fun merged =>
      Raises headers first merged ∧ DimensionsWithin most merged ∧
        merged.length = max first.length second.length := by
  unfold Merge.locals
  refine .bind (P := List.Forall₂
    (fun pair merged => InferredType.Merges headers most pair.1 merged)
    (first.zip second)) (.mapM fun pair hpair resolver' hsame => ?_)
    fun commons _ hcommons _ => .pure ?_
  · -- variables that both sides have
    obtain ⟨hmem, hmem'⟩ := List.of_mem_zip hpair
    refine .bind (types_merges (hsame.trans hheaders) (hfirst _ hmem) (hsecond _ hmem'))
      fun common _ hcommon _ => .pure ?_
    cases common with
    | none => exact .top _ _ _
    | some type => exact hcommon type rfl
  · -- they are as many as the shorter list has
    have hlen : commons.length = min first.length second.length := by
      rw [← hcommons.length_eq, List.length_zip]
    -- what one of the lists lacks is filled up
    have hlength : (Merge.keepPaired (commons ++ List.replicate
        (max first.length second.length - commons.length) .top)).length =
          max first.length second.length := by
      rw [length_keepPaired, List.length_append, List.length_replicate]
      omega
    have hmerges : ∀ slot, InferredType.Merges headers most (localAt first slot)
        (localAt (Merge.keepPaired (commons ++ List.replicate
          (max first.length second.length - commons.length) .top)) slot) := by
      exact fun slot => Merge.keepPaired_slots (fun pair => .top _ _ pair.1) hcommons _ slot
    refine ⟨⟨by omega, fun slot _ => (hmerges slot).climbs, ?_⟩, ?_, hlength⟩
    · -- what was missing is unusable
      intro slot hle
      rw [localAt_keepPaired, localAt_append_top, localAt_of_le (by omega)]
      split <;> rfl
    · -- what is merged has no more dimensions than one of the two types
      intro type hmem
      obtain ⟨slot, hlt, rfl⟩ := List.getElem_of_mem hmem
      have hslot := (List.getElem?_eq_getElem hlt).symm.trans (localAt_of_lt hlt)
      rw [Option.some.inj hslot]
      exact (hmerges slot).dimensions_le

/-! ### Two states meet -/

/-- What becomes of a state that is merged with another one: it is as it was, or it climbs. -/
theorem states_climbs {first second : TypeState} {room : Nat}
    (hheaders : resolver.header? = headers) (hfirst : first.Within most room)
    (hsecond : second.Within most room) :
    Answers (Merge.states first second) resolver fun merged =>
      merged.Within most room ∧ merged.stack.size = first.stack.size ∧
        (merged = first ∨ first.Climbs headers room merged) := by
  unfold Merge.states
  refine .bind (operandStacks_raises hheaders hfirst.stack hsecond.stack)
    fun stack _ hstack hsame => ?_
  refine .bind (locals_raises (hsame.trans hheaders) hfirst.locals hsecond.locals)
    fun locals _ hlocals _ => .pure ?_
  obtain ⟨hstack, hwithin, hsize⟩ := hstack
  obtain ⟨hlocals, hwithin', hlength⟩ := hlocals
  have hroom : locals.length ≤ room := by
    rw [hlength]
    exact Nat.max_le.2 ⟨hfirst.room, hsecond.room⟩
  refine ⟨⟨hwithin', hwithin, hroom⟩, hsize, ?_⟩
  by_cases hsame : (⟨locals, stack⟩ : TypeState) = first
  · exact .inl hsame
  · exact .inr ⟨hlocals, hstack, hroom, hsize, hsame⟩

end Merge

end Preverification

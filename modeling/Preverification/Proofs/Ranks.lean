import Mathlib.Algebra.Group.Action.Defs
import Mathlib.Algebra.Order.BigOperators.Group.Finset
import Mathlib.Tactic.Ring
import Preverification.Proofs.ClimbingTypes

/-!
# How far what is known can rise

Whenever a type climbs its rank becomes lower, and so does the rank of the state that it belongs to,
which is the sum over all slots.

A rank is measured by the number of superclasses of a class and by the number of dimensions of an
array. The root must not have a superclass: without that two classes may meet at the root, and then
above it.

* `Scale`: what ranks are measured by.
* `Scale.rank_lt_of_climbs`: a type that climbs has a lower rank then.
* `Scale.listRank_lt`: a list that is raised is as it was, or its rank is lower.
* `Scale.stateRank_lt_of_climbs`: so has a state, if null becomes no array of too many dimensions.
-/

namespace Preverification

/-! ### Classes -/

namespace Headers

variable {headers : Headers}

/-- The number of superclasses above a class, as far as some rounds lead. -/
def climb (headers : Headers) : (rounds : Nat) → BinaryName → Nat
  | 0, _ => 0
  | rounds + 1, name => match (headers name).bind (·.superclass) with
    | none => 0
    | some superclass => climb headers rounds superclass + 1

/-- There are no more steps than rounds. -/
theorem climb_le (headers : Headers) (rounds : Nat) (name : BinaryName) :
    headers.climb rounds name ≤ rounds := by
  induction rounds generalizing name with
  | zero => exact Nat.le_refl 0
  | succ rounds ih =>
    unfold climb
    split
    · exact Nat.zero_le _
    · exact Nat.succ_le_succ (ih _)

/-- A chain that ends is as long as its class can climb. -/
theorem Chain.climb_eq {passed looked chain : List BinaryName} {name : BinaryName}
    (h : headers.Chain passed name looked (.ok chain)) {rounds : Nat}
    (hle : chain.length ≤ rounds) : headers.climb rounds name + 1 = chain.length := by
  -- the induction is on how the chain came about, for any answer
  generalize hanswer : (.ok chain : Except ResolveError (List BinaryName)) = answer at h
  induction h generalizing chain rounds with
  | circular | missing => cases hanswer
  | root _ hfound hroot =>
    cases hanswer
    cases rounds with
    | zero => simp at hle
    | succ rounds => simp [climb, hfound, hroot]
  | «extends» _ hfound hsuper _ ih =>
    obtain ⟨rest, rfl, rfl⟩ := except_map_ok.1 hanswer.symm
    cases rounds with
    | zero => simp at hle
    | succ rounds =>
      have hrest := ih (Nat.le_of_succ_le_succ hle) rfl
      simp only [climb, hfound, hsuper, Option.bind_some, List.length_cons]
      rw [hrest]

/-- The classes of a chain have headers, and none of them comes twice. -/
theorem Chain.nodup {passed looked chain : List BinaryName} {name : BinaryName}
    (h : headers.Chain passed name looked (.ok chain)) :
    chain.Nodup ∧ (∀ other ∈ chain, other ∉ passed) ∧ ∀ other ∈ chain, (headers other).isSome := by
  generalize hanswer : (.ok chain : Except ResolveError (List BinaryName)) = answer at h
  induction h generalizing chain with
  | circular | missing => cases hanswer
  | root hnew hfound =>
    cases hanswer
    simp [hnew, hfound]
  | «extends» hnew hfound _ _ ih =>
    obtain ⟨rest, rfl, rfl⟩ := except_map_ok.1 hanswer.symm
    obtain ⟨hnodup, hfresh, hsome⟩ := ih rfl
    -- the walk from the superclass has passed the class itself
    refine ⟨List.nodup_cons.2 ⟨fun hmem => ?_, hnodup⟩, ?_, ?_⟩
    · exact hfresh _ hmem List.mem_cons_self
    · refine List.forall_mem_cons.2 ⟨hnew, fun other hmem hpassed => ?_⟩
      exact hfresh other hmem (List.mem_cons_of_mem _ hpassed)
    · exact List.forall_mem_cons.2 ⟨by rw [hfound]; rfl, hsome⟩

/-- A chain that ends does so no matter how few classes were passed. -/
theorem Chain.of_subset {passed passed' looked chain : List BinaryName} {name : BinaryName}
    (h : headers.Chain passed name looked (.ok chain)) (hsub : passed' ⊆ passed) :
    headers.Chain passed' name looked (.ok chain) := by
  generalize hanswer : (.ok chain : Except ResolveError (List BinaryName)) = answer at h
  induction h generalizing chain passed' with
  | circular | missing => cases hanswer
  | root hnew hfound hroot =>
    cases hanswer
    exact .root (fun h => hnew (hsub h)) hfound hroot
  | «extends» hnew hfound hsuper _ ih =>
    obtain ⟨rest, rfl, rfl⟩ := except_map_ok.1 hanswer.symm
    have hrest := ih (List.cons_subset_cons _ hsub) rfl
    exact .extends (fun h => hnew (hsub h)) hfound hsuper hrest

/-- A class that comes later in a chain has a shorter chain. -/
theorem Chain.later {passed looked chain : List BinaryName} {name other : BinaryName}
    (h : headers.Chain passed name looked (.ok chain)) (hmem : other ∈ chain) (hne : other ≠ name) :
    ∃ looked' later, headers.Chain [] other looked' (.ok later) ∧ later.length < chain.length := by
  generalize hanswer : (.ok chain : Except ResolveError (List BinaryName)) = answer at h
  induction h generalizing chain with
  | circular | missing => cases hanswer
  | root =>
    cases hanswer
    exact absurd (List.mem_singleton.1 hmem) hne
  | @«extends» passed looked name superclass header answer _ _ _ hrest ih =>
    obtain ⟨rest, rfl, rfl⟩ := except_map_ok.1 hanswer.symm
    have hmem : other ∈ rest := List.mem_of_ne_of_mem hne hmem
    by_cases heq : other = superclass
    · subst heq
      exact ⟨looked, rest, hrest.of_subset (List.nil_subset _), Nat.lt_succ_self _⟩
    · obtain ⟨looked', later, hlater, hlt⟩ := ih hmem heq rfl
      exact ⟨looked', later, hlater, Nat.lt_succ_of_lt hlt⟩

end Headers

/-- What ranks are measured by: headers by which the root is without a superclass, a number of
classes that they do not exceed, and the highest number of dimensions. -/
structure Scale where
  headers : Headers
  classes : Nat
  dimensions : Nat
  root : (headers .object).bind (·.superclass) = none
  atMost : headers.AtMost classes

namespace Scale

variable (scale : Scale)

/-- The weight of one dimension: no class has as high a rank. -/
def weight : Nat := scale.classes + 4

/-- The rank of a class. -/
def classRank (name : BinaryName) : Nat :=
  if name = .object then 0 else scale.headers.climb scale.classes name + 1

/-- The rank of a type of objects. -/
def refRank : RefType → Nat
  | .object name => scale.classRank name
  | .objectArray extra name => (extra + 1) * scale.weight + scale.classRank name
  | .primitiveArray extra _ => (extra + 1) * scale.weight

/-- The highest rank. -/
def most : Nat := (scale.dimensions + 1) * scale.weight + 1

/-- The rank of a type. -/
def rank : InferredType → Nat
  | .top => 0
  | .null => scale.most
  | .object type => scale.refRank type + 1
  | _ => 1

theorem classRank_lt (name : BinaryName) : scale.classRank name < scale.weight := by
  have hle := scale.headers.climb_le scale.classes name
  unfold classRank weight
  split <;> omega

@[simp] theorem classRank_object : scale.classRank .object = 0 := if_pos rfl

theorem classRank_pos {name : BinaryName} (h : name ≠ .object) : 0 < scale.classRank name := by
  rw [classRank, if_neg h]
  exact Nat.succ_pos _

/-- Each dimension adds the weight of one. -/
theorem refRank_addDimensions (count : Nat) (type : RefType) :
    scale.refRank (type.addDimensions count) = count * scale.weight + scale.refRank type := by
  cases count with
  | zero => simp [RefType.addDimensions]
  | succ count =>
    cases type with
    | object name => rfl
    | objectArray extra name =>
      simp only [RefType.addDimensions, refRank]
      ring
    | primitiveArray extra base =>
      simp only [RefType.addDimensions, refRank]
      ring

/-- The rank of a type is below that of one with another dimension. -/
theorem refRank_lt (type : RefType) :
    scale.refRank type < (type.dimensions + 1) * scale.weight := by
  cases type with
  | object name => simpa [refRank, RefType.dimensions] using scale.classRank_lt name
  | objectArray extra name =>
    have hlt := scale.classRank_lt name
    simp only [refRank, RefType.dimensions]
    rw [Nat.add_mul (extra + 1) 1, Nat.one_mul]
    omega
  | primitiveArray extra base =>
    have hpos : 0 < scale.weight := Nat.succ_pos _
    simp only [refRank, RefType.dimensions]
    rw [Nat.add_mul (extra + 1) 1, Nat.one_mul]
    omega

/-- An array has a higher rank than every class. -/
theorem classRank_lt_refRank {type : RefType} (h : type.IsArray) (name : BinaryName) :
    scale.classRank name < scale.refRank type := by
  have hlt := scale.classRank_lt name
  cases type with
  | object => exact absurd h (Headers.not_isArray_object _)
  | objectArray extra | primitiveArray extra =>
    have hle : scale.weight ≤ (extra + 1) * scale.weight :=
      Nat.le_mul_of_pos_left _ (Nat.succ_pos extra)
    simp only [refRank]
    omega

/-- The rank of a type with few dimensions. -/
theorem rank_le {type : InferredType} (h : type.dimensions ≤ scale.dimensions) :
    scale.rank type ≤ scale.most := by
  unfold most
  cases type with
  | object type =>
    -- an object of the most dimensions is still below the null type
    have hlt := scale.refRank_lt type
    have hmul : (type.dimensions + 1) * scale.weight ≤ (scale.dimensions + 1) * scale.weight :=
      Nat.mul_le_mul_right _ (Nat.succ_le_succ h)
    simp only [rank]
    omega
  | null => exact Nat.le_refl _
  | top => exact Nat.zero_le _
  | integer | float | double | long | uninitializedThis | uninitialized =>
    simp only [rank]
    omega

theorem rank_pos {type : InferredType} (h : type ≠ .top) : 0 < scale.rank type := by
  cases type with
  | top => exact absurd rfl h
  | null | object => exact Nat.succ_pos _
  | integer | float | double | long | uninitializedThis | uninitialized => exact Nat.one_pos

/-! ### Types climb -/

/-- A class that climbs has a lower rank then. -/
theorem classRank_lt_of_chain {name other : BinaryName} {looked chain : List BinaryName}
    (h : scale.headers.Chain [] name looked (.ok chain)) (hmem : other ∈ chain)
    (hne : other ≠ name) : scale.classRank other < scale.classRank name := by
  obtain ⟨hnodup, -, hsome⟩ := h.nodup
  have hname := h.climb_eq (scale.atMost chain hnodup hsome)
  obtain ⟨_, later, hlater, hlt⟩ := h.later hmem hne
  obtain ⟨hnodup', -, hsome'⟩ := hlater.nodup
  have hother := hlater.climb_eq (scale.atMost later hnodup' hsome')
  unfold classRank
  by_cases hroot : name = .object
  · -- the chain of the root is the root
    subst hroot
    have hclimb : scale.headers.climb scale.classes .object = 0 := by
      unfold Headers.climb
      cases scale.classes with
      | zero => rfl
      | succ classes => simp [scale.root]
    omega
  · rw [if_neg hroot]
    split <;> omega

/-- A type of objects that climbs has a lower rank then. -/
theorem refRank_lt_of_climbs {type other : RefType}
    (h : RefType.Climbs scale.headers type other) : scale.refRank other < scale.refRank type := by
  induction h with
  | chain h hmem hne => exact scale.classRank_lt_of_chain h hmem hne
  | root hne =>
    change scale.classRank .object < _
    rw [classRank_object]
    exact scale.classRank_pos hne
  | array harray => exact scale.classRank_lt_refRank harray _
  | @element type element other htype _ ih =>
    -- one dimension is put back around what the elements climb to
    have hback := congrArg scale.refRank (RefType.addDimensions_of_element? htype 0)
    have hzero : type.addDimensions 0 = type := rfl
    rw [hzero, scale.refRank_addDimensions] at hback
    rw [scale.refRank_addDimensions]
    omega

/-- A type that climbs has a lower rank then, if null does not become an array of too many
dimensions. -/
theorem rank_lt_of_climbs {type other : InferredType}
    (h : InferredType.Climbs scale.headers type other)
    (hnull : type = .null → other.dimensions ≤ scale.dimensions) :
    scale.rank other < scale.rank type := by
  cases h with
  | top hne => exact scale.rank_pos hne
  | null type =>
    have hlt := scale.refRank_lt type
    have hmul : (type.dimensions + 1) * scale.weight ≤ (scale.dimensions + 1) * scale.weight :=
      Nat.mul_le_mul_right _ (Nat.succ_le_succ (hnull rfl))
    simp only [rank, most]
    omega
  | object h => exact Nat.succ_lt_succ (scale.refRank_lt_of_climbs h)

/-! ### Lists of types climb -/

/-- Where null becomes an object, the object has few dimensions. -/
def NullsWithin (most : Nat) (old new : List InferredType) : Prop :=
  ∀ slot, localAt old slot = .null → localAt new slot ≠ .null → (localAt new slot).dimensions ≤ most

/-- The rank of a slot of a list. One that is missing is below an unusable one. -/
def slotRank (types : List InferredType) (slot : Nat) : Nat :=
  if slot < types.length then scale.rank (localAt types slot) else 1

/-- The rank of a list of types that has some room. -/
def listRank (room : Nat) (types : List InferredType) : Nat :=
  ∑ slot ∈ Finset.range room, scale.slotRank types slot

variable {scale}

/-- No slot of a list that is raised has a higher rank then. -/
theorem slotRank_le {old new : List InferredType} (h : Raises scale.headers old new)
    (hnull : NullsWithin scale.dimensions old new) (slot : Nat) :
    scale.slotRank new slot ≤ scale.slotRank old slot := by
  unfold slotRank
  have hlength := h.length_le
  rcases Nat.lt_or_ge slot old.length with hlt | hle
  · rw [if_pos hlt, if_pos (Nat.lt_of_lt_of_le hlt hlength)]
    rcases h.climbs slot hlt with heq | hclimbs
    · rw [heq]
    · exact Nat.le_of_lt (scale.rank_lt_of_climbs hclimbs fun hslot =>
        hnull slot hslot hclimbs.ne_null)
  · rw [if_neg (Nat.not_lt.2 hle), h.added slot hle]
    split
    · exact Nat.zero_le 1
    · exact Nat.le_refl 1

/-- A list that is raised and has changed has a slot of a lower rank. -/
theorem exists_slotRank_lt {old new : List InferredType} (h : Raises scale.headers old new)
    (hnull : NullsWithin scale.dimensions old new) (hne : new ≠ old) :
    ∃ slot < new.length, scale.slotRank new slot < scale.slotRank old slot := by
  rcases Nat.lt_or_ge old.length new.length with hlonger | hle
  · -- the first slot that was added
    refine ⟨old.length, hlonger, ?_⟩
    unfold slotRank
    rw [if_pos hlonger, if_neg (Nat.lt_irrefl _), h.added _ (Nat.le_refl _)]
    exact Nat.one_pos
  · have hlength := Nat.le_antisymm hle h.length_le
    have hslot : ∃ slot < old.length, localAt new slot ≠ localAt old slot := by
      by_contra hnone
      refine hne (List.ext_getElem? fun slot => ?_)
      rcases Nat.lt_or_ge slot old.length with hlt | hge
      · rw [localAt_of_lt hlt, localAt_of_lt (hlength ▸ hlt)]
        by_contra hother
        exact hnone ⟨slot, hlt, fun heq => hother (congrArg some heq)⟩
      · rw [List.getElem?_eq_none hge, List.getElem?_eq_none (hlength ▸ hge)]
    obtain ⟨slot, hlt, hother⟩ := hslot
    have hclimbs := (h.climbs slot hlt).resolve_left hother
    refine ⟨slot, hlength ▸ hlt, ?_⟩
    unfold slotRank
    rw [if_pos hlt, if_pos (hlength ▸ hlt)]
    exact scale.rank_lt_of_climbs hclimbs fun hslot => hnull slot hslot hclimbs.ne_null

/-- A list that is raised is as it was, or its rank is lower. -/
theorem listRank_lt {old new : List InferredType} (h : Raises scale.headers old new)
    (hnull : NullsWithin scale.dimensions old new) {room : Nat} (hroom : new.length ≤ room) :
    new = old ∨ scale.listRank room new < scale.listRank room old := by
  by_cases heq : new = old
  · exact .inl heq
  · obtain ⟨slot, hslot, hlt⟩ := exists_slotRank_lt h hnull heq
    refine .inr (Finset.sum_lt_sum (fun other _ => slotRank_le h hnull other) ⟨slot, ?_, hlt⟩)
    exact Finset.mem_range.2 (Nat.lt_of_lt_of_le hslot hroom)

/-- The rank of a list is bounded by its room. -/
theorem listRank_le {types : List InferredType} (h : DimensionsWithin scale.dimensions types)
    (room : Nat) : scale.listRank room types ≤ room * scale.most := by
  have hslot : ∀ slot, scale.slotRank types slot ≤ scale.most := by
    intro slot
    unfold slotRank
    split
    · exact scale.rank_le (h.localAt slot)
    · exact Nat.le_add_left 1 _
  have hsum := Finset.sum_le_card_nsmul (Finset.range room) (scale.slotRank types) _
    fun slot _ => hslot slot
  rwa [Finset.card_range, smul_eq_mul] at hsum

/-! ### States climb -/

/-- The rank of a state whose locals and stack have some room. -/
def stateRank (scale : Scale) (room height : Nat) (state : TypeState) : Nat :=
  scale.listRank room state.locals + scale.listRank height state.stack.values

/-- The rank of a state is not more than that of as many slots of the highest rank. -/
theorem stateRank_le {state : TypeState} {room : Nat} (h : state.Within scale.dimensions room)
    (height : Nat) : scale.stateRank room height state ≤ (room + height) * scale.most := by
  rw [Nat.add_mul]
  exact Nat.add_le_add (listRank_le h.locals room) (listRank_le h.stack height)

/-- A state that climbs has a lower rank then, if null becomes no array of too many dimensions. -/
theorem stateRank_lt_of_climbs {old new : TypeState} {room height : Nat}
    (h : old.Climbs scale.headers room new) (hheight : old.stack.size ≤ height)
    (hnull : NullsWithin scale.dimensions old.locals new.locals)
    (hnull' : NullsWithin scale.dimensions old.stack.values new.stack.values) :
    scale.stateRank room height new < scale.stateRank room height old := by
  have hlocals := listRank_lt h.locals hnull h.room
  have hroom : new.stack.values.length ≤ height := by
    rw [← OperandStack.size_eq]
    exact h.size.trans_le hheight
  have hstack := listRank_lt h.stack hnull' hroom
  unfold stateRank
  -- no part has a higher rank, so that a part of a lower rank is enough
  rcases hlocals with heq | hlt
  · rcases hstack with heq' | hlt'
    · refine absurd ?_ h.changed
      rcases old with ⟨locals, stack⟩
      rcases new with ⟨locals', stack'⟩
      rw [TypeState.mk.injEq]
      exact ⟨heq, OperandStack.eq_of_values heq'⟩
    · rw [heq]
      exact Nat.add_lt_add_left hlt' _
  · rcases hstack with heq' | hlt'
    · rw [heq']
      exact Nat.add_lt_add_right hlt _
    · exact Nat.add_lt_add hlt hlt'

end Scale

end Preverification

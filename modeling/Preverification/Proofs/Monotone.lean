import Preverification.Proofs.Effects
import Preverification.Proofs.TypeOrder
import Preverification.Typing.Transfer

/-!
# Instructions respect the order of states

An instruction that can run on what is known can also run if more is known, and then more is known
behind it. Besides, it does not matter how the places of allocations are called. Both are stated at
once, and for parts of instructions first: one part follows another one if it runs on every state
that is lower when places are renamed, with related answers and ordered states. The other one keeps
values of two slots whole.

* `Transfer.Follows`: one part of an instruction follows another one on lower states with renamed
  places.
* `Transfer.follows_instruction`: one case for each instruction, put together from its parts.
* `Transfer.operation_below`: an operation that can run on a state can run on each state below it.
* `Transfer.operation_paired`: values of two slots that are whole stay whole.
* `Transfer.operation_monotone`: both at once, for every operation.
-/

namespace Preverification

/-- Whether no other type of values is below the type or above it. -/
def InferredType.IsRigid (type : InferredType) : Prop :=
  type ≠ .null ∧ ∀ class', type ≠ .object class'

/-- Whether the type names no place of an allocation. -/
def InferredType.SiteFree (type : InferredType) : Prop := ∀ label, type ≠ .uninitialized label

/-- Whether only the type itself is related with it when places are renamed. -/
structure InferredType.IsFixed (type : InferredType) : Prop where
  rigid : type.IsRigid
  siteFree : type.SiteFree

/-! ## Places of allocations are renamed -/

/-- The type when places of allocations are renamed. -/
def InferredType.mapSites (site : Label → Label) : InferredType → InferredType
  | .uninitialized label => .uninitialized (site label)
  | type => type

/-- The state when places of allocations are renamed. -/
def TypeState.mapSites (site : Label → Label) (state : TypeState) : TypeState :=
  ⟨state.locals.map (InferredType.mapSites site),
    .ofValues (state.stack.values.map (InferredType.mapSites site))⟩

section MapSites

variable {site : Label → Label}

namespace InferredType

@[simp] theorem mapSites_id (type : InferredType) : type.mapSites id = type := by
  cases type <;> rfl

@[simp] theorem width_mapSites (type : InferredType) : width (type.mapSites site) = width type := by
  cases type <;> rfl

@[simp] theorem isReference_mapSites (type : InferredType) :
    (type.mapSites site).isReference = type.isReference := by
  cases type <;> rfl

/-- Only a type that says nothing becomes one. -/
theorem mapSites_eq_top {type : InferredType} : type.mapSites site = .top ↔ type = .top := by
  cases type <;> simp [mapSites]

theorem IsRigid.mapSites {type : InferredType} (h : type.IsRigid) : (type.mapSites site).IsRigid := by
  cases type with
  | null => exact absurd rfl h.1
  | object class' => exact absurd rfl (h.2 class')
  | _ => exact ⟨nofun, nofun⟩

/-- A type that names no place stays as it is. -/
theorem SiteFree.mapSites {type : InferredType} (h : type.SiteFree) : type.mapSites site = type := by
  cases type with
  | uninitialized label => exact absurd rfl (h label)
  | _ => rfl

/-- Different types stay different if different places do. -/
theorem mapSites_injective (hs : Function.Injective site) :
    Function.Injective (InferredType.mapSites site) := by
  intro type other heq
  cases type <;> cases other <;> simp_all [InferredType.mapSites, hs.eq_iff]

end InferredType

namespace TypeState

@[simp] theorem mapSites_id (state : TypeState) : state.mapSites id = state := by
  have hid : InferredType.mapSites id = id := funext InferredType.mapSites_id
  unfold mapSites
  rw [hid, List.map_id, List.map_id, OperandStack.ofValues_values]

theorem values_mapSites (state : TypeState) : (state.mapSites site).stack.values =
    state.stack.values.map (InferredType.mapSites site) :=
  OperandStack.values_ofValues _

/-- The types of slots are renamed one by one. -/
theorem localAt_mapSites (state : TypeState) (slot : Nat) :
    localAt (state.mapSites site).locals slot = (localAt state.locals slot).mapSites site :=
  localAt_map rfl state.locals slot

end TypeState

end MapSites

/-- The types of fields, parameters and results name no place of an allocation. -/
theorem FieldType.siteFree_verificationType (type : FieldType) : type.verificationType.SiteFree := by
  intro label
  cases type with
  | base base => cases base <;> nofun
  | ref => nofun

namespace InferredType

variable {superclass : Superclasses} {site : Label → Label} {type other : InferredType}

/-- Nothing but a rigid type itself is below it. -/
theorem Below.eq_of_rigid (h : Below superclass type other) (ho : other.IsRigid) :
    type = other := by
  cases h with
  | refl => rfl
  | null class' | object => exact absurd rfl (ho.2 _)

/-- Types that are ordered are both references or both none. -/
theorem Below.isReference_eq (h : Below superclass type other) :
    type.isReference = other.isReference := by
  cases h <;> rfl

/-- Nothing but a rigid type itself is below it when places are renamed. -/
theorem Below.eq_of_mapSites (h : Below superclass type (other.mapSites site))
    (ho : other.IsRigid) : type = other.mapSites site :=
  h.eq_of_rigid ho.mapSites

/-- Replacing a rigid type keeps the order. -/
theorem Below.replace (hs : Function.Injective site) {old new : InferredType} (ho : old.IsRigid)
    (hnew : new.SiteFree) (h : Below superclass type (other.mapSites site)) :
    Below superclass (if type = old.mapSites site then new else type)
      ((if other = old then new else other).mapSites site) := by
  by_cases heq : other = old
  · subst heq
    rw [h.eq_of_mapSites ho, if_pos rfl, if_pos rfl, hnew.mapSites]
    exact .refl new
  · rw [if_neg heq]
    -- nothing but the rigid type itself is below it or above it
    have hne : type ≠ old.mapSites site := by
      intro htype
      have hrigid : (old.mapSites site).IsRigid := ho.mapSites
      rw [← htype] at hrigid
      generalize hother : other.mapSites site = mapped at h
      cases h with
      | refl => exact heq (mapSites_injective hs (hother.trans htype))
      | null => exact hrigid.1 rfl
      | object => exact hrigid.2 _ rfl
    rw [if_neg hne]
    exact h

end InferredType

namespace Transfer

variable {superclass : Superclasses} {site : Label → Label} {α β γ δ : Type}

/-- A part of an instruction runs on every state that is lower than one on which another part runs,
when places of allocations are renamed. The other part keeps values of two slots whole. -/
def Follows (superclass : Superclasses) (site : Label → Label) (R : α → β → Prop) (low : Transfer α)
    (high : Transfer β) : Prop :=
  ∀ state above b above', TypeState.Below superclass state (above.mapSites site) →
    high above = .ok b above' →
      (∃ a state', low state = .ok a state' ∧ R a b ∧
        TypeState.Below superclass state' (above'.mapSites site)) ∧
        (Paired above.locals → Paired above'.locals)

/-- A type is below another one when places of allocations are renamed. -/
def TypeFollows (superclass : Superclasses) (site : Label → Label) (type other : InferredType) :
    Prop :=
  InferredType.Below superclass type (other.mapSites site)

/-- Renaming and lowering keep how many slots a value takes. -/
theorem TypeFollows.width {type other : InferredType} (h : TypeFollows superclass site type other) :
    HasWidth.width type = HasWidth.width other := by
  rw [InferredType.Below.width_eq h, InferredType.width_mapSites]

/-- A type that follows another one is a reference if that one is. -/
theorem TypeFollows.isReference {type other : InferredType}
    (h : TypeFollows superclass site type other) : type.isReference = other.isReference := by
  rw [InferredType.Below.isReference_eq h, InferredType.isReference_mapSites]

/-- A type that follows one that an instruction asks for by name is that type. -/
theorem TypeFollows.eq {type other : InferredType} (h : TypeFollows superclass site type other)
    (ho : other.IsFixed) : type = other := by
  rw [InferredType.Below.eq_of_mapSites h ho.rigid, ho.siteFree.mapSites]

/-! ## Putting parts together -/

/-- Answers that are related follow each other. -/
theorem Follows.pure {R : α → β → Prop} {a : α} {b : β} (h : R a b) :
    Follows superclass site R (pure a) (pure b) := by
  intro state above b' above' hle hrun
  rcases state_pure_ok.1 hrun with ⟨rfl, rfl⟩
  exact ⟨⟨a, state, rfl, h, hle⟩, id⟩

/-- Whatever fails on the higher state is followed by anything. -/
theorem Follows.throw {R : α → β → Prop} {low : Transfer α} {error : TypeError} :
    Follows superclass site R low (throw error) := by
  intro state above b above' _ hrun
  exact absurd hrun state_throw_ok

/-- Parts follow each other one after the other. -/
theorem Follows.bind {R : α → β → Prop} {S : γ → δ → Prop} {low : Transfer α}
    {high : Transfer β} {f : α → Transfer γ} {g : β → Transfer δ}
    (h : Follows superclass site R low high)
    (hnext : ∀ a b, R a b → Follows superclass site S (f a) (g b)) :
    Follows superclass site S (low >>= f) (high >>= g) := by
  intro state above d above'' hle hrun
  rcases state_bind_ok.1 hrun with ⟨b, above', hb, hrest⟩
  -- what the first part answers is what the second one goes on with
  rcases h state above b above' hle hb with ⟨⟨a, state', ha, hab, hle'⟩, hpaired⟩
  rcases hnext a b hab state' above' d above'' hle' hrest with
    ⟨⟨c, state'', hc, hcd, hle''⟩, hpaired'⟩
  exact ⟨⟨c, state'', state_bind_ok.2 ⟨a, state', ha, hc⟩, hcd, hle''⟩, fun hp =>
    hpaired' (hpaired hp)⟩

theorem Follows.discard {R : α → β → Prop} {low : Transfer α} {high : Transfer β}
    (h : Follows superclass site R low high) :
    Follows superclass site Eq (discard low) (discard high) := by
  intro state above b above' hle hrun
  change EStateM.map (fun _ => ()) high above = _ at hrun
  unfold EStateM.map at hrun
  cases hhigh : high above with
  | error error above₁ => simp [hhigh] at hrun
  | ok found above₁ =>
    simp only [hhigh, EStateM.Result.ok.injEq] at hrun
    rcases hrun with ⟨-, rfl⟩
    rcases h state above found above₁ hle hhigh with ⟨⟨a, state', ha, _, hle'⟩, hpaired⟩
    refine ⟨⟨(), state', ?_, rfl, hle'⟩, hpaired⟩
    change EStateM.map (fun _ => ()) low state = _
    simp [EStateM.map, ha]

/-- The steps of a loop follow each other if each of them follows itself. -/
theorem Follows.forM {l : List γ} {f : γ → Transfer Unit}
    (h : ∀ c ∈ l, Follows superclass site Eq (f c) (f c)) :
    Follows superclass site Eq (l.forM f) (l.forM f) := by
  induction l with
  | nil => exact .pure rfl
  | cons c l ih =>
    exact .bind (h c (by simp)) fun _ _ _ => ih fun d hd => h d (by simp [hd])

/-! ## The stack -/

/-- A value that follows another one is pushed in its place. -/
theorem follows_push {type other : InferredType} (h : TypeFollows superclass site type other) :
    Follows superclass site Eq (push type) (push other) := by
  intro state above b above' hle hrun
  cases hrun
  refine ⟨⟨(), _, rfl, rfl, hle.locals, ?_⟩, id⟩
  have hstack := hle.stack
  rw [TypeState.values_mapSites] at hstack ⊢
  rw [OperandStack.values_push, OperandStack.values_push]
  exact .cons h hstack

/-- What names no place is pushed alike. -/
theorem follows_push_same {type : InferredType} (h : type.SiteFree) :
    Follows superclass site Eq (push type) (push type) := by
  refine follows_push ?_
  unfold TypeFollows
  rw [h.mapSites]
  exact .refl type

/-- Several values are pushed as one is. -/
theorem follows_pushAll {types others : List InferredType}
    (h : List.Forall₂ (TypeFollows superclass site) types others) :
    Follows superclass site Eq (pushAll types) (pushAll others) := by
  induction h with
  | nil => exact .pure rfl
  | cons hhead _ ih => exact .bind (follows_push hhead) fun _ _ _ => ih

/-- A value is taken off the stack, and the locals stay. -/
theorem pop_ok {state state' : TypeState} {type : InferredType} :
    pop state = .ok type state' ↔
      state.stack.values = type :: state'.stack.values ∧ state'.locals = state.locals := by
  unfold pop
  cases hpop : state.stack.pop? with
  | none =>
    simp only [reduceCtorEq, false_iff]
    rintro ⟨h, _⟩
    have := (@OperandStack.pop?_eq_some _ state'.stack _).2 h
    rw [hpop] at this
    cases this
  | some popped =>
    rcases popped with ⟨head, rest⟩
    have hvalues := OperandStack.pop?_eq_some.1 hpop
    simp only [EStateM.Result.ok.injEq, hvalues, List.cons.injEq]
    constructor
    · rintro ⟨rfl, rfl⟩
      exact ⟨⟨rfl, rfl⟩, rfl⟩
    · rintro ⟨⟨rfl, hrest⟩, hlocals⟩
      rw [OperandStack.eq_of_values hrest, ← hlocals]
      exact ⟨rfl, rfl⟩

/-- The values on top of both stacks follow each other. -/
theorem follows_pop : Follows superclass site (TypeFollows superclass site) pop pop := by
  intro state above other above' hle hrun
  rcases pop_ok.1 hrun with ⟨hvalues, hlocals⟩
  have hstack := hle.stack
  rw [TypeState.values_mapSites, hvalues, List.map_cons] at hstack
  -- both stacks have a value on top
  cases hlow : state.stack.values with
  | nil =>
    rw [hlow] at hstack
    cases hstack
  | cons type rest =>
    rw [hlow] at hstack
    cases hstack with
    | cons hhead htail =>
      have hrest : state.stack.values = type :: (OperandStack.ofValues rest).values := by
        rw [hlow, OperandStack.values_ofValues]
      rw [hlocals]
      refine ⟨⟨type, ⟨state.locals, .ofValues rest⟩, pop_ok.2 ⟨hrest, rfl⟩, hhead, ?_, ?_⟩, id⟩
      · unfold TypeState.mapSites
        rw [hlocals]
        exact hle.locals
      · rw [TypeState.values_mapSites, OperandStack.values_ofValues]
        exact htail

/-- The width of the value is the same, so one is accepted if the other one is. -/
theorem follows_popWidth (expected : Nat) :
    Follows superclass site (TypeFollows superclass site) (popWidth expected)
      (popWidth expected) := by
  refine .bind follows_pop ?_
  intro type other h
  rw [h.width]
  split
  · exact .pure h
  · exact .throw

/-- A type that names no place and has none below it is found in both states. -/
theorem follows_popType {expected : InferredType} (he : expected.IsFixed) :
    Follows superclass site Eq (popType expected) (popType expected) := by
  refine .bind follows_pop ?_
  intro type other h
  by_cases ho : other = expected
  · -- nothing but the type itself is below it
    rw [ho] at h
    rw [h.eq he, if_pos rfl, if_pos ho]
    exact .pure rfl
  · rw [if_neg ho]
    exact .throw

/-- The references on top of both stacks follow each other. -/
theorem follows_popReference :
    Follows superclass site (TypeFollows superclass site) popReference popReference := by
  refine .bind follows_pop ?_
  intro type other h
  rw [h.isReference]
  split
  · exact .pure h
  · exact .throw

/-- What may be used in the place of a type may be so if more is known about it. -/
theorem isCompatible_of_follows {type other expected : InferredType}
    (he : expected.SiteFree) (h : TypeFollows superclass site type other)
    (ho : isCompatible other expected) : isCompatible type expected := by
  cases expected with
  | object class' =>
    -- null and objects may be used, and nothing else is below them
    cases other with
    | null | object =>
      cases h <;> rfl
    | _ => cases ho
  | top | integer | float | double | long | null | uninitializedThis | uninitialized =>
    obtain rfl := of_decide_eq_true ho
    unfold TypeFollows at h
    rw [he.mapSites] at h
    cases h
    exact ho

/-- What may be used in the place of the expected type may be so in the lower state. -/
theorem follows_popCompatible {expected : InferredType} (he : expected.SiteFree) :
    Follows superclass site Eq (popCompatible expected) (popCompatible expected) := by
  refine .bind follows_pop ?_
  intro type other h
  by_cases ho : isCompatible other expected
  · rw [if_pos ho, if_pos (isCompatible_of_follows he h ho)]
    exact .pure rfl
  · rw [if_neg ho]
    exact .throw

theorem follows_popArguments (parameters : List FieldType) :
    Follows superclass site Eq (popArguments parameters) (popArguments parameters) :=
  .forM fun parameter _ => follows_popCompatible parameter.siteFree_verificationType

/-! ## Locals -/

/-- A slot can be read if something is known about it. -/
theorem getLocal_ok {slot : UInt16} {state state' : TypeState} {type : InferredType} :
    getLocal slot state = .ok type state' ↔
      localAt state.locals slot.toNat = type ∧ type ≠ .top ∧ state' = state := by
  have hat : localAt state.locals slot.toNat = (state.locals[slot.toNat]?).getD .top := by
    simp [localAt, List.getD_eq_getElem?_getD]
  rw [hat]
  unfold getLocal
  split
  · rename_i h
    simp [h]
    rintro rfl h'
    exact absurd rfl h'
  · rename_i h
    simp [h]
    rintro rfl h'
    exact absurd rfl h'
  · rename_i found hnot h
    simp only [h, EStateM.Result.ok.injEq, Option.getD_some]
    constructor
    · rintro ⟨rfl, rfl⟩
      exact ⟨rfl, hnot, rfl⟩
    · rintro ⟨rfl, _, rfl⟩
      exact ⟨rfl, rfl⟩

/-- A look-up that succeeds leaves the state as it is. -/
theorem constant_ok {α : Type} {index : PoolIndex} {result : Except StructuralError α} {value : α}
    {state after : TypeState} :
    constant index result state = .ok value after ↔ result = .ok value ∧ state = after := by
  cases result with
  | ok found =>
    unfold constant
    rw [state_pure_ok, Except.ok.injEq]
  | error error =>
    constructor
    · nofun
    · nofun

/-- More is known about the slot of the lower state, and the two values follow each other. -/
theorem follows_getLocal (slot : UInt16) :
    Follows superclass site (TypeFollows superclass site) (getLocal slot) (getLocal slot) := by
  intro state above other above' hle hrun
  rcases getLocal_ok.1 hrun with ⟨hother, htop, rfl⟩
  have hbelow := hle.locals slot.toNat
  rw [TypeState.localAt_mapSites, hother] at hbelow
  have hb := hbelow.below fun heq => htop (InferredType.mapSites_eq_top.1 heq)
  refine ⟨⟨_, state, getLocal_ok.2 ⟨rfl, ?_, rfl⟩, hb, hle⟩, id⟩
  -- what is below a usable local is usable
  intro heq
  rw [heq] at hb
  cases hother : other.mapSites site with
  | top => exact htop (InferredType.mapSites_eq_top.1 hother)
  | _ =>
    rw [hother] at hb
    cases hb

/-- The expected type is found in both states. -/
theorem follows_expectLocal (slot : UInt16) {expected : InferredType} (he : expected.IsFixed) :
    Follows superclass site Eq (expectLocal slot expected) (expectLocal slot expected) := by
  refine .bind (follows_getLocal slot) ?_
  intro type other h
  by_cases ho : other = expected
  · rw [ho] at h
    rw [h.eq he, if_pos rfl, if_pos ho]
    exact .pure rfl
  · rw [if_neg ho]
    exact .throw

/-- The slots around the one that is written are treated alike in both states. -/
theorem follows_setLocal (slot : UInt16) {type other : InferredType}
    (h : TypeFollows superclass site type other) :
    Follows superclass site Eq (setLocal slot type) (setLocal slot other) := by
  intro state above b above' hle hrun
  cases hrun
  refine ⟨⟨(), _, rfl, rfl, ?_, hle.stack⟩, fun hp => hp.setLocal slot.toNat other⟩
  intro i
  rw [TypeState.localAt_mapSites]
  have hi := hle.locals i
  rw [TypeState.localAt_mapSites] at hi
  simp only [localAt_setLocal, h.width]
  -- a slot is the written one, the one behind, or one in front whose value is cut
  split
  · exact .inr h
  · split
    · exact .refl _
    · -- a value of two slots is the same in both states, or unusable in the higher one
      rcases hi with htop | hb
      · rw [InferredType.mapSites_eq_top.1 htop]
        refine .inl ?_
        split <;> rfl
      · rw [TypeFollows.width hb]
        split
        · exact .refl _
        · exact .inr hb

/-- The object is initialized wherever it is found, and it is found in the same places of both
states. -/
theorem follows_replaceAll (hinjective : Function.Injective site) {old new : InferredType}
    (ho : old.IsRigid) (htop : old ≠ .top) (hs : new.SiteFree) (hnew : width new = 1)
    {h : width new = width old} {h' : width new = width (old.mapSites site)} :
    Follows superclass site Eq (replaceAll (old.mapSites site) new h') (replaceAll old new h) := by
  intro state above b above' hle hrun
  cases hrun
  have hreplaced : (if (.top : InferredType) = old then new else .top) = .top :=
    if_neg (Ne.symm htop)
  have htop' : old.mapSites site ≠ .top := fun heq => htop (InferredType.mapSites_eq_top.1 heq)
  have hreplaced' : (if (.top : InferredType) = old.mapSites site then new else .top) = .top :=
    if_neg (Ne.symm htop')
  refine ⟨⟨(), _, rfl, rfl, ?_, ?_⟩, fun hp => hp.map hreplaced fun type hwidth => ?_⟩
  · -- locals that cannot be used stay so
    intro slot
    have hslot := hle.locals slot
    rw [TypeState.localAt_mapSites] at hslot ⊢
    simp only [localAt_map (f := fun type => if type = old.mapSites site then new else type)
      hreplaced', localAt_map (f := fun type => if type = old then new else type) hreplaced]
    rcases hslot with h | h
    · rw [InferredType.mapSites_eq_top.1 h, if_neg (Ne.symm htop)]
      exact .inl rfl
    · exact .inr (h.replace hinjective ho hs)
  · have hstack := hle.stack
    simp only [TypeState.values_mapSites, OperandStack.values_replace,
      List.forall₂_map_left_iff, List.forall₂_map_right_iff] at hstack ⊢
    exact hstack.imp fun _ _ h => InferredType.Below.replace hinjective ho hs h
  · split at hwidth
    · omega
    · exact hwidth

/-! ## Constants and kinds -/

/-- What is looked up is the same in both states. -/
theorem follows_constant (index : PoolIndex) (result : Except StructuralError α) :
    Follows superclass site (fun a b => a = b ∧ result = .ok b) (constant index result)
      (constant index result) := by
  unfold constant
  split
  · exact .pure ⟨rfl, rfl⟩
  · exact .throw

/-- A class has one type, whatever is known. -/
theorem follows_classType (pool : Pool) (index : PoolIndex) :
    Follows superclass site Eq (classType pool index) (classType pool index) := by
  intro state above b above' hle hrun
  rcases follows_constant index (pool.classType index) state above b above' hle hrun with
    ⟨⟨a, state', hrun', ⟨heq, _⟩, hle'⟩, hpaired⟩
  exact ⟨⟨a, state', hrun', heq, hle'⟩, hpaired⟩

/-- The type of a field names no place of an allocation. -/
theorem follows_fieldType (pool : Pool) (index : PoolIndex) :
    Follows superclass site (fun type other => type = other ∧ other.SiteFree) (fieldType pool index)
      (fieldType pool index) := by
  intro state above b above' hle hrun
  rcases follows_constant index _ state above b above' hle hrun with
    ⟨⟨a, state', hrun', ⟨heq, hresult⟩, hle'⟩, hpaired⟩
  rcases except_bind_ok.1 hresult with ⟨field, _, hrest⟩
  rcases except_bind_ok.1 hrest with ⟨type, _, htype⟩
  cases htype
  exact ⟨⟨a, state', hrun', ⟨heq, type.siteFree_verificationType⟩, hle'⟩, hpaired⟩

/-- The type of a constant names no place of an allocation. -/
theorem siteFree_constantType {pool : Pool} {index : PoolIndex} {type : InferredType}
    (h : constantType pool index = .ok type) : type.SiteFree := by
  unfold constantType at h
  dsimp only at h
  split at h
  case h_9 =>
    -- the type of a constant that is computed is that of a field
    rcases except_bind_ok.1 h with ⟨member, _, hrest⟩
    rcases except_bind_ok.1 hrest with ⟨field, _, htype⟩
    cases htype
    exact field.siteFree_verificationType
  all_goals
    cases h
    try exact nofun

/-- The types of numbers are asked for by name. -/
theorem fixed_numberType (kind : NumberKind) : (numberType kind).IsFixed := by
  cases kind <;> exact ⟨⟨nofun, nofun⟩, nofun⟩

theorem fixed_integralType (kind : IntegralKind) : (integralType kind).IsFixed := by
  cases kind <;> exact ⟨⟨nofun, nofun⟩, nofun⟩

theorem fixed_valueType {kind : ValueKind} {type : InferredType}
    (h : valueType? kind = some type) : type.IsFixed := by
  cases kind <;> cases h <;> exact ⟨⟨nofun, nofun⟩, nofun⟩

theorem fixed_elementType {kind : ElementKind} {type : InferredType}
    (h : elementType? kind = some type) : type.IsFixed := by
  cases kind <;> cases h <;> exact ⟨⟨nofun, nofun⟩, nofun⟩

theorem fixed_integer : InferredType.IsFixed .integer := ⟨⟨nofun, nofun⟩, nofun⟩

theorem rigid_uninitializedThis : InferredType.IsRigid .uninitializedThis := ⟨nofun, nofun⟩

theorem rigid_uninitialized (site : Label) : InferredType.IsRigid (.uninitialized site) :=
  ⟨nofun, nofun⟩

/-! ## Instructions -/

/-- A constant of the expected width is pushed in both states. -/
theorem follows_loadConstant (pool : Pool) (index : PoolIndex) (expected : Nat) :
    Follows superclass site Eq (loadConstant pool index expected)
      (loadConstant pool index expected) := by
  refine .bind (follows_constant index _) ?_
  rintro type _ ⟨rfl, htype⟩
  split
  · exact follows_push_same (siteFree_constantType htype)
  · exact .throw

/-- A value of a kind is read from a slot and pushed. -/
theorem follows_load (kind : ValueKind) (slot : UInt16) :
    Follows superclass site Eq (load kind slot) (load kind slot) := by
  unfold load
  cases h : valueType? kind with
  | some type =>
    have htype := fixed_valueType h
    exact .bind (follows_expectLocal slot htype) fun _ _ _ => follows_push_same htype.siteFree
  | none =>
    refine .bind (follows_getLocal slot) ?_
    intro type other hb
    rw [hb.isReference]
    split
    · exact follows_push hb
    · exact .throw

/-- A value of a kind is taken off the stack and written to a slot. -/
theorem follows_store (kind : ValueKind) (slot : UInt16) :
    Follows superclass site Eq (store kind slot) (store kind slot) := by
  unfold store
  cases h : valueType? kind with
  | some type =>
    have htype := fixed_valueType h
    refine .bind (follows_popType htype) fun _ _ _ => follows_setLocal slot ?_
    unfold TypeFollows
    rw [htype.siteFree.mapSites]
    exact .refl type
  | none => exact .bind follows_popReference fun _ _ hb => follows_setLocal slot hb

/-- An element of what is known to be an array follows one of an array, or one of null. -/
theorem follows_arrayLoad (kind : ElementKind) :
    Follows superclass site Eq (arrayLoad kind) (arrayLoad kind) := by
  refine .bind (follows_popType fixed_integer) ?_
  intro _ _ _
  cases h : elementType? kind with
  | some type =>
    exact .bind follows_popReference.discard fun _ _ _ =>
      follows_push_same (fixed_elementType h).siteFree
  | none =>
    -- an array of references: the element follows from the array, unless that is null
    refine .bind follows_pop ?_
    intro array other hb
    cases other with
    | null =>
      cases hb
      exact follows_push_same nofun
    | object class' =>
      dsimp only
      cases helement : class'.element? with
      | none => exact .throw
      | some element =>
        cases element with
        | base base => exact .throw
        | ref element =>
          cases hb with
          | refl =>
            simp only [InferredType.mapSites, helement]
            exact follows_push_same nofun
          | null => exact follows_push (.null _)
          | object hb =>
            -- arrays that are ordered have ordered elements
            rcases hb.element helement with ⟨found, hfound, hle⟩
            dsimp only
            rw [hfound]
            exact follows_push (.object hle)
    | top | integer | float | double | long | uninitializedThis | uninitialized => exact .throw

/-- A value is stored into what may be an array of such values. -/
theorem follows_arrayStore (kind : ElementKind) :
    Follows superclass site Eq (arrayStore kind) (arrayStore kind) := by
  have hrest : Follows superclass site Eq (do popType .integer; discard popReference)
      (do popType .integer; discard popReference) :=
    .bind (follows_popType fixed_integer) fun _ _ _ => follows_popReference.discard
  unfold arrayStore
  cases h : elementType? kind with
  | some type => exact .bind (follows_popType (fixed_elementType h)) fun _ _ _ => hrest
  | none => exact .bind follows_popReference.discard fun _ _ _ => hrest

/-- Words are copied by their widths, which are the same in both states. So the same form of the
instruction fits, and values that follow each other are pushed. -/
theorem follows_shuffle (op : StackShuffle) :
    Follows superclass site Eq (shuffle op) (shuffle op) := by
  cases op with
  | pop => exact (follows_popWidth 1).discard
  | pop2 =>
    refine .bind follows_pop ?_
    intro a₁ b₁ h₁
    rw [h₁.width]
    split
    · exact (follows_popWidth 1).discard
    · exact .pure rfl
  | dup =>
    refine .bind (follows_popWidth 1) ?_
    intro a₁ b₁ h₁
    exact follows_pushAll (.cons h₁ (.cons h₁ .nil))
  | dupX1 =>
    refine .bind (follows_popWidth 1) ?_
    intro a₁ b₁ h₁
    refine .bind (follows_popWidth 1) ?_
    intro a₂ b₂ h₂
    exact follows_pushAll (.cons h₁ (.cons h₂ (.cons h₁ .nil)))
  | dupX2 =>
    refine .bind (follows_popWidth 1) ?_
    intro a₁ b₁ h₁
    refine .bind follows_pop ?_
    intro a₂ b₂ h₂
    rw [h₂.width]
    split
    · refine .bind (follows_popWidth 1) ?_
      intro a₃ b₃ h₃
      exact follows_pushAll (.cons h₁ (.cons h₃ (.cons h₂ (.cons h₁ .nil))))
    · exact follows_pushAll (.cons h₁ (.cons h₂ (.cons h₁ .nil)))
  | dup2 =>
    refine .bind follows_pop ?_
    intro a₁ b₁ h₁
    rw [h₁.width]
    split
    · refine .bind (follows_popWidth 1) ?_
      intro a₂ b₂ h₂
      exact follows_pushAll (.cons h₂ (.cons h₁ (.cons h₂ (.cons h₁ .nil))))
    · exact follows_pushAll (.cons h₁ (.cons h₁ .nil))
  | dup2X1 =>
    refine .bind follows_pop ?_
    intro a₁ b₁ h₁
    refine .bind (follows_popWidth 1) ?_
    intro a₂ b₂ h₂
    rw [h₁.width]
    split
    · refine .bind (follows_popWidth 1) ?_
      intro a₃ b₃ h₃
      exact follows_pushAll (.cons h₂ (.cons h₁ (.cons h₃ (.cons h₂ (.cons h₁ .nil)))))
    · exact follows_pushAll (.cons h₁ (.cons h₂ (.cons h₁ .nil)))
  | dup2X2 =>
    refine .bind follows_pop ?_
    intro a₁ b₁ h₁
    refine .bind follows_pop ?_
    intro a₂ b₂ h₂
    -- how values are taken apart depends on widths, which are the same in both states
    rw [h₁.width, h₂.width]
    split
    · split
      · refine .bind follows_pop ?_
        intro a₃ b₃ h₃
        rw [h₃.width]
        split
        · refine .bind (follows_popWidth 1) ?_
          intro a₄ b₄ h₄
          exact follows_pushAll
            (.cons h₂ (.cons h₁ (.cons h₄ (.cons h₃ (.cons h₂ (.cons h₁ .nil))))))
        · exact follows_pushAll (.cons h₂ (.cons h₁ (.cons h₃ (.cons h₂ (.cons h₁ .nil)))))
      · exact .throw
    · split
      · refine .bind (follows_popWidth 1) ?_
        intro a₃ b₃ h₃
        exact follows_pushAll (.cons h₁ (.cons h₃ (.cons h₂ (.cons h₁ .nil))))
      · exact follows_pushAll (.cons h₁ (.cons h₂ (.cons h₁ .nil)))
  | swap =>
    refine .bind (follows_popWidth 1) ?_
    intro a₁ b₁ h₁
    refine .bind (follows_popWidth 1) ?_
    intro a₂ b₂ h₂
    exact follows_pushAll (.cons h₁ (.cons h₂ .nil))

theorem follows_pushResult (result : Option FieldType) :
    Follows superclass site Eq (result.forM fun type => push type.verificationType)
      (result.forM fun type => push type.verificationType) := by
  cases result with
  | none => exact .pure rfl
  | some type => exact follows_push_same type.siteFree_verificationType

/-- The arguments and the object are taken off. An initializer makes the object a whole one wherever
it is known. -/
theorem follows_invoke (hs : Function.Injective site) (context : MethodContext) (kind : InvokeKind)
    (index : PoolIndex) :
    Follows superclass site Eq (invoke context kind index) (invoke context kind index) := by
  refine .bind (follows_constant index _) ?_
  rintro method _ ⟨rfl, _⟩
  refine .bind (follows_constant index _) ?_
  rintro signature _ ⟨rfl, _⟩
  refine .bind (follows_popArguments _) ?_
  intro _ _ _
  split
  · -- a constructor: what it is called on is the same object in both states
    refine .bind follows_pop ?_
    intro receiver other hb
    cases other with
    | uninitializedThis =>
      cases hb
      refine follows_replaceAll hs rigid_uninitializedThis nofun ?_ rfl
      exact nofun
    | uninitialized label =>
      cases hb
      refine .bind (follows_constant index _) ?_
      rintro class' _ ⟨rfl, _⟩
      refine follows_replaceAll hs (rigid_uninitialized label) nofun ?_ rfl
      exact nofun
    | top | integer | float | double | long | null | object => exact .throw
  · -- a method of an object or of a class
    dsimp only
    split
    · refine .bind follows_pop ?_
      intro receiver other hb
      cases other with
      | null =>
        cases hb
        exact follows_pushResult _
      | object class' => cases hb <;> exact follows_pushResult _
      | top | integer | float | double | long | uninitializedThis | uninitialized =>
        intro state above b above' _ hrun
        cases hrun
    · exact follows_pushResult _

theorem follows_invokeDynamic (pool : Pool) (index : PoolIndex) :
    Follows superclass site Eq (invokeDynamic pool index) (invokeDynamic pool index) := by
  refine .bind (follows_constant index _) ?_
  rintro signature _ ⟨rfl, _⟩
  exact .bind (follows_popArguments _) fun _ _ _ => follows_pushResult _

/-- Two numbers of a kind give a value of some type. -/
theorem follows_numbers {expected result : InferredType} (he : expected.IsFixed)
    (hr : result.SiteFree) :
    Follows superclass site Eq (do popType expected; popType expected; push result)
      (do popType expected; popType expected; push result) :=
  .bind (follows_popType he) fun _ _ _ =>
    .bind (follows_popType he) fun _ _ _ => follows_push_same hr

/-- One case for each instruction: its parts follow each other, in the order in which it runs them.
-/
theorem follows_instruction (hs : Function.Injective site) (context : MethodContext)
    (allocation : Option Label) (i : Instruction) :
    Follows superclass site Eq (instruction context (allocation.map site) i)
      (instruction context allocation i) := by
  have hint : Follows superclass site Eq (popType .integer) (popType .integer) :=
    follows_popType fixed_integer
  have hreference : Follows superclass site Eq (discard popReference) (discard popReference) :=
    follows_popReference.discard
  cases i with
  | nop => exact .pure rfl
  | nullConst | intConst | longConst | floatConst | doubleConst | pushByte | pushShort =>
    exact follows_push_same nofun
  | loadConstant | loadWideConstant => exact follows_loadConstant _ _ _
  | load kind slot => exact follows_load kind slot
  | store kind slot => exact follows_store kind slot
  | arrayLoad kind => exact follows_arrayLoad kind
  | arrayStore kind => exact follows_arrayStore kind
  | shuffle op => exact follows_shuffle op
  -- numbers have types that are below nothing but themselves
  | arithmetic op kind =>
    have hkind := fixed_numberType kind
    exact follows_numbers hkind hkind.siteFree
  | negate kind =>
    have hkind := fixed_numberType kind
    exact .bind (follows_popType hkind) fun _ _ _ => follows_push_same hkind.siteFree
  | shift op kind =>
    have hkind := fixed_integralType kind
    exact .bind hint fun _ _ _ =>
      .bind (follows_popType hkind) fun _ _ _ => follows_push_same hkind.siteFree
  | bitwise op kind =>
    have hkind := fixed_integralType kind
    exact follows_numbers hkind hkind.siteFree
  | increment slot amount => exact follows_expectLocal slot fixed_integer
  | convert source target distinct =>
    exact .bind (follows_popType (fixed_numberType source)) fun _ _ _ =>
      follows_push_same (fixed_numberType target).siteFree
  | narrow target => exact .bind hint fun _ _ _ => follows_push_same nofun
  | compareLongs => exact follows_numbers (fixed_numberType .long) nofun
  | compareFloats unordered => exact follows_numbers (fixed_numberType .float) nofun
  | compareDoubles unordered => exact follows_numbers (fixed_numberType .double) nofun
  -- the pool answers the same in both runs, with a type that no site stands in
  | getStatic index =>
    refine .bind (follows_fieldType _ index) ?_
    rintro type _ ⟨rfl, htype⟩
    exact follows_push_same htype
  | putStatic index =>
    refine .bind (follows_fieldType _ index) ?_
    rintro type _ ⟨rfl, htype⟩
    exact follows_popCompatible htype
  | getField index =>
    refine .bind (follows_fieldType _ index) ?_
    rintro type _ ⟨rfl, htype⟩
    exact .bind hreference fun _ _ _ => follows_push_same htype
  | putField index =>
    refine .bind (follows_fieldType _ index) ?_
    rintro type _ ⟨rfl, htype⟩
    exact .bind (follows_popCompatible htype) fun _ _ _ => hreference
  | invoke kind index => exact follows_invoke hs context kind index
  | invokeDynamic index => exact follows_invokeDynamic _ index
  -- the new object has the same site on both sides
  | new type =>
    cases allocation with
    | none => exact .throw
    | some label => exact follows_push (.refl _)
  | newArray element => exact .bind hint fun _ _ _ => follows_push_same nofun
  | newRefArray index =>
    refine .bind hint fun _ _ _ => .bind (follows_classType _ index) fun class' _ heq => ?_
    subst heq
    exact follows_push_same nofun
  | arrayLength => exact .bind hreference fun _ _ _ => follows_push_same nofun
  | checkCast index =>
    refine .bind hreference fun _ _ _ => .bind (follows_classType _ index) fun class' _ heq => ?_
    subst heq
    exact follows_push_same nofun
  | instanceOf type => exact .bind hreference fun _ _ _ => follows_push_same nofun
  | monitorEnter | monitorExit => exact hreference
  | newMultiArray index dimensions =>
    refine .bind (.forM fun _ _ => hint) fun _ _ _ =>
      .bind (follows_classType _ index) fun class' _ heq => ?_
    subst heq
    exact follows_push_same nofun

/-- A value of the declared type is returned, and the object of an initializer has to be initialized
in both states. -/
theorem follows_returnValue (context : MethodContext) (kind : ValueKind) :
    Follows superclass site Eq (returnValue context kind) (returnValue context kind) := by
  unfold returnValue
  cases h : valueType? kind with
  | some expected =>
    refine .bind follows_pop ?_
    intro found other hb
    by_cases hother : other = expected
    · rw [hother] at hb
      -- what is returned has the expected type in both states
      rw [hb.eq (fixed_valueType h), hother]
      split
      · exact .throw
      · exact .pure rfl
    · have hfails : other ≠ expected ∨
          Option.map FieldType.verificationType context.returnType ≠ some expected := .inl hother
      simp only [if_pos hfails]
      exact .throw
  | none =>
    refine .bind follows_popReference ?_
    intro found other hb
    split
    · exact .pure rfl
    · exact .throw

/-- A branch takes values off the stack, and puts no more than a return address there. -/
theorem follows_branch {L : Type} (context : MethodContext) (b : Branch L) :
    Follows superclass site Eq (branch context b) (branch context b) := by
  have hint : Follows superclass site Eq (popType .integer) (popType .integer) :=
    follows_popType fixed_integer
  have hreference : Follows superclass site Eq (discard popReference) (discard popReference) :=
    follows_popReference.discard
  cases b with
  | ifInt | tableSwitch | lookupSwitch => exact hint
  | ifInts => exact .bind hint fun _ _ _ => hint
  | ifRefs => exact .bind hreference fun _ _ _ => hreference
  | ifNull | throwException => exact hreference
  | goto => exact .pure rfl
  | returnValue kind => exact follows_returnValue context kind
  | returnVoid =>
    cases hr : context.returnType with
    | none =>
      simp only [branch, hr]
      exact .pure rfl
    | some type =>
      simp only [branch, hr]
      exact .throw
  | jsr | ret => exact .throw

/-- An operation that can run on what is known can run where more is known, however the places of
allocations are called, and then more is known behind it. Values of two slots that are whole in
front of it are whole behind it. -/
theorem follows_operation {L : Type} (hs : Function.Injective site) (context : MethodContext)
    (allocation : Option Label) (operation : Operation L) :
    Follows superclass site Eq (Transfer.operation context (allocation.map site) operation)
      (Transfer.operation context allocation operation) := by
  cases operation with
  | step i => exact follows_instruction hs context allocation i
  | branch b => exact follows_branch context b

/-- An operation that can run on a state can run on each state below it, and what is known behind it
is ordered in the same way. -/
theorem operation_below {L : Type} {context : MethodContext} {allocation : Option Label}
    {operation : Operation L} {state above above' : TypeState}
    (hle : TypeState.Below superclass state above)
    (hrun : Transfer.operation context allocation operation above = .ok () above') :
    ∃ state', Transfer.operation context allocation operation state = .ok () state' ∧
      TypeState.Below superclass state' above' := by
  have hle' : TypeState.Below superclass state (above.mapSites id) := by
    rw [TypeState.mapSites_id]
    exact hle
  have hfollows := follows_operation Function.injective_id context allocation operation state above ()
    above' hle' hrun
  rw [Option.map_id] at hfollows
  rcases hfollows with ⟨⟨_, state', hrun', _, hbelow⟩, _⟩
  rw [TypeState.mapSites_id] at hbelow
  exact ⟨state', hrun', hbelow⟩

/-- Values of two slots that are whole in front of an operation are whole behind it. -/
theorem operation_paired {L : Type} {context : MethodContext} {allocation : Option Label}
    {operation : Operation L} {state state' : TypeState} (hp : Paired state.locals)
    (hrun : Transfer.operation context allocation operation state = .ok () state') :
    Paired state'.locals := by
  have hle : TypeState.Below (fun _ => none) state (state.mapSites id) := by
    rw [TypeState.mapSites_id]
    exact .refl state
  exact (follows_operation Function.injective_id context allocation operation state state () state'
    hle hrun).2 hp

end Transfer

/-! ## Operations are monotone -/

/-- Lists of types that are ordered take up as many slots. -/
theorem totalWidth_eq_of_below {superclass : Superclasses} {types others : List InferredType}
    (h : List.Forall₂ (InferredType.Below superclass) types others) :
    totalWidth types = totalWidth others := by
  induction h with
  | nil => rfl
  | cons hhead _ ih =>
    unfold totalWidth
    rw [hhead.width_eq, ih]

/-- Stacks of ordered states are of the same height. -/
theorem TypeState.Below.height_eq {superclass : Superclasses} {state above : TypeState}
    (h : TypeState.Below superclass state above) : state.stack.height = above.stack.height := by
  rw [state.stack.height_eq, above.stack.height_eq]
  exact totalWidth_eq_of_below h.stack

/-- An operation that can run on a state can run on each state below it, and what is known behind it
is ordered in the same way, with stacks of the same height. -/
theorem Transfer.operation_monotone {superclass : Superclasses} {L : Type} (context : MethodContext)
    (allocation : Option Label) (operation : Operation L) {state above above' : TypeState}
    (hle : TypeState.Below superclass state above)
    (hrun : Transfer.operation context allocation operation above = .ok () above') :
    ∃ state', Transfer.operation context allocation operation state = .ok () state' ∧
      TypeState.Below superclass state' above' ∧
      state'.stack.height = above'.stack.height := by
  rcases operation_below hle hrun with ⟨state', hrun', hle'⟩
  exact ⟨state', hrun', hle', hle'.height_eq⟩

/-- An element of null is loaded, where an element of an array of strings is above it. The long in
the lower state stands where nothing can be used in the other one. -/
theorem Transfer.loadsElement_monotone :
    TypeState.Below (fun _ => none) ⟨[.long, .top], .ofValues [.integer, .null]⟩
        ⟨[.top], .ofValues [.integer, .object (.objectArray 0 .string)]⟩ ∧
      Transfer.operation (L := Label) ⟨∅, .object, none⟩ none (.step (.arrayLoad .reference))
          ⟨[.top], .ofValues [.integer, .object (.objectArray 0 .string)]⟩ =
        .ok () ⟨[.top], .ofValues [.object (.object .string)]⟩ ∧
      ∃ state', Transfer.operation (L := Label) ⟨∅, .object, none⟩ none
          (.step (.arrayLoad .reference)) ⟨[.long, .top], .ofValues [.integer, .null]⟩ =
            .ok () state' ∧
        TypeState.Below (fun _ => none) state' ⟨[.top], .ofValues [.object (.object .string)]⟩ ∧
        state'.stack.height = 1 := by
  have hle : TypeState.Below (fun _ => none) ⟨[.long, .top], .ofValues [.integer, .null]⟩
      ⟨[.top], .ofValues [.integer, .object (.objectArray 0 .string)]⟩ := by
    constructor
    · intro slot
      rcases slot with _ | _ | slot
      · exact .inl rfl
      · exact .inl rfl
      · exact .inl rfl
    · exact .cons (.refl _) (.cons (.null _) .nil)
  exact ⟨hle, rfl, operation_monotone _ _ _ hle rfl⟩

end Preverification

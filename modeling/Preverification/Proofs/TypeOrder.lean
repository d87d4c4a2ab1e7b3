import Preverification.Hierarchy.Resolver
import Preverification.Proofs.Slots
import Mathlib.Data.List.Forall2
import Mathlib.Logic.Relation

/-!
# The order of types

A type is below another one if values of the first may stand where values of the second are
expected. Types of objects are ordered by the chain of superclasses, by the elements of arrays, and
by the few classes to which every array belongs. Type states are ordered slot by slot.

* `RefType.Below`, `InferredType.Below`, `TypeState.Below`: the order of types, of values and of
  states.
* `RefType.Below.trans` and those like it: the order is transitive if the root has no superclass.
* `InferredType.Below.width_eq`: types that are ordered take up as many slots.
-/

namespace Preverification

/-- The superclass of each class, if it has one. -/
abbrev Superclasses := BinaryName → Option BinaryName

/-- What is taken for granted about the root and the two interfaces of arrays. -/
structure Superclasses.Rooted (superclass : Superclasses) : Prop where
  object : superclass .object = none
  cloneable : ∀ name, superclass .cloneable = some name → name = .object
  serializable : ∀ name, superclass .serializable = some name → name = .object

/-- A class is reached from another one by its chain of superclasses. -/
def Superclasses.Extends (superclass : Superclasses) : BinaryName → BinaryName → Prop :=
  Relation.ReflTransGen fun name parent => superclass name = some parent

namespace Superclasses.Rooted

variable {superclass : Superclasses} {name : BinaryName}

/-- Nothing is above the root. -/
theorem eq_object (hr : superclass.Rooted) (h : superclass.Extends .object name) :
    name = .object := by
  rcases Relation.ReflTransGen.cases_head h with rfl | ⟨parent, hp, _⟩
  · rfl
  · rw [hr.object] at hp
    cases hp

/-- Only the root is above an interface of arrays. -/
theorem of_interface (hr : superclass.Rooted) {interface : BinaryName}
    (hi : interface = .cloneable ∨ interface = .serializable)
    (h : superclass.Extends interface name) : name = interface ∨ name = .object := by
  rcases Relation.ReflTransGen.cases_head h with rfl | ⟨parent, hp, hrest⟩
  · exact .inl rfl
  · have hparent : parent = .object := by
      rcases hi with rfl | rfl
      · exact hr.cloneable parent hp
      · exact hr.serializable parent hp
    subst hparent
    exact .inr (hr.eq_object hrest)

end Superclasses.Rooted

/-! ## Types of objects -/

/-- Whether the type is that of arrays. -/
def RefType.IsArray (type : RefType) : Prop := type.element?.isSome

/-- The order of the types of objects. -/
inductive RefType.Below (superclass : Superclasses) : RefType → RefType → Prop where
  | refl (type : RefType) : Below superclass type type
  -- a class is below its superclasses
  | extends {name parent : BinaryName} : superclass.Extends name parent →
      Below superclass (.object name) (.object parent)
  -- every type is below the root
  | root (type : RefType) : Below superclass type (.object .object)
  | cloneable {type : RefType} : type.IsArray → Below superclass type (.object .cloneable)
  | serializable {type : RefType} : type.IsArray → Below superclass type (.object .serializable)
  -- arrays are ordered by their elements
  | array {type other element otherElement : RefType} :
      type.element? = some (.ref element) → other.element? = some (.ref otherElement) →
      Below superclass element otherElement → Below superclass type other

namespace RefType

variable {superclass : Superclasses}

/-- What is below an array is an array too. -/
theorem Below.isArray {type other : RefType} (h : Below superclass type other)
    (ho : other.IsArray) : type.IsArray := by
  cases h with
  | refl => exact ho
  | array ht => simp [IsArray, ht]
  | «extends» | root | cloneable | serializable => simp [IsArray, element?] at ho

/-- The elements of what is below an array of references are below its elements. -/
theorem Below.element {type other element : RefType} (h : Below superclass type other)
    (ho : other.element? = some (.ref element)) :
    ∃ found, type.element? = some (.ref found) ∧ Below superclass found element := by
  cases h with
  | refl => exact ⟨element, ho, .refl _⟩
  | array ht ho' hb =>
    rw [ho] at ho'
    cases ho'
    exact ⟨_, ht, hb⟩
  | «extends» | root | cloneable | serializable => simp [element?] at ho

/-- The order of types is transitive. The root comes last. -/
theorem Below.trans (hr : superclass.Rooted) {first second third : RefType}
    (h : Below superclass first second) (h' : Below superclass second third) :
    Below superclass first third := by
  -- on the second fact: what is in the middle of it fixes what the first one can be
  induction h' generalizing first with
  | refl => exact h
  | root => exact .root _
  | cloneable ha => exact .cloneable (h.isArray ha)
  | serializable ha => exact .serializable (h.isArray ha)
  | array hs ht _ ih =>
    rcases h.element hs with ⟨found, hf, hb⟩
    exact .array hf ht (ih hb)
  | «extends» he =>
    cases h with
    | refl => exact .extends he
    | «extends» he' => exact .extends (he'.trans he)
    | root => rw [hr.eq_object he]; exact .root _
    | cloneable ha =>
      rcases hr.of_interface (.inl rfl) he with rfl | rfl
      · exact .cloneable ha
      · exact .root _
    | serializable ha =>
      rcases hr.of_interface (.inr rfl) he with rfl | rfl
      · exact .serializable ha
      · exact .root _
    | array _ ho => simp [element?] at ho

/-- With a dimension more, the elements are what the type was. -/
theorem element?_addDimensions (count : Nat) (type : RefType) :
    (type.addDimensions (count + 1)).element? = some (.ref (type.addDimensions count)) := by
  cases type <;> cases count <;> rfl

/-- A dimension that is taken off a type can be put on again. -/
theorem addDimensions_of_element? {type element : RefType}
    (h : type.element? = some (.ref element)) (count : Nat) :
    element.addDimensions (count + 1) = type.addDimensions count := by
  -- an element has a dimension less, unless it is the last one
  cases type with
  | object name => simp [element?] at h
  | objectArray extra name =>
    cases extra with
    | zero =>
      simp only [element?, FieldType.object, Option.some.injEq, FieldType.ref.injEq] at h
      subst h
      cases count <;> simp [addDimensions]
    | succ extra =>
      simp only [element?, Option.some.injEq, FieldType.ref.injEq] at h
      subst h
      cases count <;> simp only [addDimensions, objectArray.injEq, and_true]
      omega
  | primitiveArray extra base =>
    cases extra with
    | zero => simp [element?] at h
    | succ extra =>
      simp only [element?, Option.some.injEq, FieldType.ref.injEq] at h
      subst h
      cases count <;> simp only [addDimensions, primitiveArray.injEq, and_true]
      omega

/-- Arrays of as many dimensions are ordered as what they consist of. -/
theorem Below.addDimensions {type other : RefType} (h : Below superclass type other)
    (count : Nat) : Below superclass (type.addDimensions count) (other.addDimensions count) := by
  induction count with
  | zero => exact h
  | succ count ih =>
    exact .array (element?_addDimensions count type) (element?_addDimensions count other) ih

end RefType

/-! ## Types of values, and type states -/

/-- The order of the types of values: null is below every type of objects. -/
inductive InferredType.Below (superclass : Superclasses) : InferredType → InferredType → Prop where
  | refl (type : InferredType) : Below superclass type type
  | null (type : RefType) : Below superclass .null (.object type)
  | object {type other : RefType} : RefType.Below superclass type other →
      Below superclass (.object type) (.object other)

/-- The order of the types of locals, which may become unusable. -/
def InferredType.LocalBelow (superclass : Superclasses) (type other : InferredType) : Prop :=
  other = .top ∨ InferredType.Below superclass type other

/-- The order of type states. A local that is missing cannot be used. -/
structure TypeState.Below (superclass : Superclasses) (state other : TypeState) : Prop where
  locals : ∀ slot, InferredType.LocalBelow superclass (localAt state.locals slot)
    (localAt other.locals slot)
  stack : List.Forall₂ (InferredType.Below superclass) state.stack.values other.stack.values

namespace InferredType

variable {superclass : Superclasses} {type other third : InferredType}

/-- The order of values is transitive. -/
theorem Below.trans (hr : superclass.Rooted) (h : Below superclass type other)
    (h' : Below superclass other third) : Below superclass type third := by
  cases h with
  | refl => exact h'
  | null => cases h' <;> exact .null _
  | object hb =>
    cases h' with
    | refl => exact .object hb
    | object hb' => exact .object (hb.trans hr hb')

theorem LocalBelow.refl (type : InferredType) : LocalBelow superclass type type :=
  .inr (.refl type)

/-- The order of what slots hold is transitive. -/
theorem LocalBelow.trans (hr : superclass.Rooted) (h : LocalBelow superclass type other)
    (h' : LocalBelow superclass other third) : LocalBelow superclass type third := by
  rcases h' with rfl | h'
  · exact .inl rfl
  · rcases h with rfl | h
    · cases h'
      exact .inl rfl
    · exact .inr (h.trans hr h')

/-- Types that are ordered take up as many slots. -/
theorem Below.width_eq (h : Below superclass type other) : width type = width other := by
  cases h <;> rfl

/-- A local below one that can be used can be used too. -/
theorem LocalBelow.below (h : LocalBelow superclass type other) (ho : other ≠ .top) :
    Below superclass type other := h.resolve_left ho

end InferredType

namespace TypeState

variable {superclass : Superclasses} {first second third : TypeState}

theorem Below.refl (state : TypeState) : Below superclass state state where
  locals _ := .refl _
  stack := List.forall₂_same.2 fun _ _ => .refl _

/-- The order of stacks is transitive. -/
theorem stack_trans (hr : superclass.Rooted) {firsts seconds thirds : List InferredType}
    (h : List.Forall₂ (InferredType.Below superclass) firsts seconds)
    (h' : List.Forall₂ (InferredType.Below superclass) seconds thirds) :
    List.Forall₂ (InferredType.Below superclass) firsts thirds := by
  induction h generalizing thirds with
  | nil => exact h'
  | cons hb _ ih =>
    cases h' with
    | cons hb' hrest => exact .cons (hb.trans hr hb') (ih hrest)

/-- The order of states is transitive. -/
theorem Below.trans (hr : superclass.Rooted) (h : Below superclass first second)
    (h' : Below superclass second third) : Below superclass first third where
  locals slot := (h.locals slot).trans hr (h'.locals slot)
  stack := stack_trans hr h.stack h'.stack

/-- The transitive order that the order of type states gives. It is that order itself, unless the
root has a superclass. -/
def Under (superclass : Superclasses) : TypeState → TypeState → Prop :=
  Relation.ReflTransGen (Below superclass)

theorem Under.refl (state : TypeState) : Under superclass state state := Relation.ReflTransGen.refl

theorem Below.under (h : Below superclass first second) : Under superclass first second :=
  Relation.ReflTransGen.single h

theorem Under.trans (h : Under superclass first second) (h' : Under superclass second third) :
    Under superclass first third :=
  Relation.ReflTransGen.trans h h'

/-- A state that is reached by going up is above the first one. -/
theorem Under.below (hr : superclass.Rooted) (h : Under superclass first second) :
    Below superclass first second := by
  induction h with
  | refl => exact .refl first
  | tail _ hlast ih => exact ih.trans hr hlast

/-- States stay ordered when a handler is entered from both. -/
theorem Below.handlerEntry (h : Below superclass first second) (caught : InferredType) :
    Below superclass (first.handlerEntry caught) (second.handlerEntry caught) where
  locals := h.locals
  stack := .cons (.refl caught) .nil

end TypeState

end Preverification

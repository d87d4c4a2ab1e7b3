import Preverification.VerificationType

/-!
# Type states

What is known about the locals and the operand stack in front of an instruction. Locals are known
slot by slot: a `long` or `double` is followed by a slot that cannot be used. A `Frame` is what a
type state looks like in a stack map: a `long` or `double` is one entry there, and unusable locals
at the end are left out.
-/

namespace Preverification

/-- What a value is replaced by, when one type becomes another. -/
def retyped (old new type : InferredType) : Option InferredType :=
  if type = old then some new else none

theorem width_retyped {old new : InferredType} (h : width new = width old) (type : InferredType) :
    width ((retyped old new type).getD type) = width type := by
  unfold retyped
  split
  · rename_i heq
    rw [heq]
    exact h
  · rfl

/-- The values on an operand stack, the bottom one first, each at the sum of the widths of those
below it. -/
@[ext]
structure OperandStack where
  vector : WidthVector InferredType
  sums : vector.Sums

namespace OperandStack

/-- The stack without values. -/
def empty : OperandStack := ⟨∅, WidthVector.sums_empty⟩

instance : EmptyCollection OperandStack := ⟨empty⟩

instance : Inhabited OperandStack := ⟨empty⟩

/-- The stack with these values, the bottom one first. -/
def ofList (types : List InferredType) : OperandStack :=
  ⟨.ofList types, WidthVector.sums_ofList types⟩

/-- The stack with these values, the top one first. -/
def ofValues (values : List InferredType) : OperandStack := ofList values.reverse

/-- Puts a value on top. -/
def push (type : InferredType) (stack : OperandStack) : OperandStack :=
  ⟨stack.vector.push type, stack.sums.push type⟩

/-- The value on top and the stack below it. -/
def pop? (stack : OperandStack) : Option (InferredType × OperandStack) :=
  match h : stack.vector.pop? with
  | none => none
  | some ((_, _, type), rest) => some (type, ⟨rest, (stack.sums.pop h).1⟩)

/-- Replaces a type by another one of the same width, where its values stand. -/
def replace (old new : InferredType) (h : width new = width old) (stack : OperandStack) :
    OperandStack :=
  ⟨stack.vector.replace (retyped old new), stack.sums.replace (width_retyped h)⟩

/-- The number of values. -/
def size (stack : OperandStack) : Nat := stack.vector.size

/-- The number of slots. -/
def height (stack : OperandStack) : Nat := stack.vector.offsetLength

/-- The values, the bottom one first. -/
def toList (stack : OperandStack) : List InferredType := stack.vector.toList

/-- The values, the top one first. -/
def values (stack : OperandStack) : List InferredType := stack.toList.reverse

variable {stack other : OperandStack}

/-- The values tell where they start. -/
theorem eq_of_toList (h : stack.toList = other.toList) : stack = other := by
  obtain ⟨vector, sums⟩ := stack
  obtain ⟨vector', sums'⟩ := other
  cases sums.ext sums' h
  rfl

theorem toList_inj : stack.toList = other.toList ↔ stack = other :=
  ⟨eq_of_toList, congrArg toList⟩

instance : DecidableEq OperandStack := fun _ _ => decidable_of_iff _ toList_inj

theorem eq_of_values (h : stack.values = other.values) : stack = other :=
  eq_of_toList (List.reverse_inj.1 h)

@[simp]
theorem toList_ofList (types : List InferredType) : (ofList types).toList = types :=
  WidthVector.toList_ofList types

@[simp]
theorem values_ofList (types : List InferredType) : (ofList types).values = types.reverse := by
  rw [values, toList_ofList]

@[simp]
theorem values_ofValues (values : List InferredType) : (ofValues values).values = values := by
  rw [ofValues, values_ofList, List.reverse_reverse]

@[simp]
theorem ofValues_values (stack : OperandStack) : ofValues stack.values = stack :=
  eq_of_values (values_ofValues _)

@[simp]
theorem values_push (type : InferredType) (stack : OperandStack) :
    (stack.push type).values = type :: stack.values := by
  have hlist : (stack.push type).toList = stack.toList ++ [type] :=
    WidthVector.toList_push stack.vector type
  rw [values, hlist, List.reverse_append, values]
  rfl

@[simp]
theorem values_replace {old new : InferredType} (h : width new = width old)
    (stack : OperandStack) : (stack.replace old new h).values =
      stack.values.map fun type => if type = old then new else type := by
  have hlist : (stack.replace old new h).toList =
      stack.toList.map fun type => (retyped old new type).getD type :=
    WidthVector.toList_replace stack.vector (retyped old new)
  rw [values, hlist, ← List.map_reverse, ← values]
  refine List.map_congr_left fun type _ => ?_
  unfold retyped
  split <;> rfl

/-- What is popped is what was pushed last. -/
theorem pop?_eq_push {type : InferredType} :
    stack.pop? = some (type, other) ↔ stack = other.push type := by
  unfold pop?
  split
  · rename_i hnone
    refine iff_of_false nofun ?_
    rintro rfl
    rw [push, WidthVector.pop?_push] at hnone
    cases hnone
  · rename_i offset index found rest hpop
    constructor
    · intro h
      cases h
      exact OperandStack.ext (stack.sums.pop hpop).2
    · rintro rfl
      rw [push, WidthVector.pop?_push] at hpop
      cases hpop
      rfl

theorem pop?_eq_some {type : InferredType} :
    stack.pop? = some (type, other) ↔ stack.values = type :: other.values := by
  rw [pop?_eq_push, ← values_push]
  exact ⟨congrArg values, eq_of_values⟩

theorem length_toList (stack : OperandStack) : stack.toList.length = stack.size :=
  WidthVector.length_toList stack.vector

theorem size_eq (stack : OperandStack) : stack.size = stack.values.length := by
  rw [values, List.length_reverse, length_toList]

@[simp]
theorem size_push (type : InferredType) (stack : OperandStack) :
    (stack.push type).size = stack.size + 1 := by
  rw [size_eq, values_push, List.length_cons, ← size_eq]

@[simp]
theorem size_replace {old new : InferredType} (h : width new = width old)
    (stack : OperandStack) : (stack.replace old new h).size = stack.size := by
  rw [size_eq, values_replace, List.length_map, ← size_eq]

theorem height_eq (stack : OperandStack) : stack.height = totalWidth stack.values := by
  rw [values, totalWidth_reverse]
  exact stack.sums.length

end OperandStack

/-- What is known about the locals, slot by slot, and the operand stack. -/
structure TypeState where
  locals : List InferredType
  stack : OperandStack
deriving DecidableEq, Inhabited

/-- Locals and stack as they stand in a stack map, over a type of types. -/
structure Frame (T : Type) where
  locals : WidthVector T
  stack : WidthVector T
deriving Inhabited

namespace TypeState

/-- The slots of a value in local variables: a value of two slots is followed by an unusable one. -/
def slots (type : InferredType) : List InferredType :=
  if width type = 2 then [type, .top] else [type]

/-- What is known when a method is entered. The receiver of a constructor is not initialised yet,
except for that of the root class. The locals behind the parameters cannot be used. -/
def methodEntry (thisClass : BinaryName) (isStatic isConstructor : Bool)
    (method : MethodDescriptor) (maxLocals : Nat) : TypeState :=
  let receiver : List InferredType :=
    if isStatic then []
    else if isConstructor && thisClass ≠ .object then [.uninitializedThis]
    else [.object (.object thisClass)]
  let parameters := method.parameters.flatMap (slots ·.verificationType)
  let used := receiver ++ parameters
  ⟨used ++ List.replicate (maxLocals - used.length) .top, ∅⟩

/-- What is known when a handler is entered from a place where something is known. -/
def handlerEntry (state : TypeState) (caught : InferredType) : TypeState :=
  ⟨state.locals, OperandStack.push caught ∅⟩

/-- The entries of some local variables. Those in `done` come earlier, the last one first, and
`paired` tells whether the first slot is the second half of the last entry. -/
def localEntriesFrom (done : List InferredType) (paired : Bool) :
    List InferredType → List InferredType
  | [] => (done.dropWhile (· = .top)).reverse
  | type :: rest =>
    if paired then localEntriesFrom done false rest
    else localEntriesFrom (type :: done) (width type = 2) rest

/-- The frame of a type state. -/
def toFrame (state : TypeState) : Frame InferredType :=
  ⟨.ofList (localEntriesFrom [] false state.locals), state.stack.vector⟩

/-- The number of slots up to the last local that can be used, when `slot` slots come in front and
`used` is the number for them. -/
def usedLocalsFrom (used slot : Nat) : List InferredType → Nat
  | [] => used
  | type :: rest =>
    usedLocalsFrom (if type = .top then used else max used (slot + width type)) (slot + 1) rest

/-- The number of slots up to the last local that can be used. -/
def usedLocals (state : TypeState) : Nat := usedLocalsFrom 0 0 state.locals

/-- Writes a local variable. A value of two slots whose second slot is overwritten is lost. -/
def setLocal (slot : Nat) (type : InferredType) (locals : List InferredType) :
    List InferredType :=
  let long := locals ++ List.replicate (slot + width type - locals.length) .top
  let broken := 0 < slot ∧ (long[slot - 1]?.map width) = some 2
  let cleared := if broken then long.set (slot - 1) .top else long
  let paired := if width type = 2 then cleared.set (slot + 1) .top else cleared
  paired.set slot type

end TypeState

end Preverification

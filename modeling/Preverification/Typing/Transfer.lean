import Preverification.Constant.Pool
import Preverification.Instruction.Operation
import Preverification.Typing.Error
import Preverification.Typing.State

/-!
# The effect of instructions on types

How each instruction changes what is known about the locals and the operand stack, or why it cannot
run. An instruction that fails leaves the state as it was at that point. Whether a reference fits a
field or a parameter is not looked at beyond its being a reference.
-/

namespace Preverification

/-- What the effect of instructions depends on besides the state: the constants, the class of the
method, and its declared result. -/
structure MethodContext where
  constants : Pool
  thisClass : BinaryName
  returnType : Option FieldType

/-- A change of a type state that may fail half way. -/
abbrev Transfer := EStateM TypeError TypeState

namespace Transfer

/-- Pushes a value. -/
def push (type : InferredType) : Transfer Unit := fun state =>
  .ok () ⟨state.locals, state.stack.push type⟩

/-- Pushes values one after the other. -/
def pushAll (types : List InferredType) : Transfer Unit := types.forM push

/-- Pops a value. -/
def pop : Transfer InferredType := fun state =>
  match state.stack.pop? with
  | some (type, stack) => .ok type ⟨state.locals, stack⟩
  | none => .error .emptyStack state

/-- Pops a value that takes up a number of slots. -/
def popWidth (expected : Nat) : Transfer InferredType := do
  let type ← pop
  if width type = expected then return type else throw (.invalidWidth (width type))

/-- Pops a value that has a type. -/
def popType (expected : InferredType) : Transfer Unit := do
  let type ← pop
  if type = expected then return () else throw (.invalidType (.sameCategory expected) type)

/-- Pops a reference. -/
def popReference : Transfer InferredType := do
  let type ← pop
  if type.isReference then return type else throw (.invalidType .reference type)

/-- Whether a value may be used where a type is expected. -/
def isCompatible (type : InferredType) : InferredType → Bool
  | .object _ => match type with
    | .null | .object _ => true
    | _ => false
  | expected => type = expected

/-- Pops a value that may be used where a type is expected. -/
def popCompatible (expected : InferredType) : Transfer Unit := do
  let type ← pop
  if isCompatible type expected then return ()
  else throw (.invalidType (.sameCategory expected) type)

/-- Pops the arguments of a call, the last one first. -/
def popArguments (parameters : List FieldType) : Transfer Unit :=
  parameters.reverse.forM fun parameter => popCompatible parameter.verificationType

/-- The type of a local variable. -/
def getLocal (slot : UInt16) : Transfer InferredType := fun state =>
  match state.locals[slot.toNat]? with
  | none | some .top => .error (.invalidLocal slot) state
  | some type => .ok type state

/-- Checks the type of a local variable. -/
def expectLocal (slot : UInt16) (expected : InferredType) : Transfer Unit := do
  let type ← getLocal slot
  if type = expected then return () else throw (.invalidType (.sameCategory expected) type)

/-- Writes a local variable. -/
def setLocal (slot : UInt16) (type : InferredType) : Transfer Unit := fun state =>
  .ok () ⟨TypeState.setLocal slot.toNat type state.locals, state.stack⟩

/-- Replaces a type by another one of the same width everywhere, as when the constructor of an
object has run. -/
def replaceAll (old new : InferredType) (h : width new = width old) : Transfer Unit := fun state =>
  .ok () ⟨state.locals.map fun type => if type = old then new else type,
    state.stack.replace old new h⟩

/-- Lets a look-up decide whether an instruction can run on the constant at an index. -/
def constant {α : Type} (index : PoolIndex) (result : Except StructuralError α) : Transfer α :=
  match result with
  | .ok value => return value
  | .error _ => throw (.badConstant index)

/-! ### Kinds as types -/

/-- The type of the numbers of a kind. -/
def numberType : NumberKind → InferredType
  | .int => .integer | .long => .long | .float => .float | .double => .double

/-- The type of the numbers of a kind. -/
def integralType : IntegralKind → InferredType
  | .int => .integer | .long => .long

/-- The type of the values of a kind, which is the same for all but references. -/
def valueType? : ValueKind → Option InferredType
  | .int => some .integer | .long => some .long | .float => some .float
  | .double => some .double | .reference => none

/-- The type of the elements of a kind, which is the same for all but references. -/
def elementType? : ElementKind → Option InferredType
  | .int | .byte | .char | .short => some .integer
  | .long => some .long | .float => some .float | .double => some .double
  | .reference => none

/-- The type of the value that a constant loads. -/
def constantType (pool : Pool) (index : PoolIndex) : Except StructuralError InferredType :=
  let unusable := StructuralError.badConstantIndex index .loadable
  let objectOf := fun name => (VerificationType.object (RefType.object name) : InferredType)
  match pool.get? index with
  | some (.integer _) => return .integer
  | some (.float _) => return .float
  | some (.long _) => return .long
  | some (.double _) => return .double
  | some (.string _) => return objectOf .string
  | some (.classRef _) => return objectOf .class
  | some (.methodHandle ..) => return objectOf .methodHandle
  | some (.methodType _) => return objectOf .methodType
  | some (.dynamic _ member) => do
    let descriptor := (← pool.nameAndType member).2
    return (← FieldType.ofDescriptor descriptor).verificationType
  | _ => throw unusable

/-- The type of the field at an index. -/
def fieldType (pool : Pool) (index : PoolIndex) : Transfer InferredType :=
  constant index do
    let field ← pool.fieldRef index
    return (← FieldType.ofDescriptor field.descriptor).verificationType

/-- The type of the class constant at an index. -/
def classType (pool : Pool) (index : PoolIndex) : Transfer RefType :=
  constant index (pool.classType index)

/-! ### Instructions -/

/-- Loads a constant that takes up a number of slots. -/
def loadConstant (pool : Pool) (index : PoolIndex) (expected : Nat) : Transfer Unit := do
  let type ← constant index (constantType pool index)
  if width type = expected then push type else throw (.invalidWidth (width type))

/-- Loads a local variable. -/
def load (kind : ValueKind) (slot : UInt16) : Transfer Unit := do
  match valueType? kind with
  | some type =>
    expectLocal slot type
    push type
  | none =>
    let type ← getLocal slot
    if type.isReference then push type else throw (.invalidType .reference type)

/-- Stores into a local variable. -/
def store (kind : ValueKind) (slot : UInt16) : Transfer Unit := do
  match valueType? kind with
  | some type =>
    popType type
    setLocal slot type
  | none => setLocal slot (← popReference)

/-- Loads an element of an array. -/
def arrayLoad (kind : ElementKind) : Transfer Unit := do
  popType .integer
  match elementType? kind with
  | some type =>
    discard popReference
    push type
  | none =>
    let array ← pop
    match array with
    | .null => push .null
    | .object type => match type.element? with
      | some (.ref element) => push (.object element)
      | _ => throw (.invalidType .arrayOfReferences array)
    | _ => throw (.invalidType .arrayOfReferences array)

/-- Stores into an element of an array. -/
def arrayStore (kind : ElementKind) : Transfer Unit := do
  match elementType? kind with
  | some type => popType type
  | none => discard popReference
  popType .integer
  discard popReference

/-- Removes, copies and reorders the slots on top of the stack. Values of two slots are not cut. -/
def shuffle : StackShuffle → Transfer Unit
  | .pop => discard (popWidth 1)
  | .pop2 => do
    let first ← pop
    if width first = 1 then discard (popWidth 1)
  | .dup => do
    let first ← popWidth 1
    pushAll [first, first]
  | .dupX1 => do
    let first ← popWidth 1
    let second ← popWidth 1
    pushAll [first, second, first]
  | .dupX2 => do
    let first ← popWidth 1
    let second ← pop
    if width second = 1 then
      let third ← popWidth 1
      pushAll [first, third, second, first]
    else pushAll [first, second, first]
  | .dup2 => do
    let first ← pop
    if width first = 1 then
      let second ← popWidth 1
      pushAll [second, first, second, first]
    else pushAll [first, first]
  | .dup2X1 => do
    let first ← pop
    let second ← popWidth 1
    if width first = 1 then
      let third ← popWidth 1
      pushAll [second, first, third, second, first]
    else pushAll [first, second, first]
  | .dup2X2 => do
    let first ← pop
    let second ← pop
    if width first = 1 then
      if width second = 1 then
        let third ← pop
        if width third = 1 then
          let fourth ← popWidth 1
          pushAll [second, first, fourth, third, second, first]
        else pushAll [second, first, third, second, first]
      else throw (.invalidWidth (width second))
    else if width second = 1 then
      let third ← popWidth 1
      pushAll [first, third, second, first]
    else pushAll [first, second, first]
  | .swap => do
    let first ← popWidth 1
    let second ← popWidth 1
    pushAll [first, second]

/-- Calls a method. -/
def invoke (context : MethodContext) (kind : InvokeKind) (index : PoolIndex) : Transfer Unit := do
  let pool := context.constants
  let method ← constant index (pool.methodRef index)
  let signature ← constant index (MethodDescriptor.ofDescriptor method.descriptor)
  popArguments signature.parameters
  if kind = .special ∧ method.name = UnqualifiedName.init then
    let receiver ← pop
    match receiver with
    | .uninitializedThis =>
      replaceAll .uninitializedThis (.object (.object context.thisClass)) rfl
    | .uninitialized site =>
      replaceAll (.uninitialized site) (.object (← constant index (pool.classType method.owner))) rfl
    | _ => throw (.invalidType .uninitializedObject receiver)
  else
    if kind ≠ .static then
      let receiver ← pop
      match receiver with
      | .null | .object _ => pure ()
      | _ => throw (.invalidType .initializedReference receiver)
    signature.returnType.forM fun type => push type.verificationType

/-- Calls a method that is found when it is first called. -/
def invokeDynamic (pool : Pool) (index : PoolIndex) : Transfer Unit := do
  let signature ← constant index do
    MethodDescriptor.ofDescriptor (← pool.invokeDynamicDescriptor index)
  popArguments signature.parameters
  signature.returnType.forM fun type => push type.verificationType

/-- The effect of an instruction. An allocation is known by the label in front of it. -/
def instruction (context : MethodContext) (allocation : Option Label) :
    Instruction → Transfer Unit
  | .nop => return ()
  | .nullConst => push .null
  | .intConst _ | .pushByte _ | .pushShort _ => push .integer
  | .longConst _ => push .long
  | .floatConst _ => push .float
  | .doubleConst _ => push .double
  | .loadConstant index => loadConstant context.constants index 1
  | .loadWideConstant index => loadConstant context.constants index 2
  | .load kind slot => load kind slot
  | .store kind slot => store kind slot
  | .arrayLoad kind => arrayLoad kind
  | .arrayStore kind => arrayStore kind
  | .shuffle op => shuffle op
  | .arithmetic _ kind => do
    popType (numberType kind)
    popType (numberType kind)
    push (numberType kind)
  | .negate kind => do
    popType (numberType kind)
    push (numberType kind)
  | .shift _ kind => do
    popType .integer
    popType (integralType kind)
    push (integralType kind)
  | .bitwise _ kind => do
    popType (integralType kind)
    popType (integralType kind)
    push (integralType kind)
  | .increment slot _ => expectLocal slot .integer
  | .convert source target _ => do
    popType (numberType source)
    push (numberType target)
  | .narrow _ => do
    popType .integer
    push .integer
  | .compareLongs => do
    popType .long
    popType .long
    push .integer
  | .compareFloats _ => do
    popType .float
    popType .float
    push .integer
  | .compareDoubles _ => do
    popType .double
    popType .double
    push .integer
  | .getStatic index => do push (← fieldType context.constants index)
  | .putStatic index => do popCompatible (← fieldType context.constants index)
  | .getField index => do
    let type ← fieldType context.constants index
    discard popReference
    push type
  | .putField index => do
    popCompatible (← fieldType context.constants index)
    discard popReference
  | .invoke kind index => invoke context kind index
  | .invokeDynamic index => invokeDynamic context.constants index
  | .new _ => match allocation with
    | some site => push (.uninitialized site)
    | none => throw .unlabelledAllocation
  | .newArray element => do
    popType .integer
    push (.object (.arrayOf (.base element)))
  | .newRefArray index => do
    popType .integer
    push (.object (.arrayOf (.ref (← classType context.constants index))))
  | .arrayLength => do
    discard popReference
    push .integer
  | .checkCast index => do
    discard popReference
    push (.object (← classType context.constants index))
  | .instanceOf _ => do
    discard popReference
    push .integer
  | .monitorEnter | .monitorExit => discard popReference
  | .newMultiArray index dimensions => do
    (List.replicate dimensions.toNat ()).forM fun _ => popType .integer
    push (.object (← classType context.constants index))

/-- Returns a value from a method. -/
def returnValue (context : MethodContext) (kind : ValueKind) : Transfer Unit := do
  let returned := context.returnType.map FieldType.verificationType
  match valueType? kind with
  | some expected =>
    let found ← pop
    if found ≠ expected ∨ returned ≠ some expected then throw (.invalidType .returnType found)
  | none =>
    let found ← popReference
    match returned with
    | some (.object _) => return ()
    | _ => throw (.invalidType .returnType found)

/-- The effect of a branch. -/
def branch {L : Type} (context : MethodContext) : Branch L → Transfer Unit
  | .ifInt .. | .tableSwitch .. | .lookupSwitch .. => popType .integer
  | .ifInts .. => do
    popType .integer
    popType .integer
  | .ifRefs .. => do
    discard popReference
    discard popReference
  | .ifNull .. | .throwException => discard popReference
  | .goto _ => return ()
  | .returnValue kind => returnValue context kind
  | .returnVoid => match context.returnType with
    | none => return ()
    | some type => throw (.invalidType .void type.verificationType)
  | .jsr _ | .ret _ => throw .subroutine

/-- The effect of an operation. -/
def operation {L : Type} (context : MethodContext) (allocation : Option Label) :
    Operation L → Transfer Unit
  | .step i => instruction context allocation i
  | .branch b => branch context b

end Transfer

end Preverification

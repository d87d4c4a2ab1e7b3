import Preverification.Attribute.Code
import Preverification.Attribute.Debug
import Preverification.Attribute.StackMap
import Preverification.Body.Basic
import Std.Data.HashSet

/-!
# Decoding method bodies

`Body.decode` turns the code of a method into a body. Branches, handlers and protected ranges have
to line up with the instructions. Entries of debug tables that do not are left out, and so are stack
maps, which are worked out anew. Labels are numbered in the order of their places.
-/

namespace Preverification

/-- Code that was read: its length, and its operations in order, each behind its offset. The offsets
are kept as a set as well. -/
structure DecodedCode where
  length : Nat
  operations : List (Nat × Operation Nat)
  starts : Std.HashSet Nat

namespace DecodedCode

/-- Reads operations up to the end of the code. Those in `found` were read before, the last one
first. Each operation has at least one byte, so `length` rounds are enough. -/
def readOperations (pool : Pool) (length : Nat) (found : List (Nat × Operation Nat)) :
    (rounds : Nat) → Reader (List (Nat × Operation Nat))
  | 0 => return found.reverse
  | rounds + 1 => do
    let offset ← Reader.position
    if length ≤ offset then return found.reverse
    let operation ← Operation.read pool length offset
    readOperations pool length ((offset, operation) :: found) rounds

/-- Reads the bytes of some code. -/
def ofBytes (pool : Pool) (bytecode : Bytes) : Except StructuralError DecodedCode := do
  let length := bytecode.length
  let (operations, _) ← Reader.run (readOperations pool length [] length) bytecode
  return ⟨length, operations, .ofList (operations.map (·.1))⟩

/-- Whether an operation starts at an offset. -/
def isStart (code : DecodedCode) (offset : Nat) : Bool := code.starts.contains offset

/-- Whether an operation, or all of the code, ends at an offset. -/
def isStop (code : DecodedCode) (offset : Nat) : Bool :=
  offset = code.length || code.isStart offset

/-- Whether a range is made of at least one operation, and of whole operations. -/
def isRange (code : DecodedCode) (start stop : Nat) : Bool :=
  start < stop && code.isStart start && code.isStop stop

/-- Checks that every branch leads to an operation. -/
def checkTargets (code : DecodedCode) : Except StructuralError Unit :=
  code.operations.forM fun (offset, operation) =>
    match operation.targets.find? (!code.isStart ·) with
    | some target => throw (.invalidBranchTarget offset target)
    | none => return ()

/-- Checks that an exception table entry is made of whole operations. -/
def checkException (code : DecodedCode) (entry : ExceptionEntry) : Except StructuralError Unit :=
  let start := entry.start.toNat
  let stop := entry.stop.toNat
  let handler := entry.handler.toNat
  if !code.isRange start stop then throw (.invalidCodeRange start stop)
  else if !code.isStart handler then throw (.invalidCodeRange handler handler)
  else return ()

/-- Whether the range of a variable is made of whole operations. -/
def admits (code : DecodedCode) (entry : VariableEntry) : Bool :=
  code.isRange entry.start.toNat (entry.start.toNat + entry.length.toNat)

end DecodedCode

/-- The attributes of code, sorted by what they hold. The others are passed on as they are. -/
structure CodeAttributes where
  lines : List LineEntry := []
  localVariables : List VariableEntry := []
  variableTypes : List VariableEntry := []
  others : List Attribute := []

namespace CodeAttributes

/-- What an attribute holds. Stack maps are left out. -/
def ofAttribute (pool : Pool) (attr : Attribute) : Except StructuralError CodeAttributes := do
  if ← attr.holds LineNumberTable pool then
    return { lines := (← attr.decode LineNumberTable).entries }
  else if ← attr.holds LocalVariableTable pool then
    return { localVariables := (← attr.decode LocalVariableTable).entries }
  else if ← attr.holds LocalVariableTypeTable pool then
    return { variableTypes := (← attr.decode LocalVariableTypeTable).entries }
  else if (← attr.holds StackMapTable pool) || (← attr.holds StackMap pool) then return {}
  else return { others := [attr] }

/-- Sorts the attributes of code. -/
def ofList (pool : Pool) (attributes : List Attribute) : Except StructuralError CodeAttributes := do
  let parts ← attributes.mapM (ofAttribute pool)
  return {
    lines := parts.flatMap lines
    localVariables := parts.flatMap localVariables
    variableTypes := parts.flatMap variableTypes
    others := parts.flatMap others }

end CodeAttributes

namespace Body

/-- The offsets that the range of a variable refers to. -/
def variableOffsets (entry : VariableEntry) : List Nat :=
  [entry.start.toNat, entry.start.toNat + entry.length.toNat]

/-- The labels of the offsets that something refers to, numbered in the order of the offsets. -/
def labelOffsets (code : DecodedCode) (referenced : Std.HashSet Nat) : Std.HashMap Nat Label :=
  let offsets := (code.operations.map (·.1) ++ [code.length]).filter referenced.contains
  .ofList (offsets.zipIdx.map fun (offset, number) => (offset, ⟨number⟩))

/-- The lines that start at each offset, in the order of their entries. -/
def linesByOffset (code : DecodedCode) (entries : List LineEntry) :
    Std.HashMap Nat (List UInt16) :=
  entries.foldr (fun entry lines =>
    let start := entry.start.toNat
    if code.isStart start then lines.insert start (entry.line :: lines.getD start []) else lines) ∅

/-- The range of a variable, with labels for its ends. -/
def variableRange (labelAt : Nat → Label) (entry : VariableEntry) : VariableRange where
  start := labelAt entry.start.toNat
  stop := labelAt (entry.start.toNat + entry.length.toNat)
  name := entry.name
  descriptor := entry.descriptor
  slot := entry.slot

/-- The handler of an exception table entry, with labels for its places. -/
def handler (labelAt : Nat → Label) (entry : ExceptionEntry) : Handler where
  start := labelAt entry.start.toNat
  stop := labelAt entry.stop.toNat
  handler := labelAt entry.handler.toNat
  caught := entry.caught

/-- The nodes of an operation at an offset: its label, the lines that start there, and itself. -/
def operationNodes (labels : Std.HashMap Nat Label) (lines : Std.HashMap Nat (List UInt16))
    (offset : Nat) (operation : Operation Nat) : List Node :=
  labels[offset]?.toList.map .label ++ (lines.getD offset []).map .line ++
    [.operation (operation.map (labels.getD · default))]

/-- Decodes the code of a method. -/
def decode (code : Code) (pool : Pool) : Except StructuralError Body := do
  let decoded ← DecodedCode.ofBytes pool code.bytecode
  decoded.checkTargets
  code.exceptions.forM decoded.checkException
  let attributes ← CodeAttributes.ofList pool code.attributes
  let localVariables := attributes.localVariables.filter decoded.admits
  let variableTypes := attributes.variableTypes.filter decoded.admits
  let referenced : Std.HashSet Nat := .ofList <|
    decoded.operations.flatMap (·.2.targets) ++
    code.exceptions.flatMap (fun e => [e.start.toNat, e.stop.toNat, e.handler.toNat]) ++
    (localVariables ++ variableTypes).flatMap variableOffsets
  let labels := labelOffsets decoded referenced
  let lines := linesByOffset decoded attributes.lines
  let labelAt := (labels.getD · default)
  return {
    maxStack := code.maxStack
    maxLocals := code.maxLocals
    nodes := decoded.operations.flatMap (fun (offset, operation) =>
        operationNodes labels lines offset operation) ++
      labels[decoded.length]?.toList.map .label
    handlers := code.exceptions.map (handler labelAt)
    localVariables := localVariables.map (variableRange labelAt)
    variableTypes := variableTypes.map (variableRange labelAt)
    attributes := attributes.others
    issued := labels.size }

end Body

end Preverification

import Preverification.Attribute.Basic
import Preverification.Instruction.Operation
import Std.Data.HashMap

/-!
# Method bodies

A `Body` is the code of a method in which every place is a label. Operations can be added, removed
and copied without any offset being at stake: offsets are worked out when the body is encoded.
-/

namespace Preverification

/-- An element of a body. Labels are places that something else refers to, and line markers say from
which line of the source the operations behind them come. They take up no room: they belong to the
operation that follows. -/
inductive Node where
  | label (label : Label)
  | line (number : UInt16)
  | operation (operation : Operation Label)
deriving DecidableEq, Repr

namespace Node

/-- Whether the node is an operation. -/
def isOperation : Node → Bool
  | operation _ => true
  | label _ | line _ => false

/-- The label that the node places. -/
def label? : Node → Option Label
  | label l => some l
  | line _ | operation _ => none

/-- The places that the node names. -/
def targets : Node → List Label
  | operation op => op.targets
  | label _ | line _ => []

end Node

/-- A range of the code in which exceptions of a class are caught, or all if no class is named. The
range ends in front of `stop`. -/
structure Handler where
  start : Label
  stop : Label
  handler : Label
  caught : Option PoolIndex
deriving DecidableEq, Repr

/-- A range of the code in which a local variable has a name. It ends in front of `stop`. The
descriptor may be a generic signature. -/
structure VariableRange where
  start : Label
  stop : Label
  name : PoolIndex
  descriptor : PoolIndex
  slot : UInt16
deriving DecidableEq, Repr

/-- The code of a method, with labels for places, and the numbers of slots that it declares. Of the
handlers that apply, the first one catches. `attributes` are passed on as they are, and the next
fresh label has the number `issued`. -/
structure Body where
  maxStack : UInt16
  maxLocals : UInt16
  nodes : List Node
  handlers : List Handler
  localVariables : List VariableRange
  variableTypes : List VariableRange
  attributes : List Attribute
  issued : Nat
deriving DecidableEq, Repr

namespace Body

/-- The number of operations. -/
def operationCount (body : Body) : Nat := body.nodes.countP Node.isOperation

/-- The operations, each with the label right in front of it. -/
def operations (body : Body) : List (Option Label × Operation Label) :=
  (body.nodes.zip (none :: body.nodes.map Node.label?)).filterMap fun (node, label) =>
    match node with
    | .operation op => some (label, op)
    | .label _ | .line _ => none

/-- Whether there is a subroutine call or return. -/
def hasSubroutines (body : Body) : Bool := body.operations.any (·.2.isSubroutine)

/-- Notes where the labels of some nodes are placed, of which the first has a position. -/
def placeLabels (placed : Std.HashMap Label Nat) (position : Nat) :
    List Node → Except StructuralError (Std.HashMap Label Nat)
  | [] => .ok placed
  | node :: rest =>
    match node.label? with
    | none => placeLabels placed (position + 1) rest
    | some label =>
      if placed.contains label then .error (.duplicateLabel label)
      else placeLabels (placed.insert label position) (position + 1) rest

/-- The positions of the labels among the nodes. -/
def labelPositions (body : Body) : Except StructuralError (Std.HashMap Label Nat) :=
  placeLabels ∅ 0 body.nodes

/-- The labels that something refers to: branches first, then handlers and ranges. -/
def referencedLabels (body : Body) : List Label :=
  body.nodes.flatMap Node.targets ++
    body.handlers.flatMap (fun handler => [handler.start, handler.stop, handler.handler]) ++
    (body.localVariables ++ body.variableTypes).flatMap fun range => [range.start, range.stop]

/-- Checks that every label that something refers to is placed, and that none is placed twice. -/
def checkLabels (body : Body) : Except StructuralError Unit := do
  let positions ← body.labelPositions
  match body.referencedLabels.find? fun label => !positions.contains label with
  | some label => throw (.unplacedLabel label)
  | none => return ()

/-- Puts a label in front of every allocation that has none. The nodes in `done` come earlier, the
last one first, and `issued` labels were handed out. -/
def labelAllocationsFrom (done : List Node) (issued : Nat) : List Node → List Node × Nat
  | [] => (done.reverse, issued)
  | node :: rest =>
    match node, done with
    | .operation (.step (.new _)), .label _ :: _ =>
      labelAllocationsFrom (node :: done) issued rest
    | .operation (.step (.new _)), _ =>
      labelAllocationsFrom (node :: .label ⟨issued⟩ :: done) (issued + 1) rest
    | _, _ => labelAllocationsFrom (node :: done) issued rest

/-- Puts a label in front of every allocation that has none. An object whose constructor has not run
is known by that label. -/
def labelAllocations (body : Body) : Body :=
  let (nodes, issued) := labelAllocationsFrom [] body.issued body.nodes
  { body with nodes, issued }

end Body

end Preverification

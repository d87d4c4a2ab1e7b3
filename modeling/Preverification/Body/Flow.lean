import Preverification.Body.Basic
import Std.Data.HashSet

/-!
# Control flow

Where control may go in a body. A `Flow` finds the position of a label, and the first operation from
a position on; that is the operation at which a jump to the label arrives.
-/

namespace Preverification

/-- The nodes of a body, prepared for following its control flow: the positions of labels and, for
each position and the end, the first operation from there on and the number of operations in front
of it. -/
structure Flow where
  nodes : Array Node
  positions : Std.HashMap Label Nat
  next : Array (Option Nat)
  numbers : Array Nat

namespace Flow

/-- For each position, and for the end, the first operation from there on. -/
def nextOperations (nodes : List Node) : List (Option Nat) :=
  nodes.zipIdx.foldr (fun (node, position) later =>
    (if node.isOperation then some position else later.head?.join) :: later) [none]

/-- For each position, and for the end, the number of operations in front of it. Those in `done`
belong to earlier positions, the last one first. -/
def operationNumbersFrom (done : List Nat) (number : Nat) : List Node → List Nat
  | [] => (number :: done).reverse
  | node :: rest =>
    operationNumbersFrom (number :: done) (if node.isOperation then number + 1 else number) rest

/-- The position of a label. -/
def position (flow : Flow) (label : Label) : Except StructuralError Nat :=
  match flow.positions[label]? with
  | some position => return position
  | none => throw (.unplacedLabel label)

/-- The first operation from a position on. -/
def operationFrom (flow : Flow) (position : Nat) : Option Nat := flow.next[position]?.join

/-- The operation at which a jump to a label arrives. -/
def operationAt (flow : Flow) (label : Label) : Except StructuralError (Option Nat) :=
  return flow.operationFrom (← flow.position label)

/-- The number of operations in front of a position. -/
def number (flow : Flow) (position : Nat) : Nat := flow.numbers.getD position 0

end Flow

namespace Body

/-- The control flow of a body, in which no label is placed twice. -/
def flow (body : Body) : Except StructuralError Flow := do
  let positions ← body.labelPositions
  return ⟨body.nodes.toArray, positions, (Flow.nextOperations body.nodes).toArray,
    (Flow.operationNumbersFrom [] 0 body.nodes).toArray⟩

/-- The labels to which control may jump: the targets of branches, and the starts of handlers. -/
def jumpLabels (body : Body) : List Label :=
  body.nodes.flatMap Node.targets ++ body.handlers.map Handler.handler

/-- The positions of the operations to which control may jump, in order. A frame is needed there. -/
def frameTargets (body : Body) : Except StructuralError (List Nat) := do
  let flow ← body.flow
  let targets ← body.jumpLabels.mapM flow.operationAt
  let wanted : Std.HashSet Nat := .ofList (targets.filterMap id)
  return (List.range body.nodes.length).filter wanted.contains

end Body

end Preverification

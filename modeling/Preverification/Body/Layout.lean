import Preverification.Body.Basic

/-!
# Layouts

A `Layout` gives every node of a body an offset. Jumps are taken to be short at first; those that do
not reach their target are made long, which moves other code, and so on until nothing changes.
-/

namespace Preverification

/-- The offsets of a body: its nodes, each with its offset and whether it is a long jump, the number
of bytes of all operations, and the offset of each label. -/
structure Layout where
  nodes : List (Node × Nat × Bool)
  codeLength : Nat
  labels : Std.HashMap Label Nat

namespace Layout

/-- The number of bytes of the code of a method that must not be exceeded. -/
def maxCodeLength : Nat := 65535

/-- The offset of a label. -/
def labelOffset (layout : Layout) (label : Label) : Except StructuralError Nat :=
  match layout.labels[label]? with
  | some offset => pure offset
  | none => throw (.unplacedLabel label)

/-- Whether the distance from one offset to another fits into two bytes. -/
def isShort (start stop : Nat) : Bool := Branch.isShort ((stop : Int) - start)

/-- The number of bytes of a node at an offset. -/
def nodeWidth (node : Node) (long : Bool) (offset : Nat) : Nat :=
  match node with
  | .label _ | .line _ => 0
  | .operation (.step instruction) => width instruction
  | .operation (.branch branch) => branch.width long offset

/-- The offsets of some nodes, of which the first has an offset, and the offset behind them. The
offsets in `done` belong to earlier nodes, the last one first. -/
def offsetsFrom (done : List Nat) (offset : Nat) : List Node → List Bool → List Nat × Nat
  | node :: nodes, long :: longs =>
    offsetsFrom (offset :: done) (offset + nodeWidth node long offset) nodes longs
  | _, _ => (done.reverse, offset)

/-- The offsets of labels, given those of all nodes. -/
def labelOffsets (nodes : List Node) (offsets : List Nat) : Std.HashMap Label Nat :=
  (nodes.zip offsets).foldl (fun labels (node, offset) =>
    match node.label? with
    | some label => labels.insert label offset
    | none => labels) ∅

/-- The target of a node that has a short and a long form. -/
def jumpTarget? : Node → Option Label
  | .operation (.branch (.goto target)) | .operation (.branch (.jsr target)) => some target
  | _ => none

/-- Whether a node at an offset is a jump that does not reach its target in the short form. -/
def needsLong (labels : Std.HashMap Label Nat) (node : Node) (offset : Nat) : Bool :=
  match jumpTarget? node with
  | some target => !isShort offset (labels.getD target 0)
  | none => false

/-- The jumps that have to be long when `longs` are: these, and those that do not reach their target
at the offsets that follow from them. -/
def lengthen (nodes : List Node) (longs : List Bool) : List Bool :=
  let offsets := (offsetsFrom [] 0 nodes longs).1
  let labels := labelOffsets nodes offsets
  List.zipWith (· || ·) longs (List.zipWith (needsLong labels) nodes offsets)

/-- Makes jumps long until there are no fewer short ones. -/
def settle (nodes : List Node) (longs : List Bool) : List Bool :=
  if (lengthen nodes longs).count false < longs.count false then
    settle nodes (lengthen nodes longs)
  else longs
termination_by longs.count false

/-- The first target of a conditional branch that is out of reach. -/
def outOfReach? (labels : Std.HashMap Label Nat) (node : Node) (offset : Nat) : Option Label :=
  match node with
  | .operation (.branch branch) =>
    if branch.isConditional then
      branch.targets.find? fun target => !isShort offset (labels.getD target 0)
    else none
  | _ => none

end Layout

/-- Gives every node of a body an offset. -/
def Body.layout (body : Body) : Except StructuralError Layout := do
  body.checkLabels
  let longs := Layout.settle body.nodes (body.nodes.map fun _ => false)
  let (offsets, codeLength) := Layout.offsetsFrom [] 0 body.nodes longs
  let labels := Layout.labelOffsets body.nodes offsets
  let nodes := body.nodes.zip (offsets.zip longs)
  match nodes.findSome? fun (node, offset, _) => Layout.outOfReach? labels node offset with
  | some label => throw (.branchTooFar label)
  | none =>
    if codeLength ≤ Layout.maxCodeLength then return ⟨nodes, codeLength, labels⟩
    else throw (.codeTooLong codeLength)

end Preverification

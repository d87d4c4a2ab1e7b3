import Preverification.Subroutine.Region

/-!
# Inlining subroutines

`Body.inline` puts a copy of a subroutine in the place of each call. The call becomes a null on the
stack, which stands for the place to return to, and the return at the end of the copy becomes a jump
behind the call. Labels of a copy are fresh, so that no label is placed twice. How deep the copies
would be nested, and how many operations there would be, is worked out before anything is copied.
-/

namespace Preverification

/-- How much code inlining may give: the longest chain of subroutines that call each other, and the
highest number of operations of the whole body. -/
structure InliningLimits where
  maxDepth : Nat
  maxOperations : Nat
deriving DecidableEq, Repr

/-! ### The size of the result -/

/-- The size of a region whose calls are replaced by copies: its longest chain of calls, and its
number of operations. -/
structure ExpandedSize where
  depth : Nat
  operations : Nat
deriving DecidableEq, Repr

namespace ExpandedSize

/-- Numbers of operations are not counted beyond this one. -/
def maxOperations : Nat := UInt64.size - 1

/-- The size of a region that calls one more subroutine. A call becomes one operation, and so does
a return, so the numbers of operations add up. -/
def addCall (callee size : ExpandedSize) : ExpandedSize :=
  ⟨max size.depth (callee.depth + 1), min (size.operations + callee.operations) maxOperations⟩

end ExpandedSize

/-- What the size of a region depends on: by which label it is called, which regions it calls, once
for each call, and how many operations are its own. -/
structure RegionCalls where
  entry : Option Label
  callees : List Nat
  operations : Nat
deriving DecidableEq, Inhabited, Repr

/-- The calls in all regions. -/
abbrev CallGraph := Array RegionCalls

/-- What is known about the sizes of regions: those that are in progress have none yet. -/
abbrev KnownSizes := Std.HashMap Nat (Option ExpandedSize)

/-- Finds sizes by way of what is known about them. -/
abbrev Sizes := StateT KnownSizes (Except SubroutineError)

/-- Finds the sizes of called regions one after the other, and adds them up. -/
def ExpandedSize.addCalls (find : Nat → Sizes ExpandedSize) (callees : List Nat)
    (size : ExpandedSize) : Sizes ExpandedSize :=
  callees.foldlM (fun size callee => return (← find callee).addCall size) size

namespace CallGraph

/-- The calls in a region. -/
def region (graph : CallGraph) (number : Nat) : RegionCalls := graph.getD number default

/-- Works out the size of a region, when those of the regions that it calls can be found. -/
def visit (graph : CallGraph) (find : Nat → Sizes ExpandedSize) (number : Nat) :
    Sizes ExpandedSize := do
  let region := graph.region number
  modify (·.insert number none)
  let size ← ExpandedSize.addCalls find region.callees ⟨0, region.operations⟩
  modify (·.insert number (some size))
  return size

/-- The size of a region. A chain of different regions is not longer than there are regions, so
that many rounds are enough. -/
def expandedSize (graph : CallGraph) : (rounds : Nat) → Nat → Sizes ExpandedSize
  | 0, _ => return ⟨0, 0⟩
  | rounds + 1, number => do
    match (← get)[number]?, (graph.region number).entry with
    | some (some size), _ => return size
    | some none, some entry => throw (.recursive entry)
    | _, _ => graph.visit (graph.expandedSize rounds) number

end CallGraph

namespace Regions

/-- The nodes that a copy of a region consists of: its own, and the labels of regions inside. -/
def contents (regions : Regions) (number : Nat) : List Node :=
  let region := regions.region number
  let nodes := regions.flow.nodes.extract region.start region.stop
  let owners := regions.owners.extract region.start region.stop
  (nodes.toList.zip owners.toList).filterMap fun (node, owner) =>
    if owner = number || node.label?.isSome then some node else none

/-- The region of a subroutine by the label at which it is called. -/
def callee (regions : Regions) (target : Label) : Nat :=
  regions.owner (regions.flow.positions.getD target 0)

/-- The regions that a region calls, once for each call. -/
def callees (regions : Regions) (number : Nat) : List Nat :=
  (regions.contents number).filterMap fun node =>
    match node with
    | .operation (.branch (.jsr target)) => some (regions.callee target)
    | _ => none

/-- The calls in the regions of a body. -/
def callGraph (regions : Regions) : CallGraph :=
  .ofFn fun number : Fin regions.regions.size =>
    { entry := (regions.region number).entry
      callees := regions.callees number
      operations := (regions.contents number).countP Node.isOperation }

/-- The size of the whole body. -/
def totalSize (regions : Regions) : Except SubroutineError ExpandedSize :=
  (regions.callGraph.expandedSize (regions.callGraph.size + 1) outer).run' ∅

end Regions

/-! ### Copies -/

/-- The labels of copies that are inside each other, the innermost one first. -/
abbrev Renaming := List (Std.HashMap Label Label)

/-- The label that stands for a label: a fresh one of the innermost copy that has it, and otherwise
the label itself. -/
def Renaming.apply (names : Renaming) (label : Label) : Label :=
  (names.findSome? fun labels => labels[label]?).getD label

/-- A body under construction, with the numbers of labels that were handed out and of copies that
were made. -/
structure Inlining where
  nodes : Array Node
  handlers : Array Handler
  localVariables : Array VariableRange
  variableTypes : Array VariableRange
  issued : Nat
  copies : Nat
deriving Inhabited

namespace Inlining

/-- Adds a node at the end. -/
def push (node : Node) (inlining : Inlining) : Inlining :=
  { inlining with nodes := inlining.nodes.push node }

/-- Hands out a label. -/
def fresh (inlining : Inlining) : Label × Inlining :=
  (⟨inlining.issued⟩, { inlining with issued := inlining.issued + 1 })

/-- Hands out labels for some labels. -/
def freshFor (labels : List Label) (inlining : Inlining) : Std.HashMap Label Label × Inlining :=
  (.ofList (labels.zipIdx.map fun (label, index) => (label, ⟨inlining.issued + index⟩)),
    { inlining with issued := inlining.issued + labels.length })

end Inlining

/-- A way to copy a subroutine: by its number, the labels around it, and the place behind the call,
if there is a call. -/
abbrev EmitSubroutine :=
  Nat → Renaming → Option Label → Inlining → Except SubroutineError Inlining

namespace Regions

/-- The labels inside a region. -/
def labels (regions : Regions) (number : Nat) : List Label :=
  (regions.contents number).filterMap Node.label?

/-- Replaces a call by a copy. -/
def emitCall (regions : Regions) (emit : EmitSubroutine) (names : Renaming) (target : Label)
    (inlining : Inlining) : Except SubroutineError Inlining := do
  let callee ← regions.ownerOf target
  let (labels, inlining) := inlining.freshFor (regions.labels callee)
  let (behind, inlining) := inlining.fresh
  let inlining := { inlining with copies := inlining.copies + 1 }
  let inlining := inlining.push (.operation (.step .nullConst))
  return (← emit callee (labels :: names) (some behind) inlining).push (.label behind)

/-- Copies a node. Returns lead to `continuation`. -/
def emitNode (regions : Regions) (emit : EmitSubroutine) (names : Renaming)
    (continuation : Option Label) (inlining : Inlining) : Node → Except SubroutineError Inlining
  | .label label => return inlining.push (.label (names.apply label))
  | .operation (.branch (.jsr target)) => regions.emitCall emit names target inlining
  | .operation (.branch (.ret _)) =>
    match continuation with
    | some behind => return inlining.push (.operation (.branch (.goto behind)))
    | none => throw (.returnOutside (inlining.nodes.toList.countP Node.isOperation))
  | .operation (.branch b) => return inlining.push (.operation (.branch (b.map names.apply)))
  | node => return inlining.push node

/-- The labels at which the handlers and ranges of a region end. -/
def stops (regions : Regions) (number : Nat) : List Label :=
  let region := regions.region number
  (region.handlers.map Handler.stop ++ region.localVariables.map VariableRange.stop ++
    region.variableTypes.map VariableRange.stop).toList

/-- Where the ranges of a copy end. What ends behind its subroutine ends right behind the copy; if
there is such a range, a label is placed there. -/
def copyStops (regions : Regions) (number : Nat) (names : Renaming) (inlining : Inlining) :
    (Label → Label) × Inlining :=
  match names with
  | [] => (id, inlining)
  | own :: _ =>
    if (regions.stops number).all own.contains then (names.apply, inlining)
    else
      let (behind, inlining) := inlining.fresh
      (fun label => own.getD label behind, inlining.push (.label behind))

/-- Copies the handlers and ranges of a region. -/
def copyRanges (regions : Regions) (number : Nat) (names : Renaming) (inlining : Inlining) :
    Inlining :=
  let region := regions.region number
  let (stopOf, inlining) := regions.copyStops number names inlining
  let copyRange := fun range : VariableRange =>
    { range with start := names.apply range.start, stop := stopOf range.stop }
  { inlining with
    handlers := inlining.handlers ++ region.handlers.map fun handler =>
      { handler with
        start := names.apply handler.start
        stop := stopOf handler.stop
        handler := names.apply handler.handler }
    localVariables := inlining.localVariables ++ region.localVariables.map copyRange
    variableTypes := inlining.variableTypes ++ region.variableTypes.map copyRange }

/-- Copies a region, whose calls are replaced by `emit`. -/
def emitRegion (regions : Regions) (emit : EmitSubroutine) : EmitSubroutine :=
  fun number names continuation inlining => do
    let contents ←
      (regions.contents number).foldlM (regions.emitNode emit names continuation) inlining
    return regions.copyRanges number names contents

/-- Copies a region in which chains of calls are not longer than `depth`. -/
def emitToDepth (regions : Regions) : (depth : Nat) → EmitSubroutine
  | 0 => regions.emitRegion fun number _ _ _ =>
    throw (.recursive ((regions.region number).entry.getD default))
  | depth + 1 => regions.emitRegion (regions.emitToDepth depth)

/-- Copies the outer region, from which there is nowhere to return to. -/
def emitBody (regions : Regions) (depth issued : Nat) : Except SubroutineError Inlining :=
  regions.emitToDepth depth outer [] none
    { nodes := #[], handlers := #[], localVariables := #[], variableTypes := #[],
      issued, copies := 0 }

end Regions

/-- Puts a copy of a subroutine in the place of each call. Answers with the number of copies. -/
def Body.inline (limits : InliningLimits) (body : Body) : Except SubroutineError (Nat × Body) := do
  if !body.hasSubroutines then return (0, body)
  let regions ← body.regions
  let size ← regions.totalSize
  if limits.maxDepth < size.depth ∨ limits.maxOperations < size.operations then
    throw (.limitExceeded size.depth size.operations)
  let inlining ← regions.emitBody size.depth body.issued
  return (inlining.copies, { body with
    nodes := inlining.nodes.toList
    handlers := inlining.handlers.toList
    localVariables := inlining.localVariables.toList
    variableTypes := inlining.variableTypes.toList
    issued := inlining.issued })

end Preverification

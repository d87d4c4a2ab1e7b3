import Preverification.Body.Flow

/-!
# Subroutines

A subroutine of a body is a run of nodes: it starts at a label that is called, and ends with the
next return that does not end another subroutine inside the run. `Body.regions` cuts a body into
regions, one for each subroutine and an outer one for all else. It checks that subroutines are
entered by calls alone, and gives each handler and each range of a variable to the region whose code
it covers.
-/

namespace Preverification

/-- Why the subroutines of a body cannot be inlined: the body is not well formed, code ends inside
of a subroutine, a subroutine calls itself, perhaps by way of others, a return ends no subroutine,
control comes to a place of a subroutine without a call, a handler is not in the region of its
range, or inlining would go too deep or give too many operations. -/
inductive SubroutineError where
  | structural (error : StructuralError)
  | noReturn (entry : Label)
  | recursive (entry : Label)
  | returnOutside (number : Nat)
  | enteredFromOutside (place : Label)
  | handlerCrossesRegion (handler : Label)
  | limitExceeded (depth operations : Nat)
deriving DecidableEq, Repr

/-- The text of an error. -/
def SubroutineError.message : SubroutineError → String
  | structural error => error.message
  | noReturn entry => "subroutine at " ++ entry.text ++ " has no ret"
  | recursive entry => "subroutine at " ++ entry.text ++ " is recursive"
  | returnOutside number =>
    "ret outside of a subroutine at instruction " ++ toString number
  | enteredFromOutside place => "subroutine code at " ++ place.text ++ " entered without jsr"
  | handlerCrossesRegion handler =>
    "exception handler at " ++ handler.text ++ " is not in the same subroutine as its range"
  | limitExceeded depth operations =>
    "inlining limit exceeded (depth " ++ toString depth ++ ", " ++ toString operations ++
      " instructions)"

/-- A part of a body: a subroutine with the label by which it is called, or all that is outside of
subroutines. It goes from the position of its first node to the one behind its last node, and the
nodes in between may belong to regions inside of it. Handlers and ranges of variables belong to the
region that they cover. -/
structure Region where
  entry : Option Label
  start : Nat
  stop : Nat
  handlers : Array Handler := #[]
  localVariables : Array VariableRange := #[]
  variableTypes : Array VariableRange := #[]
deriving Inhabited

/-- Notes the range of a variable in a region. -/
def Region.noteVariable (range : VariableRange) (region : Region) : Region :=
  { region with localVariables := region.localVariables.push range }

/-- Notes the range of a generic variable in a region. -/
def Region.noteVariableType (range : VariableRange) (region : Region) : Region :=
  { region with variableTypes := region.variableTypes.push range }

/-- The regions of a body in the order of their starts, of which the outer one is the first, and for
each node the number of its region. -/
structure Regions where
  flow : Flow
  regions : Array Region
  owners : Array Nat

/-- The number of the outer region. -/
def Regions.outer : Nat := 0

/-! ### Finding the regions -/

/-- The regions that were found in the nodes that were passed, and to which of them these nodes
belong. The subroutines that have started and not ended are running, the innermost one first. -/
structure RegionScan where
  regions : Array Region
  owners : Array Nat
  running : List (Nat × Label)

namespace RegionScan

/-- The region of the next node, if no subroutine starts there. -/
def current (scan : RegionScan) : Nat :=
  match scan.running with
  | [] => Regions.outer
  | (region, _) :: _ => region

/-- Starts a subroutine at the next node. -/
def enter (entry : Label) (scan : RegionScan) : RegionScan :=
  { scan with
    regions := scan.regions.push
      { entry := some entry, start := scan.owners.size, stop := scan.owners.size }
    running := (scan.regions.size, entry) :: scan.running }

/-- Ends the innermost subroutine behind the node that was passed last. -/
def leave (scan : RegionScan) : RegionScan :=
  match scan.running with
  | [] => scan
  | (region, _) :: rest =>
    { scan with
      regions := scan.regions.modify region fun found => { found with stop := scan.owners.size }
      running := rest }

/-- Passes a node that starts and ends no subroutine. -/
def pass (scan : RegionScan) : RegionScan :=
  { scan with owners := scan.owners.push scan.current }

/-- Passes a node, when the labels that are called are known. -/
def add (called : Std.HashSet Label) (scan : RegionScan) : Node → RegionScan
  | .label label => if called.contains label then (scan.enter label).pass else scan.pass
  | .operation (.branch (.ret _)) => scan.pass.leave
  | .line _ | .operation _ => scan.pass

end RegionScan

/-- The labels of the subroutines that are called, in the order of the calls. -/
def Body.calledLabels (body : Body) : List Label :=
  body.nodes.filterMap fun node =>
    match node with
    | .operation (.branch (.jsr target)) => some target
    | _ => none

namespace Regions

/-- Cuts a body into regions, to which no handlers belong yet. -/
def ofNodes (body : Body) : Except SubroutineError Regions := do
  let flow ← body.flow.mapError .structural
  let called := body.calledLabels
  called.forM fun label => discard ((flow.position label).mapError .structural)
  let outerRegion := { entry := none, start := 0, stop := body.nodes.length }
  let scan := body.nodes.foldl (RegionScan.add (.ofList called)) ⟨#[outerRegion], #[], []⟩
  match scan.running with
  | [] => return ⟨flow, scan.regions, scan.owners⟩
  | (_, entry) :: _ => throw (.noReturn entry)

/-- A region by its number. -/
def region (regions : Regions) (number : Nat) : Region := regions.regions.getD number default

/-- The number of the region of a node. -/
def owner (regions : Regions) (position : Nat) : Nat := regions.owners.getD position outer

/-- The number of the region in which a label is placed. -/
def ownerOf (regions : Regions) (label : Label) : Except SubroutineError Nat :=
  return regions.owner (← (regions.flow.position label).mapError .structural)

/-! ### Entering subroutines -/

/-- Whether control may go from a region to a node of another one without a call. -/
def mayEnter (source target : Nat) : Bool := target = source || target = outer

/-- Checks that a branch does not lead into a subroutine. -/
def checkJump (regions : Regions) (source : Nat) (target : Label) :
    Except SubroutineError Unit := do
  if !mayEnter source (← regions.ownerOf target) then throw (.enteredFromOutside target)

/-- Checks that the operation behind a node is not in a subroutine that control would enter. -/
def checkFallThrough (regions : Regions) (source position : Nat) : Except SubroutineError Unit :=
  match regions.flow.operationFrom (position + 1) with
  | none => return ()
  | some next =>
    let target := regions.owner next
    match (regions.region target).entry with
    | some entry => if mayEnter source target then return () else throw (.enteredFromOutside entry)
    | none => return ()

/-- Checks that an operation enters a subroutine only by calling it, and that it does not return
where there is nothing to return from. -/
def checkOperation (regions : Regions) (position : Nat) (operation : Operation Label) :
    Except SubroutineError Unit := do
  let source := regions.owner position
  match operation with
  | .branch (.jsr _) => return ()
  | .branch (.ret _) =>
    if source = outer then throw (.returnOutside (regions.flow.number position))
  | _ =>
    operation.targets.forM (regions.checkJump source)
    if operation.fallsThrough then regions.checkFallThrough source position

/-- Checks that all operations enter subroutines only by calling them. -/
def checkEntries (regions : Regions) (nodes : List Node) : Except SubroutineError Unit :=
  nodes.zipIdx.forM fun (node, position) =>
    match node with
    | .operation operation => regions.checkOperation position operation
    | .label _ | .line _ => return ()

/-! ### Handlers and ranges of variables -/

/-- Whether a node of a range belongs to a region, or to one that is in the range as a whole. -/
def isCovered (regions : Regions) (home start stop position : Nat) : Bool :=
  let found := regions.owner position
  let isOperation := (regions.flow.nodes[position]?.map Node.isOperation).getD false
  found = home || !isOperation ||
    (start ≤ (regions.region found).start && (regions.region found).stop ≤ stop)

/-- The region of which a range covers a part, if the range crosses no border of a region. -/
def ofRange (regions : Regions) (start stop : Label) : Except SubroutineError (Option Nat) := do
  let start ← (regions.flow.position start).mapError .structural
  let stop ← (regions.flow.position stop).mapError .structural
  let home := regions.owner start
  if (regions.region home).stop < stop then return none
  else if (List.range' start (stop - start)).all (regions.isCovered home start stop) then
    return some home
  else return none

/-- Changes a region. -/
def update (regions : Regions) (number : Nat) (f : Region → Region) : Regions :=
  { regions with regions := regions.regions.modify number f }

/-- Gives a handler to the region of its range, to which its code has to belong. -/
def addHandler (regions : Regions) (handler : Handler) : Except SubroutineError Regions := do
  match ← regions.ofRange handler.start handler.stop with
  | none => throw (.handlerCrossesRegion handler.handler)
  | some home =>
    if (← regions.ownerOf handler.handler) = home then
      return regions.update home fun found => { found with handlers := found.handlers.push handler }
    else throw (.handlerCrossesRegion handler.handler)

/-- Gives the range of a variable to the region that it covers, which notes it in one of its lists.
One that crosses a border is lost. -/
def addRange (note : VariableRange → Region → Region) (regions : Regions) (range : VariableRange) :
    Except SubroutineError Regions := do
  match ← regions.ofRange range.start range.stop with
  | none => return regions
  | some home => return regions.update home (note range)

end Regions

/-- Cuts a body into regions. -/
def Body.regions (body : Body) : Except SubroutineError Regions := do
  let regions ← Regions.ofNodes body
  regions.checkEntries body.nodes
  let regions ← body.handlers.foldlM Regions.addHandler regions
  let regions ← body.localVariables.foldlM (Regions.addRange Region.noteVariable) regions
  body.variableTypes.foldlM (Regions.addRange Region.noteVariableType) regions

end Preverification

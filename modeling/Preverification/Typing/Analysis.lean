import Preverification.Body.Flow
import Preverification.Typing.Merge
import Preverification.Typing.Transfer

/-!
# Type inference

`Body.analyze` finds out what is known in front of each operation that can be reached. What is known
in front of an operation flows to the operations that may come next, and to the handlers around it,
where it is merged with what came there before. Operations whose state has changed are pending; the
first of them is visited next, until none is pending.
-/

namespace Preverification

open MonadExcept (ofExcept)

/-- Why type inference fails: an operation, which is named by its number, cannot run on what is
known or cannot be reached with it, a class has no place in the hierarchy, the body is not well
formed, or what is known goes on changing. -/
inductive AnalysisError where
  | type (number : Nat) (error : TypeError)
  | resolve (error : ResolveError)
  | structural (error : StructuralError)
  | divergent
deriving DecidableEq, Repr

/-- The text of an error. -/
def AnalysisError.message : AnalysisError → String
  | type number error => "at instruction " ++ toString number ++ ": " ++ error.message
  | resolve error => error.message
  | structural error => error.message
  | divergent => "type inference does not converge"

/-- What type inference has found out: what is known in front of each node, where only operations
that can be reached have a state, and the highest numbers of slots of stacks and of local variables.
-/
structure Analysis where
  states : Array (Option TypeState)
  maxStack : Nat
  maxLocals : Nat
deriving Inhabited

namespace Analysis

/-- What is known in front of a node. -/
def state? (analysis : Analysis) (position : Nat) : Option TypeState :=
  analysis.states[position]?.join

/-- Whether a node is an operation that can be reached. -/
def isLive (analysis : Analysis) (position : Nat) : Bool := (analysis.state? position).isSome

/-- Takes a state into account for the numbers of slots. -/
def observe (state : TypeState) (analysis : Analysis) : Analysis :=
  { analysis with
    maxStack := max analysis.maxStack state.stack.height
    maxLocals := max analysis.maxLocals state.usedLocals }

end Analysis

/-- A handler by positions: the range, which ends in front of `stop`, the first operation of the
handler, and what is on the stack there. -/
structure PlacedHandler where
  start : Nat
  stop : Nat
  target : Nat
  caught : InferredType

/-- A type inference under way. The operations that are to be visited are pending, in ascending
order. -/
structure Inference where
  analysis : Analysis
  pending : List Nat
  resolver : Resolver

namespace Inference

/-- Adds a number to an ascending list, unless it is there. -/
def insertAscending (number : Nat) : List Nat → List Nat
  | [] => [number]
  | first :: rest =>
    if number < first then number :: first :: rest
    else if number = first then first :: rest
    else first :: insertAscending number rest

/-- Notes what is known in front of an operation, which has to be visited. -/
def note (position : Nat) (state : TypeState) (inference : Inference) : Inference :=
  { inference with
    analysis := { inference.analysis with
      states := inference.analysis.states.set! position (some state) }
    pending := insertAscending position inference.pending }

/-- A step of a type inference. -/
abbrev Step := EStateM AnalysisError Inference

/-- Merges what is known on one more way to an operation with what was known there. -/
def mergeInto (flow : Flow) (position : Nat) (incoming : TypeState) : Step Unit :=
  fun inference =>
    match inference.analysis.state? position with
    | none => .ok () (inference.note position incoming)
    | some current =>
      match Merge.states current incoming inference.resolver with
      | .ok merged resolver =>
        let inference := { inference with resolver }
        .ok () (if merged = current then inference else inference.note position merged)
      | .error (.type error) resolver =>
        .error (.type (flow.number position) error) { inference with resolver }
      | .error (.resolve error) resolver => .error (.resolve error) { inference with resolver }

end Inference

/-- A body to be analysed. -/
structure AnalysisProblem where
  flow : Flow
  handlers : List PlacedHandler
  context : MethodContext

namespace AnalysisProblem

/-- The failure of an operation. -/
def failure (problem : AnalysisProblem) (position : Nat) (error : TypeError) : AnalysisError :=
  .type (problem.flow.number position) error

/-- The label in front of an operation, by which an allocation is known. -/
def allocation? (problem : AnalysisProblem) (position : Nat) : Option Label :=
  if position = 0 then none else problem.flow.nodes[position - 1]?.bind Node.label?

/-- What is known behind an operation. -/
def execute (problem : AnalysisProblem) (position : Nat) (operation : Operation Label)
    (state : TypeState) : Except AnalysisError TypeState :=
  match Transfer.operation problem.context (problem.allocation? position) operation state with
  | .ok () state => .ok state
  | .error error _ => .error (problem.failure position error)

/-- The operation at which a branch arrives. -/
def jumpTarget (problem : AnalysisProblem) (position : Nat) (label : Label) :
    Except AnalysisError Nat :=
  match problem.flow.operationAt label with
  | .ok (some target) => .ok target
  | .ok none => .error (problem.failure position .fallsOffEnd)
  | .error error => .error (.structural error)

/-- The operation behind an operation. -/
def fallThrough (problem : AnalysisProblem) (position : Nat) : Except AnalysisError Nat :=
  match problem.flow.operationFrom (position + 1) with
  | some target => .ok target
  | none => .error (problem.failure position .fallsOffEnd)

/-- The operations that may come next: the targets of a branch first. -/
def successors (problem : AnalysisProblem) (position : Nat) (operation : Operation Label) :
    Except AnalysisError (List Nat) := do
  let targets ← operation.targets.mapM (problem.jumpTarget position)
  if operation.fallsThrough then return targets ++ [← problem.fallThrough position]
  else return targets

/-- The handlers around an operation. -/
def handlersAt (problem : AnalysisProblem) (position : Nat) : List PlacedHandler :=
  problem.handlers.filter fun handler => handler.start ≤ position && position < handler.stop

/-- Visits an operation: what is known flows to the handlers around it, as it is in front of the
operation and behind it, and to the operations that may come next. -/
def visit (problem : AnalysisProblem) (position : Nat) : Inference.Step Unit := do
  match (← get).analysis.state? position, problem.flow.nodes[position]? with
  | some before, some (.operation operation) =>
    modify fun inference => { inference with analysis := inference.analysis.observe before }
    let after ← ofExcept (problem.execute position operation before)
    let successors ← ofExcept (problem.successors position operation)
    modify fun inference => { inference with analysis := inference.analysis.observe after }
    (problem.handlersAt position).forM fun handler => do
      Inference.mergeInto problem.flow handler.target (before.handlerEntry handler.caught)
      Inference.mergeInto problem.flow handler.target (after.handlerEntry handler.caught)
    successors.forM fun successor => Inference.mergeInto problem.flow successor after
  | _, _ => return ()

/-- Visits pending operations until none is left, if a number of visits is enough for that. -/
def solve (problem : AnalysisProblem) : (visits : Nat) → Inference.Step Unit
  | 0 => do if !(← get).pending.isEmpty then throw .divergent
  | visits + 1 => do
    match (← get).pending with
    | [] => return ()
    | position :: rest =>
      modify fun inference => { inference with pending := rest }
      problem.visit position
      solve problem visits

/-- Finds the positions of a handler. -/
def placeHandler (flow : Flow) (pool : Pool) (handler : Handler) :
    Except AnalysisError PlacedHandler := do
  let start ← (flow.position handler.start).mapError .structural
  let stop ← (flow.position handler.stop).mapError .structural
  let target ← match flow.operationAt handler.handler with
    | .ok (some target) => pure target
    | .ok none => throw (.type (flow.number flow.nodes.size) .fallsOffEnd)
    | .error error => throw (.structural error)
  let caught ← match handler.caught with
    | some index => (pool.classType index).mapError .structural
    | none => pure (.object .throwable)
  return ⟨start, stop, target, .object caught⟩

/-- The problem that a body poses. -/
def ofBody (body : Body) (context : MethodContext) : Except AnalysisError AnalysisProblem := do
  let flow ← body.flow.mapError .structural
  return ⟨flow, ← body.handlers.mapM (placeHandler flow context.constants), context⟩

end AnalysisProblem

/-! ### How many visits are enough

An operation is visited again only when its state has changed, and a state changes only upwards: a
local becomes unusable or is added, null becomes an object, a class becomes one of its superclasses,
and an array becomes one of fewer dimensions or of a higher class, or a class. -/

/-- The highest number of dimensions among some types. -/
def InferredType.dimensions : InferredType → Nat
  | .object type => type.dimensions
  | _ => 0

/-- The highest number of bytes of a text. No type in a pool has more dimensions. -/
def Pool.longestText (pool : Pool) : Nat :=
  pool.constants.entries.foldl (fun longest (_, constant) =>
    match constant with
    | .utf8 text => max longest text.utf8ByteSize
    | _ => longest) 0

namespace Body

/-- The highest number of dimensions of a type that can come up. -/
def dimensionBound (entry : TypeState) (pool : Pool) : Nat :=
  (entry.locals ++ entry.stack.values).foldl (fun most type => max most type.dimensions) 0 +
    pool.longestText + 1

/-- A number of changes of one slot that is not exceeded. -/
def climbBound (entry : TypeState) (pool : Pool) (resolver : Resolver) : Nat :=
  (dimensionBound entry pool + 2) * (resolver.classBound + 4)

/-- The highest number of locals and values on a stack that can come up. -/
def slotBound (body : Body) (entry : TypeState) : Nat :=
  entry.locals.length + 65537 + entry.stack.size + 2 * body.nodes.length

/-- A number of visits that is enough. -/
def visitBound (body : Body) (entry : TypeState) (pool : Pool) (resolver : Resolver) : Nat :=
  body.nodes.length * (1 + body.slotBound entry * (climbBound entry pool resolver + 2))

/-- Infers the type state in front of each operation that can be reached, when `entry` is known
where the body is entered. Every allocation has to be right behind a label. -/
def analyze (body : Body) (entry : TypeState) (context : MethodContext) :
    EStateM AnalysisError Resolver Analysis := fun resolver =>
  match AnalysisProblem.ofBody body context with
  | .error error => .error error resolver
  | .ok problem =>
    match problem.flow.operationFrom 0 with
    | none => .error (problem.failure 0 .fallsOffEnd) resolver
    | some first =>
      let visits := body.visitBound entry context.constants resolver
      let unknown : Analysis := ⟨Array.replicate body.nodes.length none, 0, 0⟩
      let start := Inference.note first entry ⟨unknown, [], resolver⟩
      match problem.solve visits start with
      | .ok () inference => .ok inference.analysis inference.resolver
      | .error error inference => .error error inference.resolver

end Body

end Preverification

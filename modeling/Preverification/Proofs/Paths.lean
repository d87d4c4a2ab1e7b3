import Preverification.Proofs.ControlFlow
import Preverification.Typing.Transfer

/-!
# Paths of typed control flow

Where control may go from an operation, read off the body: to the operations at which its jumps
arrive, to the next operation, and to the handlers around it. A path goes from operation to
operation, and the effects of the operations on types add up along it. A handler is entered from in
front of an operation or from behind it.

* `Body.Leads`: where control may go from an operation, and in which way.
* `Body.Path`: a path goes from operation to operation.
* `Body.typesAcross`, `Body.typesAlong`: the effects of the operations add up along it.
-/

namespace Preverification

/-- The type of what is on the stack where a handler is entered. -/
def Handler.Catches (pool : Pool) (handler : Handler) (type : InferredType) : Prop :=
  match handler.caught with
  | some index => ∃ class', pool.classType index = .ok class' ∧ type = .object class'
  | none => type = .object (.object .throwable)

/-- A position is in the range of a handler, whose code starts at a target. -/
structure Handler.Guards (handler : Handler) (nodes : List Node) (position target : Nat) :
    Prop where
  range : ∃ start stop, nodes[start]? = some (.label handler.start) ∧
    nodes[stop]? = some (.label handler.stop) ∧ start ≤ position ∧ position < stop
  code : ∃ place, nodes[place]? = some (.label handler.handler) ∧ Arrives nodes place target

/-- A way on from an operation. -/
inductive Way where
  -- to an operation that may come next
  | next
  -- to a handler, with what is known in front of the operation
  | caughtBefore (type : InferredType)
  -- to a handler, with what is known behind the operation
  | caughtBehind (type : InferredType)

namespace Body

/-- An operation may come next behind another one. -/
inductive Successor (nodes : List Node) (position target : Nat) : Prop where
  | jump {operation : Operation Label} {label : Label} {place : Nat} :
      nodes[position]? = some (.operation operation) → label ∈ operation.targets →
      nodes[place]? = some (.label label) → Arrives nodes place target →
      Successor nodes position target
  | fallThrough {operation : Operation Label} :
      nodes[position]? = some (.operation operation) → operation.fallsThrough →
      Arrives nodes (position + 1) target → Successor nodes position target

/-- A way leads from an operation to another one. -/
inductive Leads (body : Body) (pool : Pool) (position : Nat) : Way → Nat → Prop where
  | next {target : Nat} :
      Successor body.nodes position target → Leads body pool position .next target
  | caughtBefore {handler : Handler} {type : InferredType} {target : Nat} :
      handler ∈ body.handlers → handler.Guards body.nodes position target →
      handler.Catches pool type → Leads body pool position (.caughtBefore type) target
  | caughtBehind {handler : Handler} {type : InferredType} {target : Nat} :
      handler ∈ body.handlers → handler.Guards body.nodes position target →
      handler.Catches pool type → Leads body pool position (.caughtBehind type) target

/-- Ways lead one after the other from an operation to another one. Each step has the position of
the operation that is left, and the way. -/
inductive Path (body : Body) (pool : Pool) : Nat → List (Nat × Way) → Nat → Prop where
  | here (position : Nat) : Path body pool position [] position
  | step {start middle stop : Nat} {steps : List (Nat × Way)} {way : Way} :
      Path body pool start steps middle → Leads body pool middle way stop →
      Path body pool start (steps ++ [(middle, way)]) stop

/-- The label right in front of a position. -/
def labelBefore (nodes : List Node) (position : Nat) : Option Label :=
  if position = 0 then none else nodes[position - 1]?.bind Node.label?

/-- What is known behind the operation at a position, if it can run. -/
def typesBehind (context : MethodContext) (nodes : List Node) (position : Nat)
    (state : TypeState) : Except TypeError TypeState :=
  match nodes[position]? with
  | some (.operation operation) =>
    match Transfer.operation context (labelBefore nodes position) operation state with
    | .ok () after => .ok after
    | .error error _ => .error error
  | _ => .ok state

/-- An operation leaves what is known behind it. Where there is none, nothing changes. -/
theorem typesBehind_ok {context : MethodContext} {nodes : List Node} {position : Nat}
    {state after : TypeState} : typesBehind context nodes position state = .ok after ↔
      (∃ operation, nodes[position]? = some (.operation operation) ∧
        Transfer.operation context (labelBefore nodes position) operation state = .ok () after) ∨
      (∀ operation, nodes[position]? ≠ some (.operation operation)) ∧ state = after := by
  unfold typesBehind
  rcases hnode : nodes[position]? with _ | _ | _ | operation
  case some.operation =>
    cases hrun : Transfer.operation context (labelBefore nodes position) operation state <;>
      simp [hrun]
  all_goals simp

/-- What is known at the end of a way, when something is known in front of the operation. -/
def typesAcross (context : MethodContext) (nodes : List Node) (position : Nat) (way : Way)
    (state : TypeState) : Except TypeError TypeState :=
  match way with
  | .next => typesBehind context nodes position state
  | .caughtBefore type => .ok (state.handlerEntry type)
  | .caughtBehind type => do return (← typesBehind context nodes position state).handlerEntry type

/-- What is known at the end of some steps, if all the operations can run. -/
def typesAlong (context : MethodContext) (nodes : List Node) (steps : List (Nat × Way))
    (state : TypeState) : Except TypeError TypeState :=
  steps.foldlM (fun state (position, way) => typesAcross context nodes position way state) state

end Body

end Preverification

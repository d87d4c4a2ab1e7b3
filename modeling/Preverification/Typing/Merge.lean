import Preverification.Hierarchy.Resolver
import Preverification.Typing.Error
import Preverification.Typing.State

/-!
# Merging type states

What is known where two ways meet is what is known on both. Locals that have nothing in common
cannot be used; the stacks have to hold as many values, which have to have something in common.
-/

namespace Preverification

/-- Why two type states do not merge. -/
inductive MergeError where
  | type (error : TypeError)
  | resolve (error : ResolveError)
deriving DecidableEq, Repr

/-- A merge, which may have to look up classes. -/
abbrev Merge := EStateM MergeError Resolver

namespace Merge

/-- Asks about classes. -/
def query {α : Type} (question : Resolver.Query α) : Merge α := fun resolver =>
  match question resolver with
  | .ok answer resolver => .ok answer resolver
  | .error error resolver => .error (.resolve error) resolver

/-- What two types have in common, if it is of use. -/
def types (first second : InferredType) : Merge (Option InferredType) :=
  if first = second then return some first
  else match first, second with
    | .null, .object type | .object type, .null => return some (.object type)
    | .object type, .object other =>
      return some (.object (← query (Resolver.commonRefType type other)))
    | _, _ => return none

/-- What two values on a stack have in common. -/
def stackTypes (first second : InferredType) : Merge InferredType := do
  match ← types first second with
  | some type => return type
  | none => throw (.type (.incompatibleTypes first second))

/-- What two stacks have in common, the bottom values first. -/
def operandStacks (first second : OperandStack) : Merge OperandStack := do
  if first.size ≠ second.size then
    throw (.type (.incompatibleHeights first.size second.size))
  let values ← (first.toList.zip second.toList).mapM fun (type, other) => stackTypes type other
  return .ofList values

/-- Makes values of two slots unusable whose second slot was lost. -/
def keepPaired (locals : List InferredType) : List InferredType :=
  List.zipWith (fun type next =>
    if width type = 2 ∧ next ≠ some .top then .top else type)
    locals (locals.tail.map some ++ [none])

/-- What two lists of locals have in common. A local that one of them lacks cannot be used. -/
def locals (first second : List InferredType) : Merge (List InferredType) := do
  let common ← (first.zip second).mapM fun (type, other) => return (← types type other).getD .top
  let missing := max first.length second.length - common.length
  return keepPaired (common ++ List.replicate missing .top)

/-- What two type states have in common. -/
def states (first second : TypeState) : Merge TypeState := do
  let stack ← operandStacks first.stack second.stack
  return ⟨← locals first.locals second.locals, stack⟩

end Merge

end Preverification

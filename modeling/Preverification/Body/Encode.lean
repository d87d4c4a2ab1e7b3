import Preverification.Attribute.Code
import Preverification.Attribute.Debug
import Preverification.Body.Layout

/-!
# Encoding method bodies

`Body.encode` writes a body at the offsets of a layout. Handlers and ranges of variables that are
empty there are left out, and so are lines behind the last operation. The names of the debug tables
are added to the constant pool.
-/

namespace Preverification

namespace Branch

/-- Replaces the places that a branch names, in the order of its operands, unless one of them has
no replacement. -/
def resolve {L M ε : Type} (f : L → Except ε M) : Branch L → Except ε (Branch M)
  | ifInt test target => ifInt test <$> f target
  | ifInts test target => ifInts test <$> f target
  | ifRefs test target => ifRefs test <$> f target
  | ifNull test target => ifNull test <$> f target
  | goto target => goto <$> f target
  | jsr target => jsr <$> f target
  | ret slot => pure (ret slot)
  | tableSwitch low default targets => do
    let default ← f default
    return tableSwitch low default (← targets.mapM f)
  | lookupSwitch default cases => do
    let default ← f default
    return lookupSwitch default (← cases.mapM fun (key, target) => return (key, ← f target))
  | returnValue kind => pure (returnValue kind)
  | returnVoid => pure returnVoid
  | throwException => pure throwException

end Branch

namespace Layout

/-- The bytes of a node. The distances of a branch must fit into them. -/
def nodeBytes (layout : Layout) (node : Node) (offset : Nat) (long : Bool) :
    Except StructuralError Bytes :=
  match node with
  | .label _ | .line _ => return []
  | .operation (.step instruction) => return instruction.write
  | .operation (.branch branch) => do
    let distance := fun label => return (← layout.labelOffset label : Int) - offset
    let resolved ← branch.resolve distance
    if resolved.hasRoom long then return resolved.write long offset
    else throw (.codeTooLong offset)

/-- The bytes of all nodes. -/
def bytecode (layout : Layout) : Except StructuralError Bytes :=
  return (← layout.nodes.mapM fun (node, offset, long) =>
    layout.nodeBytes node offset long).flatten

/-- The lines, each at the offset of the operation that follows. -/
def lineEntries (layout : Layout) : List LineEntry :=
  layout.nodes.filterMap fun (node, offset, _) =>
    match node with
    | .line number =>
      if offset < layout.codeLength then some ⟨UInt16.ofNat offset, number⟩ else none
    | .label _ | .operation _ => none

/-- The exception table entry of a handler, unless its range is empty. -/
def exceptionEntry? (layout : Layout) (handler : Handler) :
    Except StructuralError (Option ExceptionEntry) := do
  let start ← layout.labelOffset handler.start
  let stop ← layout.labelOffset handler.stop
  if stop ≤ start then return none
  let target ← layout.labelOffset handler.handler
  return some ⟨UInt16.ofNat start, UInt16.ofNat stop, UInt16.ofNat target, handler.caught⟩

/-- The debug table entry of a variable, unless its range is empty. -/
def variableEntry? (layout : Layout) (range : VariableRange) :
    Except StructuralError (Option VariableEntry) := do
  let start ← layout.labelOffset range.start
  let stop ← layout.labelOffset range.stop
  if stop ≤ start then return none
  return some ⟨UInt16.ofNat start, UInt16.ofNat (stop - start), range.name, range.descriptor,
    range.slot⟩

end Layout

/-- The attribute that holds a table, if the table has entries. -/
def Pool.addTable {α β : Type} [AttributeContents β] (table : List α → β) (entries : List α) :
    Pool.Edit (List Attribute) :=
  if entries.isEmpty then return [] else return [← Pool.addAttribute (table entries)]

/-- Writes a body at the offsets of its layout. The extra attributes come last. -/
def Body.encode (body : Body) (layout : Layout) (extra : List Attribute) : Pool.Edit Code := do
  let bytecode ← Pool.Edit.check layout.bytecode
  let exceptions ← Pool.Edit.check (body.handlers.filterMapM layout.exceptionEntry?)
  let lines ← Pool.addTable LineNumberTable.mk layout.lineEntries
  let localVariables ← Pool.Edit.check (body.localVariables.filterMapM layout.variableEntry?)
  let localVariables ← Pool.addTable LocalVariableTable.mk localVariables
  let variableTypes ← Pool.Edit.check (body.variableTypes.filterMapM layout.variableEntry?)
  let variableTypes ← Pool.addTable LocalVariableTypeTable.mk variableTypes
  return {
    maxStack := body.maxStack
    maxLocals := body.maxLocals
    bytecode
    exceptions
    attributes := body.attributes ++ lines ++ localVariables ++ variableTypes ++ extra }

end Preverification

import Preverification.Typing.Analysis

/-!
# Unreachable code

An operation for which type inference has found no state cannot be reached. `Body.removeUnreachable`
leaves such operations out, with the lines in front of them and the handlers whose code they are.
Labels all stay, because ranges may end there.
-/

namespace Preverification

namespace Analysis

/-- For each position, and for the end, whether the first operation from there on can be reached. -/
def nextIsLive (analysis : Analysis) (nodes : List Node) : List Bool :=
  nodes.zipIdx.foldr (fun (node, position) later =>
    (if node.isOperation then analysis.isLive position else later.headD false) :: later) [false]

/-- For each node whether it stays. -/
def kept (analysis : Analysis) (nodes : List Node) : List Bool :=
  List.zipWith (fun node isLive => node.label?.isSome || isLive) nodes (analysis.nextIsLive nodes)

/-- The positions of the nodes that stay. -/
def keptPositions (analysis : Analysis) (nodes : List Node) : List Nat :=
  (analysis.kept nodes).zipIdx.filterMap fun (stays, position) =>
    if stays then some position else none

end Analysis

/-- Leaves out what cannot be reached. -/
def Body.removeUnreachable (analysis : Analysis) (body : Body) : Except StructuralError Body := do
  let isLive := (analysis.nextIsLive body.nodes).toArray
  let positions ← body.labelPositions
  let nodes := (body.nodes.zip (analysis.kept body.nodes)).filterMap fun (node, stays) =>
    if stays then some node else none
  let handlers := body.handlers.filter fun handler =>
    (positions[handler.handler]?.bind (isLive[·]?)).getD false
  return { body with nodes, handlers }

end Preverification

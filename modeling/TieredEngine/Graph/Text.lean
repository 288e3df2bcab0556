import TieredEngine.Graph.Reach
import TieredEngine.Graph.Fault
/-!
# Canonical text

A rendering of a graph that does not depend on arena positions. Fixed nodes
are numbered breadth-first from the start, with the true side of a branch
before the false side, then the floating nodes depth-first through the data
edges of the fixed nodes, then whatever is left in arena order. Two graphs of
the same shape have the same text, whatever order their nodes were made in.
-/

namespace TieredEngine

namespace Graph

/-- The floating nodes behind a node's data edges. -/
def floatingInputs (g : Graph) (id : NodeId) : List NodeId :=
  match g.node? id with
  | some n => n.dataEdges.filter fun e => (g.kind? e).any fun k => !k.isFixed
  | none => []

/-- The order in which nodes are numbered. -/
def canonicalOrder (g : Graph) : List NodeId :=
  let fixed := g.reachable
  let floating := depthFirst g.floatingInputs (fixed.flatMap g.floatingInputs)
    (g.positions.filter fun id => !fixed.contains id)
  let reached := fixed ++ floating
  reached ++ g.nodeIds.filter fun id => !reached.contains id

/-- A node's number in an order, or `?` if it has none. -/
def numberIn (order : List NodeId) (id : NodeId) : String :=
  match order.idxOf? id with
  | some n => toString n
  | none => "?"

/-- A labelled list of numbers, left out if it is empty. -/
def numberList (label : String) (order ids : List NodeId) : String :=
  if ids.isEmpty then "" else " " ++ label ++ "=[" ++ ",".intercalate
    (ids.map (numberIn order)) ++ "]"

/-- One line of the text, without its number. -/
def nodeLine (order : List NodeId) (n : Node) : String :=
  n.kind.text ++ numberList "inputs" order n.inputs ++ numberList "control" order n.control ++
    match n.state with
    | some state => " state=" ++ numberIn order state
    | none => ""

/-- The canonical text: one line per node. A graph without its start node has
none. -/
def canonicalText (g : Graph) : Except Fault String := do
  let order := g.canonicalOrder
  let lines ← order.mapM fun id => do
    return numberIn order id ++ " " ++ nodeLine order (← g.nodeAt id) ++ "\n"
  return String.join lines

end Graph

end TieredEngine

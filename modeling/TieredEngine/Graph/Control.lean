import TieredEngine.Graph.Basic
/-!
# Control flow

Control edges point from a fixed node to its predecessors; here they are
followed forwards.
-/

namespace TieredEngine

namespace Graph

/-- Entries in the order in which control takes them: `onTrue` projections
first, then `onFalse` ones, then others. -/
def inFlowOrder (es : List (NodeId × Node)) : List (NodeId × Node) :=
  (es.filter fun e => e.2.kind = .onTrue) ++ (es.filter fun e => e.2.kind = .onFalse) ++
    es.filter fun e => e.2.kind ≠ .onTrue && e.2.kind ≠ .onFalse

theorem inFlowOrder_filter (p : NodeId × Node → Bool) (es : List (NodeId × Node)) :
    inFlowOrder (es.filter p) = (inFlowOrder es).filter p := by
  simp only [inFlowOrder, List.filter_append, List.filter_filter, Bool.and_comm]

/-- The control edges of a fixed node. Other nodes have none, though a phi
names its merge. -/
def flowEdges (n : Node) : List NodeId := if n.kind.isFixed then n.control else []

/-- The fixed nodes with a control edge to `id`, each once, in flow order and
in arena order within each group. -/
def successors (g : Graph) (id : NodeId) : List NodeId :=
  (inFlowOrder (g.entries.filter fun e => (flowEdges e.2).contains id)).map Prod.fst

/-- Every id that is a predecessor, in increasing order, with its successors. -/
def successorList (g : Graph) : List (NodeId × List NodeId) :=
  (sortedIds (g.entries.flatMap fun e => flowEdges e.2)).map fun id => (id, g.successors id)

/-- The merge that a phi belongs to. -/
def phiEdges (n : Node) : List NodeId := if n.kind = .phi then n.control.head?.toList else []

/-- The phis of a merge, in arena order. -/
def phisOf (g : Graph) (merge : NodeId) : List NodeId :=
  (g.entries.filter fun e => (phiEdges e.2).contains merge).map Prod.fst

end Graph

end TieredEngine

import TieredEngine.Graph.Reach
/-!
# Dead code

A node is alive if control gets to it, or if a live node has an edge to it.
Elimination first cuts off control that is never reached, then sweeps the
rest, until nothing is left to remove.
-/

namespace TieredEngine

namespace Optimize

/-- The edges of a node that lead to nodes. -/
def liveEdges (g : Graph) (id : NodeId) : List NodeId :=
  match g.node? id with
  | some n => n.edges.filter g.contains
  | none => []

/-- The positions reached from the control chain over all edges. -/
def alive (g : Graph) : List NodeId := depthFirst (liveEdges g) g.reachable g.positions

/-- Remove every node that is not alive; gives the number removed. -/
def sweepDead (g : Graph) : Graph × Nat :=
  let alive := alive g
  let dead := g.nodeIds.filter fun id => !alive.contains id
  (g.removeAll dead, dead.length)

/-- Cut and sweep once. -/
def eliminateOnce (g : Graph) : Graph × Nat :=
  let (cut, unreachable) := g.cutUnreachable
  let (swept, dead) := sweepDead cut
  (swept, unreachable + dead)

/-- Cut and sweep until nothing is removed, at most `fuel` times; gives the
number removed. -/
def eliminateUpTo : (fuel : Nat) → Graph → Graph × Nat
  | 0, g => (g, 0)
  | fuel + 1, g =>
    let (swept, removed) := eliminateOnce g
    if removed = 0 then (swept, 0)
    else
      let (final, more) := eliminateUpTo fuel swept
      (final, removed + more)

/-- Remove all dead nodes. Every pass but the last removes a node, so one pass
more than there are nodes is enough. -/
def eliminateDead (g : Graph) : Graph × Nat := eliminateUpTo (g.nodeCount + 1) g

/-- Drop every state edge and every frame state; gives the number of nodes
removed. -/
def stripFrameStates (g : Graph) : Graph × Nat :=
  let states := g.idsWhere NodeKind.isFrameState
  (g.clearStates.removeAll states, states.length)

end Optimize

end TieredEngine

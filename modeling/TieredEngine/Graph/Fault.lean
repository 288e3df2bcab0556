import TieredEngine.Graph.Basic
/-!
# Faults

What can go wrong while a graph is changed or printed, as opposed to what
`verify` reports: a change that relies on an edge or a node that is not there,
and a search that never ends.
-/

namespace TieredEngine

/-- Why work on a graph could not go on. -/
inductive Fault where
  /-- There is no node at this position. -/
  | removedNode (id : NodeId)
  /-- The node lacks the data input with this number. -/
  | missingInput (id : NodeId) (index : Nat)
  /-- The node lacks the control edge with this number. -/
  | missingControl (id : NodeId) (index : Nat)
  /-- The walk up from this node goes round in a circle. -/
  | endlessWalk (id : NodeId)
deriving DecidableEq

namespace Graph

/-- The node at a position that must hold one. -/
def nodeAt (g : Graph) (id : NodeId) : Except Fault Node :=
  match g.node? id with
  | some n => .ok n
  | none => .error (.removedNode id)

end Graph

/-- A data input that must be there. -/
def Node.input (n : Node) (id : NodeId) (index : Nat) : Except Fault NodeId :=
  match n.inputs[index]? with
  | some input => .ok input
  | none => .error (.missingInput id index)

/-- The first control edge, which must be there. -/
def Node.predecessor (n : Node) (id : NodeId) : Except Fault NodeId :=
  match n.control.head? with
  | some predecessor => .ok predecessor
  | none => .error (.missingControl id 0)

end TieredEngine

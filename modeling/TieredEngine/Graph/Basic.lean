import TieredEngine.Graph.Kind
/-!
# Graphs

A graph is an arena of nodes. A `NodeId` is a position in the arena; removing
a node leaves its position empty, so ids never shift and an edge may point at
a position that is empty or does not exist. Node 0 is the start node.
Operations are described by `node?`, the node at a position.
-/

namespace TieredEngine

/-- A graph node: a kind and its edges. -/
structure Node where
  kind : NodeKind
  /-- Data inputs. -/
  inputs : List NodeId := []
  /-- Control predecessors of a fixed node, or the merge of a phi. -/
  control : List NodeId := []
  /-- The frame state of a node that can hand over, or the caller's frame of a
  frame state. -/
  state : Option NodeId := none
deriving DecidableEq

/-- Every edge: inputs, control, state. -/
def Node.edges (n : Node) : List NodeId := n.inputs ++ n.control ++ n.state.toList

/-- The edges to values and frames: inputs, then state. -/
def Node.dataEdges (n : Node) : List NodeId := n.inputs ++ n.state.toList

/-- A data and control flow graph. -/
structure Graph where
  name : String
  nodes : Array (Option Node)
  /-- The latest constant node made for a value. -/
  shared : List (Value × NodeId)

namespace Graph

/-- The start node's position. -/
def start : NodeId := 0

/-- The graph with a start node only. -/
def init (name : String) : Graph := ⟨name, #[some { kind := .start }], []⟩

/-- The node at a position, if there is one. -/
def node? (g : Graph) (id : NodeId) : Option Node := (g.nodes[id]?).join

/-- The kind of the node at a position. -/
def kind? (g : Graph) (id : NodeId) : Option NodeKind := (g.node? id).map Node.kind

/-- Whether there is a node at a position. -/
def contains (g : Graph) (id : NodeId) : Bool := (g.node? id).isSome

/-- The nodes with their positions, in arena order. -/
def entries (g : Graph) : List (NodeId × Node) :=
  (List.range g.nodes.size).filterMap fun id => (g.node? id).map (id, ·)

/-- The positions that hold a node, in arena order. -/
def nodeIds (g : Graph) : List NodeId := g.entries.map Prod.fst

/-- How many nodes there are. -/
def nodeCount (g : Graph) : Nat := g.entries.length

/-- The positions of the nodes whose kind satisfies a test, in arena order. -/
def idsWhere (g : Graph) (p : NodeKind → Bool) : List NodeId :=
  (g.entries.filter fun e => p e.2.kind).map Prod.fst

/-- The value of a constant node. -/
def constantAt (g : Graph) (id : NodeId) : Option Value := (g.kind? id).bind NodeKind.constant?

/-! ## Growing and shrinking -/

/-- Append a node; gives the grown graph and the node's position. -/
def add (g : Graph) (n : Node) : Graph × NodeId :=
  ({ g with nodes := g.nodes.push n }, g.nodes.size)

/-- Append a fixed node after a predecessor. -/
def addFixed (g : Graph) (kind : NodeKind) (predecessor : NodeId) : Graph × NodeId :=
  g.add { kind, control := [predecessor] }

/-- Append a constant node and remember it for its value. -/
def newConstant (g : Graph) (v : Value) : Graph × NodeId :=
  let (grown, id) := g.add { kind := .constant v }
  ({ grown with shared := (v, id) :: g.shared }, id)

/-- The constant node of a value: the latest one made here if it still stands,
else a new one. -/
def constant (g : Graph) (v : Value) : Graph × NodeId :=
  match g.shared.lookup v with
  | some id => if g.kind? id = some (.constant v) then (g, id) else g.newConstant v
  | none => g.newConstant v

/-- Take the node at a position out; other ids stay as they are. -/
def remove (g : Graph) (id : NodeId) : Graph := { g with nodes := g.nodes.setIfInBounds id none }

/-- Take several nodes out. -/
def removeAll (g : Graph) (ids : List NodeId) : Graph := ids.foldl remove g

/-! ## Changing nodes -/

/-- Change the node at a position, if there is one. -/
def modify (g : Graph) (id : NodeId) (f : Node → Node) : Graph :=
  { g with nodes := g.nodes.modify id (Option.map f) }

/-- Change every node. -/
def mapNodes (g : Graph) (f : Node → Node) : Graph := { g with nodes := g.nodes.map (Option.map f) }

/-- `id`, unless it is `old`, which becomes `new`. -/
def redirect (old new id : NodeId) : NodeId := if id = old then new else id

/-- Redirect every data and state edge at `old` to `new`. -/
def replaceAtUsages (g : Graph) (old new : NodeId) : Graph :=
  g.mapNodes fun n =>
    { n with inputs := n.inputs.map (redirect old new), state := n.state.map (redirect old new) }

/-- Redirect every control edge at `old` to `new`. -/
def replaceControl (g : Graph) (old new : NodeId) : Graph :=
  g.mapNodes fun n => { n with control := n.control.map (redirect old new) }

/-- Replace a value everywhere and take its node out. -/
def replaceValue (g : Graph) (old new : NodeId) : Graph := (g.replaceAtUsages old new).remove old

/-- Take a fixed node out and put its successors behind its first predecessor.
A node without a predecessor stays; gives the node that was taken out. -/
def unlinkFixed (g : Graph) (id : NodeId) : Graph × Option Node :=
  match (g.node? id).bind fun n => n.control.head? with
  | some predecessor =>
    let g := g.replaceControl id predecessor
    (g.remove id, g.node? id)
  | none => (g, none)

/-- Drop every state edge. -/
def clearStates (g : Graph) : Graph := g.mapNodes fun n => { n with state := none }

/-- The users of each value or frame, one entry per edge, in arena order. -/
def usages (g : Graph) (id : NodeId) : List NodeId :=
  g.entries.flatMap fun e => (e.2.dataEdges.filter (· = id)).map fun _ => e.1

/-- A list without its repetitions, in increasing order. -/
def sortedIds (ids : List NodeId) : List NodeId := (ids.mergeSort (· ≤ ·)).eraseDups

/-- Everything that is used, in increasing order, with its users. -/
def usageList (g : Graph) : List (NodeId × List NodeId) :=
  (sortedIds (g.entries.flatMap fun e => e.2.dataEdges)).map fun id => (id, g.usages id)

end Graph

end TieredEngine

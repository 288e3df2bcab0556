import TieredEngine.Graph.Flow
import TieredEngine.Graph.FrameState
/-!
# Well-formed graphs

`verify` checks the shape of a graph: one start node, no edge to a removed
node, the right number of edges for every kind, control edges between fixed
nodes, and the right number of successors. `verifyFrameStates` checks that
every node that can hand over has a usable chain of frame states. Both report
the first problem in arena order.
-/

namespace TieredEngine

/-- The two edge lists whose length depends on the kind. -/
inductive EdgeClass where
  | input
  | control
deriving DecidableEq

/-- The name of an edge list. -/
def EdgeClass.text : EdgeClass → String
  | .input => "input"
  | .control => "control"

/-- What is wrong with a graph. -/
inductive GraphError where
  | missingStart
  | extraStart (node : NodeId)
  | danglingEdge (node target : NodeId)
  /-- A wrong number of edges; `expected` is a lower bound where more are
  allowed. -/
  | badArity (node : NodeId) (kind : NodeKind) (edges : EdgeClass) (expected found : Nat)
  | badControl (node target : NodeId)
  | badSuccessors (node : NodeId) (found : Nat)
  | missingFrameState (node : NodeId)
deriving DecidableEq

/-- The wording of a graph error. -/
def GraphError.message : GraphError → String
  | .missingStart => "graph has no start node"
  | .extraStart node => "extra start node " ++ nodeText node
  | .danglingEdge node target => nodeText node ++ " references removed node " ++ nodeText target
  | .badArity node kind edges expected found =>
    nodeText node ++ " (" ++ kind.text ++ ") has " ++ toString found ++ " " ++ edges.text ++
      " edges, expected " ++ toString expected
  | .badControl node target =>
    nodeText node ++ " has control edge to " ++ nodeText target ++
      ", which cannot be a control predecessor"
  | .badSuccessors node found => nodeText node ++ " has " ++ toString found ++ " control successors"
  | .missingFrameState node => nodeText node ++ " can deoptimize but has no valid frame state"

namespace Graph

/-- Fail unless a condition holds. -/
def require (e : GraphError) (ok : Bool) : Except GraphError Unit := if ok then .ok () else .error e

/-- A list of edges must have exactly `expected` members. -/
def exactly (id : NodeId) (n : Node) (edges : EdgeClass) (expected : Nat) :
    Except GraphError Unit :=
  let found := match edges with
    | .input => n.inputs.length
    | .control => n.control.length
  require (.badArity id n.kind edges expected found) (found = expected)

/-- Check the number of inputs and control edges that a kind asks for. -/
def verifyCounts (g : Graph) (id : NodeId) (n : Node) : Except GraphError Unit :=
  match n.kind with
  | .start | .parameter _ | .constant _ => do
    exactly id n .input 0
    exactly id n .control 0
  | .ret | .branch | .guard .. => do
    exactly id n .input 1
    exactly id n .control 1
  | .onTrue | .onFalse => do
    exactly id n .input 0
    exactly id n .control 1
    n.control.forM fun owner => require (.badControl id owner) (g.kind? owner = some .branch)
  | .merge | .loopBegin => do
    exactly id n .input 0
    require (.badArity id n.kind .control 1 n.control.length) (1 ≤ n.control.length)
  | .invoke .. => exactly id n .control 1
  | .deoptimize _ => do
    exactly id n .input 0
    exactly id n .control 1
  | .binary _ => do
    exactly id n .input 2
    exactly id n .control 0
  | .unary _ => do
    exactly id n .input 1
    exactly id n .control 0
  | .phi => do
    exactly id n .control 1
    n.control.forM fun merge =>
      match g.node? merge with
      | some owner =>
        if owner.kind.isMerge then exactly id n .input owner.control.length
        else .error (.badControl id merge)
      | none => .error (.badControl id merge)
  | .frameState shape => do
    exactly id n .input shape.valueCount
    exactly id n .control 0

/-- How many successors a fixed node must have. -/
def successorCount : NodeKind → Nat
  | .ret | .deoptimize _ => 0
  | .branch => 2
  | _ => 1

/-- Check one node. -/
def verifyNode (g : Graph) (flow : Flow g) (id : NodeId) (n : Node) : Except GraphError Unit := do
  require (.extraStart id) (n.kind ≠ .start || id = start)
  n.edges.forM fun target => require (.danglingEdge id target) (g.contains target)
  verifyCounts g id n
  if n.kind.isFixed then
    n.control.forM fun pred =>
      require (.badControl id pred) ((g.kind? pred).any NodeKind.isFixed)
    let found := (flow.successors id).length
    require (.badSuccessors id found) (found = successorCount n.kind)

/-- Check the shape of the graph. -/
def verify (g : Graph) : Except GraphError Unit := do
  require .missingStart (g.kind? start = some .start)
  let flow := g.flow
  g.entries.forM fun e => g.verifyNode flow e.1 e.2

/-- Check that one node's frames can be handed over, if it may have to. -/
def verifyFrames (g : Graph) (id : NodeId) (n : Node) : Except GraphError Unit :=
  if n.kind.canDeoptimize then
    match n.state with
    | some state =>
      require (.missingFrameState id) ((g.stateChain state).ending = .complete)
    | none => .error (.missingFrameState id)
  else .ok ()

/-- Check the frame states of every node that can hand over. -/
def verifyFrameStates (g : Graph) : Except GraphError Unit :=
  g.entries.forM fun e => g.verifyFrames e.1 e.2

end Graph

end TieredEngine

import TieredEngine.Graph.Basic
import TieredEngine.Json.Layout
/-!
# Dumps

A graph as indented JSON text: its name, and its nodes in arena order with
their own positions as ids.
-/

namespace TieredEngine

namespace Graph

/-- One node of the dump. -/
def nodeDump (level : Nat) (id : NodeId) (n : Node) : String :=
  Json.objectText level
    [("id", toString id), ("kind", Json.quote n.kind.text),
     ("inputs", Json.arrayText (level + 1) (n.inputs.map toString)),
     ("control", Json.arrayText (level + 1) (n.control.map toString)),
     ("state", match n.state with
       | some state => toString state
       | none => "null")]

/-- The dump of a graph. -/
def dumpText (g : Graph) : String :=
  Json.objectText 0
    [("name", Json.quote g.name),
     ("nodes", Json.arrayText 1 (g.entries.map fun e => nodeDump 2 e.1 e.2))]

end Graph

end TieredEngine

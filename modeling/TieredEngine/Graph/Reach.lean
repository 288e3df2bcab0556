import TieredEngine.Graph.Flow
/-!
# Reachable control

`reachable` is the set of fixed nodes that control can get to, and
`cutUnreachable` takes the others out together with their edges into merges.
-/

namespace TieredEngine

/-! ## Traversal -/

/-- Visit nodes from an agenda, at most `fuel` of them: the first unvisited id
of the agenda is next, and `grow` adds its neighbours to the rest. `fresh`
lists the ids not yet visited; an id outside it is skipped. -/
def visit (grow : List NodeId → List NodeId → List NodeId) (next : NodeId → List NodeId) :
    (fuel : Nat) → (agenda fresh : List NodeId) → List NodeId
  | 0, _, _ => []
  | fuel + 1, agenda, fresh =>
    match agenda.dropWhile fun id => !fresh.contains id with
    | [] => []
    | id :: rest => id :: visit grow next fuel (grow rest (next id)) (fresh.erase id)

/-- The ids reached from an agenda inside `fresh`, in breadth-first order.
Every visit uses up one id of `fresh`, so its length is fuel enough. -/
def breadthFirst (next : NodeId → List NodeId) (agenda fresh : List NodeId) : List NodeId :=
  visit (fun rest new => rest ++ new) next fresh.length agenda fresh

/-- The ids reached from an agenda inside `fresh`, in depth-first order,
parents before children. -/
def depthFirst (next : NodeId → List NodeId) (agenda fresh : List NodeId) : List NodeId :=
  visit (fun rest new => new ++ rest) next fresh.length agenda fresh

namespace Graph

/-- Every position of the arena, empty ones included. -/
def positions (g : Graph) : List NodeId := List.range g.nodes.size

/-! ## Reachability -/

/-- The positions control gets to from the start, in breadth-first order. The
start itself always counts. -/
def reachable (g : Graph) : List NodeId := breadthFirst g.flow.successors [start] g.positions

/-- The fixed nodes control does not get to, in arena order. -/
def unreachable (g : Graph) : List NodeId :=
  let reached := g.reachable
  (g.entries.filter fun e => e.2.kind.isFixed && !reached.contains e.1).map Prod.fst

/-- The members of a list at the positions marked true; positions without a
mark are dropped. -/
def keepMarked {α : Type} (xs : List α) (marks : List Bool) : List α :=
  ((xs.zip marks).filter Prod.snd).map Prod.fst

/-- Drop the edges of one merge that come from removed nodes, and the inputs
of its phis at the same places. -/
def trimMerge (g : Graph) (merge : NodeId) : Graph :=
  match g.node? merge with
  | none => g
  | some n =>
    let marks := n.control.map g.contains
    if marks.all id then g
    else
      let trimmed := (g.phisOf merge).foldl
        (fun g phi => g.modify phi fun p => { p with inputs := keepMarked p.inputs marks }) g
      trimmed.modify merge fun m => { m with control := keepMarked n.control marks }

/-- Take out the fixed nodes that control does not get to. Gives the number
taken out. -/
def cutUnreachable (g : Graph) : Graph × Nat :=
  let dead := g.unreachable
  if dead.isEmpty then (g, 0)
  else
    let cut := g.removeAll dead
    ((cut.idsWhere NodeKind.isMerge).foldl trimMerge cut, dead.length)

end Graph

end TieredEngine

import TieredEngine.Graph.Reach
import TieredEngine.Graph.Fault
import TieredEngine.Operator.Apply
/-!
# Canonicalization

Local reductions, repeated until nothing changes: folding of operators on
constants, identities, sharing of equal floating nodes, and simplification of
phis, merges, branches on constants and redundant guards. Fixed nodes keep
their order. Each reduction is counted by its kind; a node with an edge to a
removed node is left alone.
-/

namespace TieredEngine

namespace Optimize

/-- The kinds of reductions. -/
inductive Reduction where
  | folded
  | simplified
  | valueNumbered
  | controlSimplified
  | guardRemoved
deriving DecidableEq

/-- How many reductions of each kind were made, and in how many rounds. -/
structure ReductionCounts where
  rounds : Nat := 0
  folded : Nat := 0
  simplified : Nat := 0
  valueNumbered : Nat := 0
  controlSimplified : Nat := 0
  guardsRemoved : Nat := 0
deriving DecidableEq

namespace ReductionCounts

/-- All reductions together. -/
def total (c : ReductionCounts) : Nat :=
  c.folded + c.simplified + c.valueNumbered + c.controlSimplified + c.guardsRemoved

/-- Count one reduction. -/
def count (c : ReductionCounts) : Reduction → ReductionCounts
  | .folded => { c with folded := c.folded + 1 }
  | .simplified => { c with simplified := c.simplified + 1 }
  | .valueNumbered => { c with valueNumbered := c.valueNumbered + 1 }
  | .controlSimplified => { c with controlSimplified := c.controlSimplified + 1 }
  | .guardRemoved => { c with guardsRemoved := c.guardsRemoved + 1 }

/-- The counts of two runs together. -/
def plus (c d : ReductionCounts) : ReductionCounts where
  rounds := c.rounds + d.rounds
  folded := c.folded + d.folded
  simplified := c.simplified + d.simplified
  valueNumbered := c.valueNumbered + d.valueNumbered
  controlSimplified := c.controlSimplified + d.controlSimplified
  guardsRemoved := c.guardsRemoved + d.guardsRemoved

end ReductionCounts

/-- Whether a node has an edge to a removed node. -/
def hasDeadEdge (g : Graph) (n : Node) : Bool := n.edges.any fun e => !g.contains e

/-! ## Sharing equal values -/

/-- A graph in the middle of a sweep: the counts so far and the nodes met, as
they were when met. -/
structure Sweep where
  graph : Graph
  counts : ReductionCounts
  met : List (Node × NodeId)

/-- Share one node: if an equal one was met before, that one replaces it. -/
def shareNode (s : Sweep) (id : NodeId) : Sweep :=
  match s.graph.node? id with
  | none => s
  | some n =>
    if !(n.kind.isPure || n.kind = .phi) || hasDeadEdge s.graph n then s
    else
      match s.met.lookup n with
      | some first =>
        { s with graph := s.graph.replaceValue id first, counts := s.counts.count .valueNumbered }
      | none => { s with met := (n, id) :: s.met }

/-- Share all equal floating nodes of a graph, in one sweep over the arena. -/
def shareValues (g : Graph) (c : ReductionCounts) : Graph × ReductionCounts :=
  let s := g.nodeIds.foldl shareNode ⟨g, c, []⟩
  (s.graph, s.counts)

/-! ## Reductions of one node -/

/-- What a node becomes: nothing to do, or the kind of reduction and the
changed graph. -/
abbrev Step := Except Fault (Option (Reduction × Graph))

/-- Replace a value by a constant. -/
def replaceByConstant (g : Graph) (id : NodeId) (v : Value) : Graph :=
  let (g, constant) := g.constant v
  g.replaceValue id constant

/-- What an operator on `x` and `y` is by an identity: one of the two, or a
constant. -/
inductive Identity where
  | operand (id : NodeId)
  | value (v : Value)

/-- The identities: `x + 0`, `x - 0`, `x - x`, `x * 1`, `x * 0`, `x == x` and
`x < x`, where `constant` is the value of `y` if that is known. -/
def identity? (op : BinaryOp) (x y : NodeId) (constant : Option Value) : Option Identity :=
  match op with
  | .add => if constant = some (.int 0) then some (.operand x) else none
  | .sub =>
    if constant = some (.int 0) then some (.operand x)
    else if x = y then some (.value (.int 0))
    else none
  | .mul =>
    if constant = some (.int 1) then some (.operand x)
    else if constant = some (.int 0) then some (.value (.int 0))
    else none
  | .equal => if x = y then some (.value (.bool true)) else none
  | .lessThan => if x = y then some (.value (.bool false)) else none

/-- Fold an operator on two constants, move a constant to the right, or apply
an identity. Folding that would fail is left for the run. -/
def reduceBinary (g : Graph) (id : NodeId) (op : BinaryOp) (n : Node) : Step := do
  let x ← n.input id 0
  let y ← n.input id 1
  match g.constantAt x, g.constantAt y with
  | some a, some b =>
    match op.apply a b with
    | .ok v => return some (.folded, replaceByConstant g id v)
    | .error _ => return none
  | left, right =>
    if op.isCommutative && left.isSome then
      return some (.simplified, g.modify id fun n => { n with inputs := y :: x :: n.inputs.drop 2 })
    else
      match identity? op x y right with
      | some (.operand z) => return some (.simplified, g.replaceValue id z)
      | some (.value v) => return some (.simplified, replaceByConstant g id v)
      | none => return none

/-- Fold an operator on a constant, or undo a doubled operator. -/
def reduceUnary (g : Graph) (id : NodeId) (op : UnaryOp) (n : Node) : Step := do
  let x ← n.input id 0
  match g.constantAt x with
  | some a =>
    match op.apply a with
    | .ok v => return some (.folded, replaceByConstant g id v)
    | .error _ => return none
  | none =>
    let inner ← g.nodeAt x
    if inner.kind = .unary op then
      return some (.simplified, g.replaceValue id (← inner.input x 0))
    else return none

/-- A phi whose inputs, itself apart, are all the same is that value. -/
def reducePhi (g : Graph) (id : NodeId) (n : Node) : Step :=
  match n.inputs.filter (· ≠ id) with
  | [] => .ok none
  | first :: rest =>
    if rest.all (· = first) then .ok
      (some (.controlSimplified, g.replaceValue id first)) else .ok none

/-- A merge with one predecessor is no join: its phis are their only inputs,
and it is spliced out. -/
def reduceMerge (g : Graph) (id : NodeId) (n : Node) : Step := do
  match n.control with
  | [predecessor] =>
    let g ← (g.phisOf id).foldlM
      (fun g phi => do
        let input ← (← g.nodeAt phi).input phi 0
        return g.replaceValue phi input) g
    return some (.controlSimplified, (g.replaceControl id predecessor).remove id)
  | _ => return none

/-- A branch on a constant is spliced out with the side that is taken; the
other side is cut off. -/
def reduceBranch (g : Graph) (id : NodeId) (n : Node) : Step := do
  match g.constantAt (← n.input id 0) with
  | some (.bool condition) =>
    match g.successors id with
    | [onTrue, onFalse] =>
      let taken := if condition then onTrue else onFalse
      let spliced := g.replaceControl taken (← n.predecessor id)
      return some (.controlSimplified, ((spliced.remove taken).remove id).cutUnreachable.1)
    | _ => return none
  | _ => return none

/-- Whether the search for a guard with a given check of a given input ends at
a node: with success at such a guard, without at the start, a merge or a loop
header. -/
def searchEnds (check : GuardCheck) (input current : NodeId) (n : Node) :
    Except Fault (Option Bool) :=
  match n.kind with
  | .guard other _ =>
    if other = check then do
      if (← n.input current 0) = input then return some true else return none
    else .ok none
  | .start | .merge | .loopBegin => .ok (some false)
  | _ => .ok none

/-- Walk up the control chain for a guard with the same check of the same
input. A walk of more steps than there are positions goes round in a circle. -/
def sameGuardAbove (g : Graph) (check : GuardCheck) (input : NodeId) :
    (fuel : Nat) → (current : NodeId) → Except Fault Bool
  | 0, current => .error (.endlessWalk current)
  | fuel + 1, current =>
    match g.node? current with
    | none => .ok false
    | some n =>
      match searchEnds check input current n with
      | .error f => .error f
      | .ok (some found) => .ok found
      | .ok none =>
        match n.control.head? with
        | some predecessor => sameGuardAbove g check input fuel predecessor
        | none => .ok false

/-- Whether a guard is satisfied by what is known of its input alone. -/
def knownToHold (g : Graph) (check : GuardCheck) (input : NodeId) : Bool :=
  match g.constantAt input, check with
  | some v, _ => check.holds v
  | none, .type t => (g.kind? input).bind NodeKind.stamp = some t
  | none, .condition _ => false

/-- A guard that must hold, or that was checked before on the way here, is
spliced out. -/
def reduceGuard (g : Graph) (id : NodeId) (check : GuardCheck) (n : Node) : Step := do
  let input ← n.input id 0
  let redundant ←
    if knownToHold g check input then pure true
    else sameGuardAbove g check input (g.nodes.size + 1) (← n.predecessor id)
  if redundant then return some (.guardRemoved, (g.unlinkFixed id).1) else return none

/-- Reduce one node. -/
def reduceNode (g : Graph) (id : NodeId) : Step :=
  match g.node? id with
  | none => .ok none
  | some n =>
    if hasDeadEdge g n then .ok none
    else
      match n.kind with
      | .binary op => reduceBinary g id op n
      | .unary op => reduceUnary g id op n
      | .phi => reducePhi g id n
      | .merge | .loopBegin => reduceMerge g id n
      | .branch => reduceBranch g id n
      | .guard check _ => reduceGuard g id check n
      | _ => .ok none

/-! ## Rounds -/

/-- Reduce the nodes of a list one after the other. -/
def reduceAll : List NodeId → Graph → ReductionCounts → Except Fault (Graph × ReductionCounts)
  | [], g, c => .ok (g, c)
  | id :: ids, g, c => do
    match ← reduceNode g id with
    | some (kind, g) => reduceAll ids g (c.count kind)
    | none => reduceAll ids g c

/-- One round: share equal values, then reduce every node in arena order. -/
def round (g : Graph) (c : ReductionCounts) : Except Fault (Graph × ReductionCounts) :=
  let (g, c) := shareValues g { c with rounds := c.rounds + 1 }
  reduceAll g.nodeIds g c

/-- Rounds until one changes nothing, at most `cap` of them. -/
def rounds : (cap : Nat) → Graph → ReductionCounts → Except Fault (Graph × ReductionCounts)
  | 0, g, c => .ok (g, c)
  | cap + 1, g, c => do
    let (g, after) ← round g c
    if after.total = c.total then return (g, after) else rounds cap g after

/-- The cap on rounds unless another is asked for. -/
def defaultCap : Nat := 32

/-- Canonicalize a graph. At least one round is made. -/
def canonicalize (cap : Nat) (g : Graph) : Except Fault (Graph × ReductionCounts) :=
  rounds (max cap 1) g {}

end Optimize

end TieredEngine

import TieredEngine.Inlining.Plan
/-!
# Building a graph along control paths

The specializer walks a routine with graph nodes in place of values. A `Path`
is a point that control can be at: the fixed node to attach to, the value of
every local slot and the types that guards on the way have established. When a
path ends, by a return or a hand-over, there is no path to go on with, so
nothing can be attached to it. This module has the steps that grow the graph.
-/

namespace TieredEngine

namespace Specialize

/-- Types established by the guards on a path. -/
abbrev Facts := List (NodeId × ValueType)

/-- The facts of the first path that all others share. -/
def Facts.common (first : Facts) (others : List Facts) : Facts :=
  first.filter fun (id, type) =>
    first.lookup id = some type && others.all fun facts => facts.lookup id = some type

/-- A point that control can be at. -/
structure Path where
  /-- The fixed node that the next one attaches to. -/
  control : NodeId
  /-- The values of the local slots. -/
  locals : List NodeId
  facts : Facts

/-- A value and the path on which it was computed. -/
structure Arrival where
  value : NodeId
  path : Path

/-- A graph in the making, and the returns met so far in the current routine. -/
structure Building where
  graph : Graph
  returns : List Arrival

/-- Steps that grow a graph. -/
abbrev Build := StateT Building (Except CompileError)

/-- How a call site that is inlined is entered: an action that describes the
caller's frame after the call, the arguments and the path. -/
abbrev Entry := Build NodeId → List NodeId → Path → Build (Option Arrival)

/-- One routine under specialization, possibly inlined into another. -/
structure Context where
  target : TargetId
  /-- The routine's name. -/
  name : String
  profile : Profile
  arguments : List NodeId
  /-- The frame state of the caller, if inlined. -/
  outer : Option NodeId
  /-- The call sites that are inlined. -/
  entries : List (ExprId × Entry)

/-! ## Nodes -/

/-- Append a node. -/
def addNode (n : Node) : Build NodeId :=
  modifyGet fun b =>
    let (graph, id) := b.graph.add n
    (id, { b with graph })

/-- The constant node of a value. -/
def constant (v : Value) : Build NodeId :=
  modifyGet fun b =>
    let (graph, id) := b.graph.constant v
    (id, { b with graph })

/-- The value of a node, if it is a constant. -/
def constantAt (id : NodeId) : Build (Option Value) := do return (← get).graph.constantAt id

/-- The type of a node's value, as far as its kind or a guard tells. -/
def knownType (p : Path) (id : NodeId) : Build (Option ValueType) := do
  return (((← get).graph.kind? id).bind NodeKind.stamp).or (p.facts.lookup id)

/-- Describe the frame of a routine at an expression. -/
def frameState (c : Context) (node : ExprId) (mode : ResumeMode) (stack : List NodeId) (p : Path) :
    Build NodeId :=
  addNode {
    kind := .frameState
      (.ofLengths c.target node mode c.arguments.length p.locals.length stack.length)
    inputs := c.arguments ++ p.locals ++ stack
    state := c.outer }

/-! ## Guards and hand-overs -/

/-- Check a value; from here on the path may rely on the check. -/
def guardWith (state value : NodeId) (check : GuardCheck) (reason : DeoptReason) (p : Path) :
    Build Path := do
  let guard ← addNode {
    kind := .guard check reason, inputs := [value], control := [p.control], state := some state }
  let facts := match check with
    | .type type => (value, type) :: p.facts
    | .condition _ => p.facts
  return { p with control := guard, facts }

/-- Check a value before the expression `node` acts. -/
def guardBefore (c : Context) (node : ExprId) (value : NodeId) (check : GuardCheck)
    (reason : DeoptReason) (stack : List NodeId) (p : Path) : Build Path := do
  let state ← frameState c node .beforeNode stack p
  guardWith state value check reason p

/-- End the path: the interpreter takes over before the expression `node`,
which is going to fail. -/
def giveUp (c : Context) (node : ExprId) (stack : List NodeId) (p : Path) : Build Unit := do
  let state ← frameState c node .beforeNode stack p
  let _ ← addNode {
    kind := .deoptimize .transferToInterpreter, control := [p.control], state := some state }

/-- Make sure of a value's type before the expression `node` uses it. A value
known to have another type ends the path. -/
def ensureType (c : Context) (node : ExprId) (value : NodeId) (expected : ValueType)
    (stack : List NodeId) (p : Path) : Build (Option Path) := do
  match ← knownType p value with
  | some known =>
    if known = expected then return some p
    else
      giveUp c node stack p
      return none
  | none => return some (← guardBefore c node value (.type expected) .typeGuardFailure stack p)

/-- Give a folded constant, or end the path if folding fails. -/
def fold (c : Context) (node : ExprId) (folded : Except GuestError Value) (stack : List NodeId)
    (p : Path) : Build (Option Arrival) := do
  match folded with
  | .ok v => return some ⟨← constant v, p⟩
  | .error _ =>
    giveUp c node stack p
    return none

/-! ## Operators -/

/-- A binary operator on two values. `stack` holds the operands pending around
the expression. -/
def emitBinary (c : Context) (node : ExprId) (op : BinaryOp) (lhs rhs : NodeId)
    (stack : List NodeId) (p : Path) : Build (Option Arrival) := do
  let full := stack ++ [lhs, rhs]
  match ← constantAt lhs, ← constantAt rhs with
  | some a, some b => fold c node (op.apply a b) full p
  | _, _ =>
    match op.operandType with
    | none => return some ⟨← addNode { kind := .binary op, inputs := [lhs, rhs] }, p⟩
    | some expected =>
      let some p ← ensureType c node lhs expected full p | return none
      let some p ← ensureType c node rhs expected full p | return none
      return some ⟨← addNode { kind := .binary op, inputs := [lhs, rhs] }, p⟩

/-- A unary operator on a value. -/
def emitUnary (c : Context) (node : ExprId) (op : UnaryOp) (operand : NodeId) (stack : List NodeId)
    (p : Path) : Build (Option Arrival) := do
  let full := stack ++ [operand]
  match ← constantAt operand with
  | some a => fold c node (op.apply a) full p
  | none =>
    let some p ← ensureType c node operand op.operandType full p | return none
    return some ⟨← addNode { kind := .unary op, inputs := [operand] }, p⟩

/-! ## Joining and branching -/

/-- The value at a join: the common one, or a phi. -/
def joinValues (merge : NodeId) (inputs : List NodeId) : Build NodeId :=
  match inputs with
  | [] => addNode { kind := .phi, control := [merge] }
  | first :: rest =>
    if rest.all (· = first) then pure first
    else addNode { kind := .phi, inputs, control := [merge] }

/-- Join several paths into one; there is none if no path arrives. -/
def join (arrivals : List Arrival) : Build (Option Arrival) := do
  match arrivals with
  | [] => return none
  | [a] => return some a
  | first :: rest =>
    let merge ← addNode { kind := .merge, control := arrivals.map fun a => a.path.control }
    let value ← joinValues merge (arrivals.map Arrival.value)
    let locals ← (List.range first.path.locals.length).mapM fun slot =>
      joinValues merge (arrivals.filterMap fun a => a.path.locals[slot]?)
    let facts := Facts.common first.path.facts (rest.map fun a => a.path.facts)
    return some ⟨value, merge, locals, facts⟩

/-- What becomes of a branch. -/
inductive Branching where
  /-- The path ended: the value is no condition. -/
  | ended
  /-- Only one side is reached, over this path. -/
  | always (taken : Bool) (path : Path)
  /-- Both sides are needed. -/
  | either

/-- Decide a branch on a value, which is on top of the stack: a constant
decides it, and a conditional that always went the same way so far is guarded
to go that way. -/
def branching (c : Context) (node : ExprId) (condition : NodeId) (stack : List NodeId) (p : Path) :
    Build Branching := do
  let known ← knownType p condition
  if known.any (· ≠ .bool) then
    giveUp c node stack p
    return .ended
  else
    match ← constantAt condition with
    | some (.bool taken) => return .always taken p
    | _ =>
      match (c.profile.branch node).oneSided? with
      | some taken =>
        return .always taken
          (← guardBefore c node condition (.condition taken) .unreachedBranch stack p)
      | none => return .either

/-- Emit a branch; gives the paths on its two sides. -/
def split (condition : NodeId) (p : Path) : Build (Path × Path) := do
  let branch ← addNode { kind := .branch, inputs := [condition], control := [p.control] }
  let onTrue ← addNode { kind := .onTrue, control := [branch] }
  let onFalse ← addNode { kind := .onFalse, control := [branch] }
  return ({ p with control := onTrue }, { p with control := onFalse })

/-- A conditional on a value: the sides that are needed, joined. -/
def conditional (c : Context) (node : ExprId) (condition : NodeId) (stack : List NodeId) (p : Path)
    (onTrue onFalse : Path → Build (Option Arrival)) : Build (Option Arrival) := do
  match ← branching c node condition (stack ++ [condition]) p with
  | .ended => return none
  | .always true p => onTrue p
  | .always false p => onFalse p
  | .either =>
    let (whenTrue, whenFalse) ← split condition p
    let first ← onTrue whenTrue
    let second ← onFalse whenFalse
    join (first.toList ++ second.toList)

/-! ## Loops -/

/-- A loop header under construction: the header and one phi per local slot. -/
structure OpenLoop where
  header : NodeId
  phis : List NodeId

/-- Start a loop: every local slot may change in it. -/
def openLoop (p : Path) : Build (OpenLoop × Path) := do
  let header ← addNode { kind := .loopBegin, control := [p.control] }
  let phis ← p.locals.mapM fun v => addNode { kind := .phi, inputs := [v], control := [header] }
  return (⟨header, phis⟩, { p with control := header, locals := phis })

/-- Lead the end of the body back to the header, if the body ends. -/
def closeLoop (l : OpenLoop) (body : Option Arrival) : Build Unit :=
  match body with
  | none => pure ()
  | some a => modify fun b =>
    let led := b.graph.modify l.header fun n => { n with control := n.control ++ [a.path.control] }
    let graph := (l.phis.zip a.path.locals).foldl
      (fun g (phi, v) => g.modify phi fun n => { n with inputs := n.inputs ++ [v] }) led
    { b with graph }

/-- A loop whose header stands and whose condition has a value. -/
def loopOn (c : Context) (node : ExprId) (l : OpenLoop) (condition : NodeId) (stack : List NodeId)
    (p : Path) (body : Path → Build (Option Arrival)) : Build (Option Arrival) := do
  match ← branching c node condition (stack ++ [condition]) p with
  | .ended => return none
  | .always false p => return some ⟨← constant .null, p⟩
  | .always true p =>
    closeLoop l (← body p)
    return none
  | .either =>
    let (inside, after) ← split condition p
    closeLoop l (← body inside)
    return some ⟨← constant .null, after⟩

/-! ## Calls and returns -/

/-- A call that stays a call. -/
def emitInvoke (c : Context) (site : ExprId) (target : TargetId) (arguments stack : List NodeId)
    (p : Path) : Build (Option Arrival) := do
  let state ← frameState c site .afterCall stack p
  let invoke ← addNode {
    kind := .invoke target site, inputs := arguments, control := [p.control], state := some state }
  return some ⟨invoke, { p with control := invoke }⟩

/-- Note a return of the current routine; the path ends. Its locals no longer
matter. -/
def recordReturn (value : NodeId) (p : Path) : Build (Option Arrival) := do
  modify fun b => { b with returns := b.returns ++ [⟨value, { p with locals := [] }⟩] }
  return none

/-- Join every return of the current routine and its normal end. -/
def finishRoutine (completed : Option Arrival) : Build (Option Arrival) := do
  let returns := (← get).returns
  modify fun b => { b with returns := [] }
  join (returns ++ (completed.map fun a => { a with path := { a.path with locals := [] } }).toList)

end Specialize

end TieredEngine

import TieredEngine.CompileError
import TieredEngine.Computation
import TieredEngine.Operator.Apply
/-!
# Code

Code is a verified graph that runs. Control walks the fixed nodes from the
start; floating values are computed when they are asked for and remembered
until a phi or a call changes. A guard that fails, and a call during which the
code was invalidated, end the run with a snapshot for the interpreter. `run`
takes a bound on the number of control steps.
-/

namespace TieredEngine

/-- Code for one target. -/
structure Code where
  target : TargetId
  graph : Graph
  /-- The graph's control flow, worked out once. -/
  flow : Flow graph

namespace Code

/-- Code from a graph, which must be well-formed. -/
def ofGraph (target : TargetId) (g : Graph) : Except GraphError Code := do
  g.verify
  return ⟨target, g, g.flow⟩

/-- How a run of code ends. -/
inductive Result where
  | returned (value : Value)
  /-- The invocation has to be finished in the interpreter. -/
  | deoptimized (reason : DeoptReason) (snapshot : Snapshot)
deriving DecidableEq

/-- What running code asks of its surroundings. -/
structure Host (σ : Type) where
  /-- Call another target. -/
  call : TargetId → List Value → Comp GuestError σ Value
  /-- Whether the code may still go on after a call. -/
  valid : σ → Bool

/-! ## Values -/

/-- Values by node. -/
abbrev Values := List (NodeId × Value)

/-- Set the value of a node. -/
def Values.set (vs : Values) (id : NodeId) (v : Value) : Values := (id, v) :: vs.filter (·.1 ≠ id)

/-- The values of one run: those of phis and calls, set as control passes
them, and the pure values computed since the last of them was set. -/
structure Registers where
  values : Values
  cache : Values

/-- Computations on the registers. -/
abbrev Reading := Comp GuestError Registers

/-- Fail with an inconsistency of the code. -/
def fault {σ α : Type} (f : InternalFault) : Comp GuestError σ α := Comp.leave (.internal f)

/-- An input that must be there. -/
def inputAt {σ : Type} (id : NodeId) (inputs : List NodeId) (index : Nat) :
    Comp GuestError σ NodeId :=
  match inputs[index]? with
  | some input => pure input
  | none => fault (.inputMissing id index)

/-- Compute a value and remember it. -/
def remember (id : NodeId) (v : Value) : Reading Value := do
  Comp.update fun r => { r with cache := (id, v) :: r.cache }
  return v

/-- The value of a node, looking at most `fuel` nodes deep. -/
def valueUpTo (g : Graph) (arguments : List Value) : (fuel : Nat) → (id : NodeId) → Reading Value
  | 0, _ => Comp.exhaust
  | fuel + 1, id => do
    match (← Comp.state).cache.lookup id with
    | some v => return v
    | none =>
      match g.node? id with
      | none => fault (.nodeMissing id)
      | some n =>
        match n.kind with
        | .constant v => remember id v
        | .parameter index => remember id ((arguments[index]?).getD .null)
        | .binary op => do
          let lhs ← valueUpTo g arguments fuel (← inputAt id n.inputs 0)
          let rhs ← valueUpTo g arguments fuel (← inputAt id n.inputs 1)
          remember id (← Comp.ofExcept (op.apply lhs rhs))
        | .unary op => do
          let operand ← valueUpTo g arguments fuel (← inputAt id n.inputs 0)
          remember id (← Comp.ofExcept (op.apply operand))
        | .phi | .invoke .. =>
          match (← Comp.state).values.lookup id with
          | some v => return v
          | none => fault (.readBeforeSet id)
        | kind => fault (.producesNoValue id kind.text)

/-- The value of a node. Operators that do not depend on themselves are nested
less deep than there are positions. -/
def valueOf (g : Graph) (arguments : List Value) (id : NodeId) : Reading Value :=
  valueUpTo g arguments (g.nodes.size + 1) id

/-- The snapshot to hand over at a node; a call result goes on top of the
innermost stack. -/
def handOver (g : Graph) (arguments : List Value) (id : NodeId) (state : Option NodeId)
    (result : Option Value) : Reading Snapshot :=
  match state with
  | none => fault (.frameStateMissing id)
  | some state => do
    let report : ChainEnd → Reading Snapshot
      | .endless => Comp.exhaust
      | _ => fault (.frameStateBroken id)
    let s ← Graph.materialize (valueOf g arguments) (fault .frameOverrun) report
      (g.stateChain state)
    match result with
    | some v => return { s with innermost := s.innermost.push v }
    | none => return s

/-- Assign the phis of a merge; every input is read before any phi changes. -/
def enterMerge (g : Graph) (flow : Flow g) (arguments : List Value) (merge : NodeId)
    (control : List NodeId) (previous : Option NodeId) : Reading Unit := do
  match previous.bind fun p => control.idxOf? p with
  | none => fault (.unknownEdge merge)
  | some index =>
    match flow.phisOf merge with
    | [] => pure ()
    | phis =>
      let updates ← phis.mapM fun phi => do
        match g.node? phi with
        | none => fault (.nodeMissing phi)
        | some p => return (phi, ← valueOf g arguments (← inputAt phi p.inputs index))
      Comp.update fun r => ⟨updates.foldl (fun vs u => vs.set u.1 u.2) r.values, []⟩

/-! ## Control -/

/-- The state of a run: its registers and the host's state. -/
structure Activation (σ : Type) where
  registers : Registers
  world : σ

/-- Where control is, and where it came from. -/
structure Position where
  current : NodeId
  previous : Option NodeId

/-- What one control step leads to. -/
inductive Progress where
  | go (position : Position)
  | finish (result : Result)

variable {σ : Type}

/-- Work on the registers inside a run. -/
def reading {α : Type} (x : Reading α) : Comp GuestError (Activation σ) α :=
  Comp.within Activation.registers (fun r a => { a with registers := r }) x

/-- Work on the host's state inside a run. -/
def outside {α : Type} (x : Comp GuestError σ α) : Comp GuestError (Activation σ) α :=
  Comp.within Activation.world (fun w a => { a with world := w }) x

/-- Go to a successor of the current node. -/
def goTo (current : NodeId) (next : Option NodeId) (missing : InternalFault) :
    Comp GuestError (Activation σ) Progress :=
  match next with
  | some next => return .go ⟨next, some current⟩
  | none => fault missing

/-- Go to the only successor of a node. -/
def advance (c : Code) (id : NodeId) : Comp GuestError (Activation σ) Progress :=
  goTo id (c.flow.successors id).head? (.successorMissing id)

/-- One control step. -/
def step (host : Host σ) (c : Code) (arguments : List Value) (here : Position) :
    Comp GuestError (Activation σ) Progress :=
  let g := c.graph
  let id := here.current
  match g.node? id with
  | none => fault (.nodeMissing id)
  | some n =>
    match n.kind with
    | .start | .onTrue | .onFalse => advance c id
    | .merge | .loopBegin => do
      reading (enterMerge g c.flow arguments id n.control here.previous)
      advance c id
    | .branch => do
      let v ← reading (do valueOf g arguments (← inputAt id n.inputs 0))
      let taken ← Comp.ofExcept v.condition
      let index := if taken then 0 else 1
      goTo id (c.flow.successors id)[index]? (.projectionMissing id)
    | .guard check reason => do
      let v ← reading (do valueOf g arguments (← inputAt id n.inputs 0))
      if check.holds v then advance c id
      else return .finish (.deoptimized reason (← reading (handOver g arguments id n.state none)))
    | .deoptimize reason => do
      return .finish (.deoptimized reason (← reading (handOver g arguments id n.state none)))
    | .invoke target _ => do
      let values ← reading (n.inputs.mapM (valueOf g arguments))
      let result ← outside (host.call target values)
      reading (Comp.update fun r => ⟨r.values.set id result, []⟩)
      if host.valid (← Comp.state).world then advance c id
      else
        return .finish (.deoptimized .invalidated
          (← reading (handOver g arguments id n.state (some result))))
    | .ret => do
      return .finish (.returned (← reading (do valueOf g arguments (← inputAt id n.inputs 0))))
    | kind => fault (.notOnControlChain id kind.text)

/-- Take control steps until the run ends, at most `bound` of them. -/
def runFrom (host : Host σ) (c : Code) (arguments : List Value) :
    (bound : Nat) → Position → Activation σ → Outcome GuestError (Activation σ) Result
  | 0, _, _ => .exhausted
  | bound + 1, position, a =>
    match step host c arguments position a with
    | .done (.go next) a => runFrom host c arguments bound next a
    | .done (.finish r) a => .done r a
    | .stop e a => .stop e a
    | .exhausted => .exhausted

/-- Run code on arguments. -/
def run (host : Host σ) (bound : Nat) (c : Code) (arguments : List Value) :
    Comp GuestError σ Result := fun world =>
  match runFrom host c arguments bound ⟨Graph.start, none⟩ ⟨⟨[], []⟩, world⟩ with
  | .done r a => .done r a.world
  | .stop e a => .stop e a.world
  | .exhausted => .exhausted

end Code

end TieredEngine

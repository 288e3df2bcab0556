import TieredEngine.Operator.Apply
import TieredEngine.Computation
import TieredEngine.Routine
import TieredEngine.Frame
/-!
# Interpretation

The interpreter runs a routine's body over a frame. Calls and branch records
go to a `Host`, so one interpreter serves every way of reaching a callee, and
a statement about all hosts covers all of them. A loop may turn `bound` times;
a run that needs more turns is exhausted.
-/

namespace TieredEngine

/-- What the interpreter asks of its surroundings. -/
structure Host (σ : Type) where
  /-- Call another target. -/
  call : TargetId → List Value → Comp GuestError σ Value
  /-- Note which way the conditional with this id went. -/
  recordBranch : ExprId → Bool → σ → σ

namespace Interpreter

/-- Why evaluation left an expression early. -/
inductive Exit where
  | returned (value : Value)
  | failed (error : GuestError)
deriving DecidableEq

/-- The state of one interpreted activation: its frame and the host's state. -/
structure Activation (σ : Type) where
  frame : Frame
  world : σ

/-- Evaluation inside one activation. -/
abbrev Eval (σ : Type) := Comp Exit (Activation σ)

variable {σ : Type}

/-! ## Effects -/

/-- Fail with a guest error. -/
def fail {α : Type} (e : GuestError) : Eval σ α := Comp.leave (.failed e)

/-- Fail with an inconsistency of the frame. -/
def fault {α : Type} (f : InternalFault) : Eval σ α := fail (.internal f)

/-- Apply an operator or test. -/
def lift {α : Type} (x : Except GuestError α) : Eval σ α := Comp.ofExcept (x.mapError .failed)

/-- Call another target through the host; the frame waits. -/
def dispatch (host : Host σ) (target : TargetId) (arguments : List Value) : Eval σ Value := fun a =>
  match host.call target arguments a.world with
  | .done v w => .done v { a with world := w }
  | .stop e w => .stop (.failed e) { a with world := w }
  | .exhausted => .exhausted

/-- Test the condition of the expression `id` and record the outcome. A value
that is no condition fails before anything is recorded. -/
def test (host : Host σ) (id : ExprId) (v : Value) : Eval σ Bool := do
  let taken ← lift v.condition
  Comp.update fun a => { a with world := host.recordBranch id taken a.world }
  pure taken

/-- Read a local slot. -/
def readLocal (slot : Nat) : Eval σ Value := fun a =>
  match a.frame.locals[slot]? with
  | some v => .done v a
  | none => .stop (.failed (.internal (.localOutOfRange slot))) a

/-- Write a local slot; gives the written value. -/
def writeLocal (slot : Nat) (v : Value) : Eval σ Value := fun a =>
  if slot < a.frame.locals.length then
    .done v { a with frame := { a.frame with locals := a.frame.locals.set slot v } }
  else .stop (.failed (.internal (.localOutOfRange slot))) a

/-- Repeat `body` while `condition` gives true, at most `bound` tests; gives
null. -/
def repeatWhile (condition : Eval σ Bool) (body : Eval σ Value) : Nat → Activation σ →
    Outcome Exit (Activation σ) Value
  | 0, _ => .exhausted
  | bound + 1, a =>
    match condition a with
    | .done false a => .done .null a
    | .done true a =>
      match body a with
      | .done _ a => repeatWhile condition body bound a
      | .stop e a => .stop e a
      | .exhausted => .exhausted
    | .stop e a => .stop e a
    | .exhausted => .exhausted

/-! ## Evaluation -/

mutual

/-- Evaluate an expression. -/
def eval (host : Host σ) (bound : Nat) : Expr → Eval σ Value
  | .constant _ value => pure value
  | .argument _ index => do return (← Comp.state).frame.argument index
  | .readLocal _ slot => readLocal slot.toNat
  | .writeLocal _ slot value => do writeLocal slot.toNat (← eval host bound value)
  | .binary _ op lhs rhs => do
    let a ← eval host bound lhs
    let b ← eval host bound rhs
    lift (op.apply a b)
  | .unary _ op operand => do lift (op.apply (← eval host bound operand))
  | .block _ parts => evalBlock host bound parts .null
  | .ifThen id condition body => do
    if ← test host id (← eval host bound condition) then eval host bound body else pure .null
  | .ifElse id condition body alternative => do
    if ← test host id (← eval host bound condition) then eval host bound body
    else eval host bound alternative
  | .whileLoop id condition body =>
    repeatWhile (do test host id (← eval host bound condition)) (eval host bound body) bound
  | .ret _ value => do Comp.leave (.returned (← eval host bound value))
  | .call _ target arguments => do dispatch host target (← evalAll host bound arguments)

/-- Evaluate the parts of a block; gives the last value, or `last` if there
are none. -/
def evalBlock (host : Host σ) (bound : Nat) : List Expr → Value → Eval σ Value
  | [], last => pure last
  | e :: es, _ => do evalBlock host bound es (← eval host bound e)

/-- Evaluate operands from left to right. -/
def evalAll (host : Host σ) (bound : Nat) : List Expr → Eval σ (List Value)
  | [] => pure []
  | e :: es => do
    let v ← eval host bound e
    return v :: (← evalAll host bound es)

end

/-- A loop from the point where its condition is about to be evaluated. -/
def runLoop (host : Host σ) (bound : Nat) (id : ExprId) (condition body : Expr) : Eval σ Value :=
  repeatWhile (do test host id (← eval host bound condition)) (eval host bound body) bound

/-- The value of an activation: a return ends it with the returned value. -/
def conclude (x : Eval σ Value) (frame : Frame) : Comp GuestError σ Value := fun world =>
  match x ⟨frame, world⟩ with
  | .done v a => .done v a.world
  | .stop (.returned v) a => .done v a.world
  | .stop (.failed e) a => .stop e a.world
  | .exhausted => .exhausted

/-- Run a routine from its beginning. -/
def execute (host : Host σ) (bound : Nat) (r : Routine) (arguments : List Value) :
    Comp GuestError σ Value :=
  conclude (eval host bound r.body) (Frame.fresh arguments r.localCount)

end Interpreter

end TieredEngine

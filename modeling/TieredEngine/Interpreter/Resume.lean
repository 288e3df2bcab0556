import TieredEngine.Interpreter.Eval
/-!
# Resumption

Picking up a suspended frame. The resume point is an expression deep inside
the body; `resumeAlong` walks down to it, taking the pending operands of the
enclosing expressions from the bottom of the frame's stack, and finishes every
enclosing expression on the way back. The whole stack is checked on the way
down, before anything acts.
-/

namespace TieredEngine

namespace Interpreter

variable {σ : Type}

/-- One of the collected operands. -/
def operand (node : ExprId) (values : List Value) (index : Nat) : Eval σ Value :=
  match values[index]? with
  | some v => pure v
  | none => fault (.missingOperand index node)

/-- Let an expression act once its operands are known. -/
def act (host : Host σ) (bound : Nat) (e : Expr) (values : List Value) : Eval σ Value :=
  match e with
  | .writeLocal id slot _ => do writeLocal slot.toNat (← operand id values 0)
  | .binary id op _ _ => do
    let a ← operand id values 0
    let b ← operand id values 1
    lift (op.apply a b)
  | .unary id op _ => do lift (op.apply (← operand id values 0))
  | .ifThen id _ body => do
    if ← test host id (← operand id values 0) then eval host bound body else pure .null
  | .ifElse id _ body alternative => do
    if ← test host id (← operand id values 0) then eval host bound body
    else eval host bound alternative
  | .whileLoop id condition body => do
    if ← test host id (← operand id values 0) then
      let _ ← eval host bound body
      runLoop host bound id condition body
    else pure .null
  | .ret id _ => do Comp.leave (.returned (← operand id values 0))
  | .call _ target _ => dispatch host target values
  | .constant id _ | .argument id _ | .readLocal id _ | .block id _ => fault (.takesNoOperands id)

/-- Take operands off the bottom of the stack; gives them and what remains. -/
def takeOperands (node : ExprId) : Nat → List Value → Eval σ (List Value × List Value)
  | 0, stack => pure ([], stack)
  | _ + 1, [] => fault (.operandUnderflow node)
  | n + 1, v :: stack => do
    let (values, rest) ← takeOperands node n stack
    return (v :: values, rest)

/-- The stack must have been used up. -/
def expectEmpty (node : ExprId) (stack : List Value) : Eval σ Unit :=
  if stack.isEmpty then pure () else fault (.extraOperands stack.length node)

/-- Pick up an expression whose operands are all there and that has not
acted. -/
def enterBefore (host : Host σ) (bound : Nat) (e : Expr) (stack : List Value) : Eval σ Value := do
  let (values, rest) ← takeOperands e.id e.operands.length stack
  expectEmpty e.id rest
  act host bound e values

/-- Pick up a call that has returned. -/
def enterAfterCall (e : Expr) (stack : List Value) : Eval σ Value :=
  match e with
  | .call id _ _ => do
    let (values, rest) ← takeOperands id 1 stack
    expectEmpty id rest
    operand id values 0
  | _ => fault (.notACall e.id)

/-- Descend a path to its last expression, which `enter` picks up, then finish
the enclosing expressions from the inside out. -/
def resumeAlong (host : Host σ) (bound : Nat) (enter : Expr → List Value → Eval σ Value) :
    (path : List Expr) → (stack : List Value) → Eval σ Value
  | [], _ => fault (.brokenPath 0)
  | [e], stack => enter e stack
  | e :: next :: path, stack =>
    match e.operands.findIdx? (fun o => o.id = next.id) with
    | some position => do
      let (pending, rest) ← takeOperands e.id position stack
      let v ← resumeAlong host bound enter (next :: path) rest
      let later ← evalAll host bound (e.operands.drop (position + 1))
      act host bound e (pending ++ v :: later)
    | none =>
      match e with
      | .block id parts =>
        match parts.findIdx? (fun p => p.id = next.id) with
        | some index => do
          let v ← resumeAlong host bound enter (next :: path) stack
          evalBlock host bound (parts.drop (index + 1)) v
        | none => fault (.brokenPath id)
      | .ifThen .. | .ifElse .. => resumeAlong host bound enter (next :: path) stack
      | .whileLoop id condition body => do
        let _ ← resumeAlong host bound enter (next :: path) stack
        runLoop host bound id condition body
      | _ => fault (.brokenPath e.id)

/-- Continue a routine from one suspended frame of it. -/
def resume (host : Host σ) (bound : Nat) (r : Routine) (s : SuspendedFrame) :
    Comp GuestError σ Value :=
  let frame := (Frame.fresh s.arguments r.localCount).restoreLocals s.locals
  let along (enter : Expr → List Value → Eval σ Value) : Comp GuestError σ Value :=
    match r.path? s.node with
    | some path => conclude (resumeAlong host bound enter path s.stack) frame
    | none => Comp.leave (.internal (.resumePointMissing s.node r.name))
  match s.mode with
  | .start => execute host bound r s.arguments
  | .beforeNode => along (enterBefore host bound)
  | .afterCall => along enterAfterCall

end Interpreter

end TieredEngine

import TieredEngine.GuestError
/-!
# Applying operators

The meaning of the operators, shared by the interpreter, constant folding and
running code, so that every tier computes the same values and raises the same
type errors.
-/

namespace TieredEngine

/-- A binary operator on two integers. -/
def BinaryOp.onInts (op : BinaryOp) (a b : Int64) : Value :=
  match op with
  | .add => .int (a + b)
  | .sub => .int (a - b)
  | .mul => .int (a * b)
  | .lessThan => .bool (a < b)
  | .equal => .bool (a = b)

/-- Apply a binary operator: `equal` compares any two values, the others need
two integers. -/
def BinaryOp.apply (op : BinaryOp) (lhs rhs : Value) : Except GuestError Value :=
  if op = .equal then .ok (.bool (lhs = rhs))
  else
    match lhs, rhs with
    | .int a, .int b => .ok (op.onInts a b)
    | _, _ => .error (.binaryOperands op lhs.type rhs.type)

/-- Apply a unary operator. -/
def UnaryOp.apply (op : UnaryOp) (operand : Value) : Except GuestError Value :=
  match op, operand with
  | .not, .bool b => .ok (.bool (!b))
  | .negate, .int n => .ok (.int (-n))
  | _, _ => .error (.unaryOperand op operand.type)

/-- A value as the condition of a branch or loop: it must be a truth value. -/
def Value.condition (v : Value) : Except GuestError Bool :=
  match v with
  | .bool b => .ok b
  | _ => .error (.condition v)

end TieredEngine

import TieredEngine.Value
/-!
# Operators of the guest language

What each operator asks of its operands and what type it gives. Every tier
reads these tables: the interpreter, constant folding and the specializer,
which guards operands by `operandType`.
-/

namespace TieredEngine

/-- Binary operators. Arithmetic wraps around; `equal` compares any two
values. -/
inductive BinaryOp where
  | add
  | sub
  | mul
  | lessThan
  | equal
deriving DecidableEq

namespace BinaryOp

/-- The type both operands must have; `equal` takes anything. -/
def operandType : BinaryOp → Option ValueType
  | .equal => none
  | _ => some .int

/-- The type of the result. -/
def resultType : BinaryOp → ValueType
  | .add | .sub | .mul => .int
  | .lessThan | .equal => .bool

/-- Whether the operands may be swapped. -/
def isCommutative : BinaryOp → Bool
  | .add | .mul | .equal => true
  | .sub | .lessThan => false

/-- The operator's name in messages and graph text. -/
def mnemonic : BinaryOp → String
  | .add => "Add"
  | .sub => "Sub"
  | .mul => "Mul"
  | .lessThan => "LessThan"
  | .equal => "Equal"

end BinaryOp

/-- Unary operators. -/
inductive UnaryOp where
  | not
  | negate
deriving DecidableEq

namespace UnaryOp

/-- The type the operand must have. -/
def operandType : UnaryOp → ValueType
  | .not => .bool
  | .negate => .int

/-- The type of the result: both operators keep their operand's type. -/
def resultType (op : UnaryOp) : ValueType := op.operandType

/-- The operator's name in messages and graph text. -/
def mnemonic : UnaryOp → String
  | .not => "Not"
  | .negate => "Negate"

end UnaryOp

end TieredEngine

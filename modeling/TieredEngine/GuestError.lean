import TieredEngine.Operator.Basic
/-!
# Guest errors

Every way in which running guest code can fail, as a cause. `GuestError.kind`
sorts the causes into the four kinds a caller sees and `GuestError.message` is
the only place with their wording.
-/

namespace TieredEngine

/-- Position of an expression in its routine, in pre-order. -/
abbrev ExprId := Nat

/-- Position of a call target in its registry. -/
abbrev TargetId := Nat

/-- Position of a node in a graph's arena. -/
abbrev NodeId := Nat

/-- An expression's position as text. -/
def exprText (id : ExprId) : String := "@" ++ toString id

/-- A call target as text. -/
def targetText (id : TargetId) : String := "t" ++ toString id

/-- A graph node as text. -/
def nodeText (id : NodeId) : String := "n" ++ toString id

/-- The kinds of guest errors. -/
inductive ErrorKind where
  | typeError
  | stackOverflow
  | unknownCallTarget
  | internalError
deriving DecidableEq

/-- The name of a kind. -/
def ErrorKind.text : ErrorKind → String
  | .typeError => "TypeError"
  | .stackOverflow => "StackOverflow"
  | .unknownCallTarget => "UnknownCallTarget"
  | .internalError => "InternalError"

/-- Inconsistencies of a resumed frame or of running code: never the guest
program's own fault. -/
inductive InternalFault where
  /-- A node acts with too few operands. -/
  | missingOperand (index : Nat) (node : ExprId)
  /-- A node without operands of its own was asked to act on them. -/
  | takesNoOperands (node : ExprId)
  | localOutOfRange (slot : Nat)
  | resumePointMissing (node : ExprId) (routine : String)
  | operandUnderflow (node : ExprId)
  | extraOperands (count : Nat) (node : ExprId)
  | notACall (node : ExprId)
  | brokenPath (node : ExprId)
  /-- Control or data reached a removed node. -/
  | nodeMissing (node : NodeId)
  | projectionMissing (node : NodeId)
  | inputMissing (node : NodeId) (index : Nat)
  | notOnControlChain (node : NodeId) (kind : String)
  | successorMissing (node : NodeId)
  | unknownEdge (merge : NodeId)
  | readBeforeSet (node : NodeId)
  | producesNoValue (node : NodeId) (kind : String)
  | frameStateMissing (node : NodeId)
  | frameStateBroken (node : NodeId)
  /-- The values of a frame were to be split behind their end. The run breaks
  off there, without an error that a caller could see. -/
  | frameOverrun
deriving DecidableEq

/-- The wording of an internal fault. -/
def InternalFault.message : InternalFault → String
  | .missingOperand index node =>
    "missing operand " ++ toString index ++ " for node " ++ exprText node
  | .takesNoOperands node => "node " ++ exprText node ++ " takes no operands"
  | .localOutOfRange slot => "local slot " ++ toString slot ++ " out of range"
  | .resumePointMissing node routine =>
    "resume point " ++ exprText node ++ " not found in " ++ routine
  | .operandUnderflow node => "operand stack underflow at " ++ exprText node
  | .extraOperands count node => toString count ++ " extra stack values at " ++ exprText node
  | .notACall node => "after-call resume at non-call node " ++ exprText node
  | .brokenPath node => "resume path does not continue below " ++ exprText node
  | .nodeMissing node => nodeText node ++ " missing from compiled code"
  | .projectionMissing node => nodeText node ++ " lacks a projection"
  | .inputMissing node index => nodeText node ++ " lacks input " ++ toString index
  | .notOnControlChain node kind => nodeText node ++ " (" ++ kind ++ ") is not on the control chain"
  | .successorMissing node => nodeText node ++ " has no successor"
  | .unknownEdge merge => nodeText merge ++ " entered from unknown edge"
  | .readBeforeSet node => nodeText node ++ " read before it was set"
  | .producesNoValue node kind => nodeText node ++ " (" ++ kind ++ ") does not produce a value"
  | .frameStateMissing node => nodeText node ++ " has no frame state"
  | .frameStateBroken node => "broken frame state at " ++ nodeText node
  | .frameOverrun => "frame split behind its end"

/-- Why running guest code failed. -/
inductive GuestError where
  | binaryOperands (op : BinaryOp) (lhs rhs : ValueType)
  | unaryOperand (op : UnaryOp) (found : ValueType)
  | condition (found : Value)
  /-- A call would nest deeper than the limit. -/
  | callDepth (limit : Nat)
  | unknownTarget (id : TargetId)
  /-- A suspended frame belongs to a target nobody registered. -/
  | unknownFrameTarget (id : TargetId)
  | internal (fault : InternalFault)
deriving DecidableEq

namespace GuestError

/-- The kind of an error. -/
def kind : GuestError → ErrorKind
  | .binaryOperands .. | .unaryOperand .. | .condition _ => .typeError
  | .callDepth _ => .stackOverflow
  | .unknownTarget _ | .unknownFrameTarget _ => .unknownCallTarget
  | .internal _ => .internalError

/-- The wording of an error, without its kind. -/
def message : GuestError → String
  | .binaryOperands op lhs rhs =>
    op.mnemonic ++ " expects Int operands, got " ++ lhs.text ++ " and " ++ rhs.text
  | .unaryOperand op found =>
    op.mnemonic ++ " expects " ++ op.operandType.text ++ ", got " ++ found.text
  | .condition found => "condition must be Bool, got " ++ found.text
  | .callDepth limit => "guest call depth exceeded " ++ toString limit
  | .unknownTarget id => "unknown call target " ++ targetText id
  | .unknownFrameTarget id => "cannot resume unknown call target " ++ targetText id
  | .internal fault => fault.message

/-- Kind and wording together. -/
def text (e : GuestError) : String := e.kind.text ++ ": " ++ e.message

end GuestError

end TieredEngine

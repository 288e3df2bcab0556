import TieredEngine.Frame
/-!
# Kinds of graph nodes

A node is either fixed, when it sits on the control chain, or floating, when
only its data dependencies place it. The text of a kind is part of the
canonical text of a graph.
-/

namespace TieredEngine

/-- Why running code hands over to the interpreter. -/
inductive DeoptReason where
  /-- A value did not have the speculated type. -/
  | typeGuardFailure
  /-- Control reached a side of a branch that had never been taken. -/
  | unreachedBranch
  /-- The operation has to be performed, and to fail, in the interpreter. -/
  | transferToInterpreter
  /-- The code was invalidated while one of its calls was running. -/
  | invalidated
deriving DecidableEq

/-- The name of a reason. -/
def DeoptReason.text : DeoptReason → String
  | .typeGuardFailure => "TypeGuardFailure"
  | .unreachedBranch => "UnreachedBranch"
  | .transferToInterpreter => "TransferToInterpreter"
  | .invalidated => "Invalidated"

/-- What a guard checks about its input. -/
inductive GuardCheck where
  | type (type : ValueType)
  | condition (expected : Bool)
deriving DecidableEq

namespace GuardCheck

/-- Whether a value passes the check. -/
def holds (c : GuardCheck) (v : Value) : Bool :=
  match c with
  | .type t => t.admits v
  | .condition expected => v = .bool expected

/-- The check as text. -/
def text : GuardCheck → String
  | .type t => "Type(" ++ t.text ++ ")"
  | .condition expected => "Condition(" ++ (Value.bool expected).text ++ ")"

end GuardCheck

/-- The shape and resume point of one frame that running code can hand over.
The values of the frame are the node's inputs: arguments, then local slots,
then the operand stack. -/
structure FrameShape where
  target : TargetId
  node : ExprId
  mode : ResumeMode
  arguments : UInt32
  locals : UInt32
  stack : UInt32
deriving DecidableEq

namespace FrameShape

/-- The shape of a frame with so many values of each sort, as far as a word can
count them. -/
def ofLengths (target : TargetId) (node : ExprId) (mode : ResumeMode)
    (arguments locals stack : Nat) : FrameShape :=
  ⟨target, node, mode, .ofNat arguments, .ofNat locals, .ofNat stack⟩

/-- How many inputs a frame of this shape has, as far as a word can count. -/
def valueCount (s : FrameShape) : Nat := (s.arguments + s.locals + s.stack).toNat

/-- Where the values below the operand stack end. -/
def stackStart (s : FrameShape) : Nat := (s.arguments + s.locals).toNat

/-- Whether so many values can be taken apart: first the stack is split off,
then the local slots are, and no split may be behind the end. -/
def splits (s : FrameShape) (count : Nat) : Bool :=
  s.stackStart ≤ count && s.arguments.toNat ≤ s.stackStart

/-- The suspended frame of this shape with the given values. -/
def fill (s : FrameShape) (values : List Value) : SuspendedFrame where
  target := s.target
  node := s.node
  mode := s.mode
  arguments := values.take s.arguments.toNat
  locals := (values.take s.stackStart).drop s.arguments.toNat
  stack := values.drop s.stackStart

/-- The shape as text. -/
def text (s : FrameShape) : String :=
  "FrameState(" ++ targetText s.target ++ exprText s.node ++ ", " ++ s.mode.text ++
    ", args=" ++ toString s.arguments.toNat ++ ", locals=" ++ toString s.locals.toNat ++
    ", stack=" ++ toString s.stack.toNat ++ ")"

end FrameShape

/-- The kind of a graph node. -/
inductive NodeKind where
  /-- The unique entry. -/
  | start
  /-- Leave with the value of input 0. -/
  | ret
  /-- Branch on input 0; its successors are one `onTrue` and one `onFalse`. -/
  | branch
  | onTrue
  | onFalse
  /-- A join of forward paths. -/
  | merge
  /-- A loop header: control edge 0 is the entry, the others are back edges. -/
  | loopBegin
  /-- A remaining call; the inputs are its arguments. -/
  | invoke (target : TargetId) (site : ExprId)
  /-- A check of input 0 that hands over through its frame state when it
  fails. -/
  | guard (check : GuardCheck) (reason : DeoptReason)
  /-- An unconditional hand-over. -/
  | deoptimize (reason : DeoptReason)
  /-- An incoming argument. -/
  | parameter (index : Nat)
  | constant (value : Value)
  | binary (op : BinaryOp)
  | unary (op : UnaryOp)
  /-- A joined value: control edge 0 is the merge, input `i` flows in over its
  edge `i`. -/
  | phi
  /-- A frame to hand over; its state edge is the frame of the caller. -/
  | frameState (shape : FrameShape)
deriving DecidableEq

namespace NodeKind

/-- Whether the node sits on the control chain. -/
def isFixed : NodeKind → Bool
  | .start | .ret | .branch | .onTrue | .onFalse | .merge | .loopBegin
  | .invoke .. | .guard .. | .deoptimize _ => true
  | .parameter _ | .constant _ | .binary _ | .unary _ | .phi | .frameState _ => false

/-- Whether the node joins control paths. -/
def isMerge : NodeKind → Bool
  | .merge | .loopBegin => true
  | _ => false

/-- Whether the node ends a control path. -/
def isTerminal : NodeKind → Bool
  | .ret | .deoptimize _ => true
  | _ => false

/-- Whether the node can hand over to the interpreter. -/
def canDeoptimize : NodeKind → Bool
  | .guard .. | .deoptimize _ | .invoke .. => true
  | _ => false

/-- Whether the node is a pure value, which may be shared. -/
def isPure : NodeKind → Bool
  | .parameter _ | .constant _ | .binary _ | .unary _ | .frameState _ => true
  | _ => false

/-- Whether the node is a frame state. -/
def isFrameState : NodeKind → Bool
  | .frameState _ => true
  | _ => false

/-- Whether the node is a remaining call. -/
def isInvoke : NodeKind → Bool
  | .invoke .. => true
  | _ => false

/-- The value of a constant. -/
def constant? : NodeKind → Option Value
  | .constant v => some v
  | _ => none

/-- The type that every value of the node has, where the kind alone tells. -/
def stamp : NodeKind → Option ValueType
  | .constant v => some v.type
  | .binary op => some op.resultType
  | .unary op => some op.resultType
  | _ => none

/-- The kind as text. -/
def text : NodeKind → String
  | .start => "Start"
  | .ret => "Return"
  | .branch => "If"
  | .onTrue => "IfTrue"
  | .onFalse => "IfFalse"
  | .merge => "Merge"
  | .loopBegin => "LoopBegin"
  | .invoke target site => "Invoke(" ++ targetText target ++ exprText site ++ ")"
  | .guard check reason => "Guard(" ++ check.text ++ ", " ++ reason.text ++ ")"
  | .deoptimize reason => "Deoptimize(" ++ reason.text ++ ")"
  | .parameter index => "Parameter(" ++ toString index ++ ")"
  | .constant v => "Constant(" ++ v.text ++ ")"
  | .binary op => op.mnemonic
  | .unary op => op.mnemonic
  | .phi => "Phi"
  | .frameState shape => shape.text

end NodeKind

end TieredEngine

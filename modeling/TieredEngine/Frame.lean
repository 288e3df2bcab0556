import TieredEngine.GuestError
/-!
# Frames

The activation record of a running routine, and frames that were suspended in
the middle of a routine so that interpretation can pick them up. A `Snapshot`
is a chain of suspended frames, innermost first: the result of each frame is
pushed on the operand stack of the next.
-/

namespace TieredEngine

/-- The word is not the last one. Memory never holds so much that the last word
is an index. -/
def IsIndex (w : UInt64) : Prop := w.toNat + 1 < UInt64.size

instance (w : UInt64) : Decidable (IsIndex w) := Nat.decLt _ _

/-- The element at a word. -/
def atWord? {α : Type} (xs : List α) (index : UInt64) : Option α :=
  if IsIndex index then xs[index.toNat]? else none

/-- Activation record of one run of a routine. -/
structure Frame where
  arguments : List Value
  locals : List Value

namespace Frame

/-- A fresh frame: every local slot holds null. -/
def fresh (arguments : List Value) (locals : Nat) : Frame :=
  ⟨arguments, List.replicate locals .null⟩

/-- Read an argument; a missing one reads as null. -/
def argument (f : Frame) (index : UInt64) : Value := (atWord? f.arguments index).getD .null

/-- Overwrite the leading local slots; values without a slot are dropped. -/
def restoreLocals (f : Frame) (values : List Value) : Frame :=
  { f with locals := values.take f.locals.length ++ f.locals.drop values.length }

end Frame

/-- Where a suspended frame picks up. -/
inductive ResumeMode where
  /-- Run the routine again from its beginning. -/
  | start
  /-- The operands of the expression are on the stack; it has not acted yet. -/
  | beforeNode
  /-- The call has returned; its result is the last stack entry. -/
  | afterCall
deriving DecidableEq

/-- The name of a mode in graph text. -/
def ResumeMode.text : ResumeMode → String
  | .start => "Start"
  | .beforeNode => "BeforeNode"
  | .afterCall => "AfterCall"

/-- One suspended frame. The stack runs from bottom to top: the pending
operands of the outermost enclosing expression come first. -/
structure SuspendedFrame where
  target : TargetId
  node : ExprId
  mode : ResumeMode
  arguments : List Value
  locals : List Value
  stack : List Value
deriving DecidableEq

/-- The frame with one more value on top of its stack. -/
def SuspendedFrame.push (f : SuspendedFrame) (v : Value) : SuspendedFrame :=
  { f with stack := f.stack ++ [v] }

/-- A chain of suspended frames. -/
structure Snapshot where
  innermost : SuspendedFrame
  /-- The frames waiting for the innermost one, nearest first. -/
  callers : List SuspendedFrame
deriving DecidableEq

/-- The number of frames in the chain. -/
def Snapshot.depth (s : Snapshot) : Nat := s.callers.length + 1

end TieredEngine

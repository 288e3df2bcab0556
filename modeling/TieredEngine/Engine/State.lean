import TieredEngine.Compiler
import TieredEngine.Interpreter.Resume
/-!
# The state of an engine

Everything that changes while an engine works: the registered targets, the
compiler's statistics and the history of deoptimizations, of which the latest
`historyLimit` are kept.
-/

namespace TieredEngine

/-- One deoptimization. -/
structure DeoptEvent where
  /-- The target whose code gave up. -/
  target : TargetId
  reason : DeoptReason
  /-- Where the innermost frame picks up. -/
  node : ExprId
  /-- How many frames were handed over. -/
  frames : Nat
deriving DecidableEq

/-- An engine's settings: those of its own and its compiler. -/
structure Engine where
  options : Options
  compiler : Compiler

namespace Engine

/-- The engine that a set of options describes. -/
def ofOptions (o : Options) : Engine := ⟨o, Compiler.ofOptions o⟩

/-- What changes while an engine works. -/
structure State where
  targets : Registry := #[]
  stats : CompilerStats := {}
  /-- The latest deoptimizations, oldest first. -/
  history : List DeoptEvent := []

namespace State

/-- Register a routine as a new target; gives its id. -/
def register (s : State) (r : Routine) : State × TargetId :=
  ({ s with targets := s.targets.push (CallTarget.ofRoutine r) }, s.targets.size)

/-- Change one target. -/
def modifyTarget (s : State) (id : TargetId) (f : CallTarget → CallTarget) : State :=
  { s with targets := s.targets.modify id f }

/-- Change one target's profile. -/
def modifyProfile (s : State) (id : TargetId) (f : Profile → Profile) : State :=
  s.modifyTarget id fun t => { t with profile := f t.profile }

/-- How many deoptimizations are remembered. -/
def historyLimit : Nat := 256

/-- Remember a deoptimization; the oldest one is forgotten when the history is
full. -/
def remember (s : State) (e : DeoptEvent) : State :=
  let kept := if s.history.length = historyLimit then s.history.drop 1 else s.history
  { s with history := kept ++ [e] }

/-- Whether a reason shows up at least three times in the history. -/
def isFrequent (s : State) (reason : DeoptReason) : Bool :=
  3 ≤ (s.history.filter fun e => e.reason = reason).length

end State

/-- How guest code calls a target. -/
abbrev Dispatch := TargetId → List Value → Comp GuestError State Value

/-- What an interpreted run of a target sees: branches go to the target's
profile. -/
def interpreterHost (call : Dispatch) (id : TargetId) : Host State where
  call := call
  recordBranch node taken s := s.modifyProfile id fun p => p.recordBranch node taken

/-- What an interpreted run sees that leaves no record of its branches. -/
def silentHost (call : Dispatch) : Host State where
  call := call
  recordBranch _ _ s := s

/-- What the code at a position of a target sees: it may go on while it is
valid. -/
def codeHost (call : Dispatch) (id : TargetId) (position : Nat) : Code.Host State where
  call := call
  valid s := (s.targets[id]?).any fun t => t.codeValid position

end Engine

end TieredEngine

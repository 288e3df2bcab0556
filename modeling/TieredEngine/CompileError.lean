import TieredEngine.Graph.Verify
import TieredEngine.Graph.Fault
/-!
# Compilation errors

Why a compilation, or a check of its result, failed. Rejected call sites and
deoptimizations are no errors. `CompileError.message` is the only place with
the wording.
-/

namespace TieredEngine

/-- An inconsistency found while a routine is specialized. -/
inductive SpecializationFault where
  /-- The plan belongs to another target. -/
  | foreignPlan (root : TargetId)
  | readOutOfRange (slot : Nat)
  | writeOutOfRange (slot : Nat)
deriving DecidableEq

/-- The wording of a specialization fault. -/
def SpecializationFault.message : SpecializationFault → String
  | .foreignPlan root => "inlining plan was built for " ++ targetText root
  | .readOutOfRange slot => "read of local slot " ++ toString slot ++ " out of range"
  | .writeOutOfRange slot => "write to local slot " ++ toString slot ++ " out of range"

/-- A property of a finished graph that was asked for and does not hold. -/
inductive VerificationFailure where
  | invokesLeft (count : Nat) (routine text : String)
  | graphsDiffer (expected actual : String)
deriving DecidableEq

/-- The wording of a failed verification. -/
def VerificationFailure.message : VerificationFailure → String
  | .invokesLeft count routine text =>
    toString count ++ " invoke(s) left in " ++ routine ++ ":\n" ++ text
  | .graphsDiffer expected actual =>
    "graphs differ\nexpected:\n" ++ expected ++ "actual:\n" ++ actual

/-- Why a backend made no code. -/
inductive BackendFailure where
  /-- The graph is empty. -/
  | noCode (routine : String)
  /-- This backend makes no code at all. -/
  | cannotEmit (routine : String)
deriving DecidableEq

/-- The wording of a backend failure. -/
def BackendFailure.message : BackendFailure → String
  | .noCode routine => "graph for '" ++ routine ++ "' has no code"
  | .cannotEmit routine => "cannot emit " ++ routine

/-- Why a compilation failed. -/
inductive CompileError where
  | evaluation (routine : String) (fault : SpecializationFault)
  | unresolvedTarget (target : TargetId)
  | malformedGraph (error : GraphError)
  | verification (failure : VerificationFailure)
  | backend (failure : BackendFailure)
  /-- The guest program failed while it was warmed up. -/
  | guest (error : GuestError)
  /-- The graph fell apart while it was changed or printed. -/
  | brokenGraph (fault : Fault)
deriving DecidableEq

/-- The wording of a compilation error. -/
def CompileError.message : CompileError → String
  | .evaluation routine fault => "evaluation fault in " ++ routine ++ ": " ++ fault.message
  | .unresolvedTarget target => "unresolved call target " ++ targetText target
  | .malformedGraph error => "malformed graph: " ++ error.message
  | .verification failure => "verification failed: " ++ failure.message
  | .backend failure => "backend failure: " ++ failure.message
  | .guest error => "guest error: " ++ error.text
  | .brokenGraph _ => "broken graph"

end TieredEngine

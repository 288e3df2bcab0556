import TieredEngine.Optimize.Canonicalize
import TieredEngine.Optimize.DeadCode
/-!
# Phases

The single passes over a graph under one name each, for running them one at a
time.
-/

namespace TieredEngine

namespace Optimize

/-- A pass over a graph. -/
inductive Phase where
  | canonicalizer (cap : Nat)
  | deadCode
  | frameStates

namespace Phase

/-- The name of a pass. -/
def name : Phase → String
  | .canonicalizer _ => "canonicalizer"
  | .deadCode => "dead-code-elimination"
  | .frameStates => "frame-state-removal"

/-- Run a pass; gives the graph and the number of changes. -/
def apply (p : Phase) (g : Graph) : Except Fault (Graph × Nat) :=
  match p with
  | .canonicalizer cap => do
    let (g, counts) ← canonicalize cap g
    return (g, counts.total)
  | .deadCode => .ok (eliminateDead g)
  | .frameStates => .ok (stripFrameStates g)

end Phase

end Optimize

end TieredEngine

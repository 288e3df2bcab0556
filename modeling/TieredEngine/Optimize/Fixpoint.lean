import TieredEngine.Optimize.Canonicalize
import TieredEngine.Optimize.DeadCode
/-!
# The optimizer

Canonicalization and dead code elimination in turn, until neither changes the
graph.
-/

namespace TieredEngine

namespace Optimize

/-- What an optimizer run did. -/
structure Summary where
  rounds : Nat := 0
  reductions : ReductionCounts := {}
  deadNodes : Nat := 0
deriving DecidableEq

/-- Optimizer rounds until one changes nothing, at most `left` of them. -/
def optimizeUpTo (cap : Nat) : (left : Nat) → Graph → Summary → Except Fault (Graph × Summary)
  | 0, g, s => .ok (g, s)
  | left + 1, g, s => do
    let (g, reductions) ← canonicalize cap g
    let (g, removed) := eliminateDead g
    let s : Summary := {
      rounds := s.rounds + 1
      reductions := s.reductions.plus reductions
      deadNodes := s.deadNodes + removed }
    if reductions.total + removed = 0 then return (g, s) else optimizeUpTo cap left g s

/-- Optimize a graph. The cap, at least one, bounds both the rounds here and
those of each canonicalization. -/
def optimize (cap : Nat) (g : Graph) : Except Fault (Graph × Summary) :=
  optimizeUpTo (max cap 1) (max cap 1) g {}

end Optimize

end TieredEngine

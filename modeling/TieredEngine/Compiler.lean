import TieredEngine.Specialize.Eval
import TieredEngine.Optimize.Fixpoint
import TieredEngine.Options.Basic
/-!
# The compiler

A compilation builds the inlining plan, specializes the routine under it,
optimizes the graph and hands it to the backend. The first stage that fails
ends it. The statistics count what the front end did even when the backend
then fails.
-/

namespace TieredEngine

/-! ## Backends -/

/-- Makes code for a target from a finished graph. The name of the routine is
for messages. -/
structure Backend where
  emit : Graph → TargetId → (name : String) → Except CompileError Code

namespace Backend

/-- The backend whose code is the graph itself. -/
def direct : Backend where
  emit g target name := do
    if g.nodeCount ≤ 1 then throw (.backend (.noCode name))
    g.verify.mapError .malformedGraph
    g.verifyFrameStates.mapError .malformedGraph
    (Code.ofGraph target g).mapError .malformedGraph

/-- The backend that never makes code. -/
def failing : Backend where
  emit _ _ name := .error (.backend (.cannotEmit name))

end Backend

/-! ## Compilations -/

/-- What all compilations so far did. -/
structure CompilerStats where
  compilations : Nat := 0
  failures : Nat := 0
  sitesInlined : Nat := 0
  /-- Nodes right after specialization. -/
  nodesBefore : Nat := 0
  /-- Nodes handed to the backend. -/
  nodesAfter : Nat := 0
deriving DecidableEq

/-- A compiler: its settings, its inlining policy and its backend. -/
structure Compiler where
  options : Options
  policy : InliningPolicy
  backend : Backend

/-- What the front end of the compiler makes. -/
structure Compilation where
  graph : Graph
  plan : Plan
  summary : Optimize.Summary

namespace Compiler

/-- The policy that a set of options describes. -/
def policyOf (o : Options) : InliningPolicy := .threshold o.inliningMinHotness o.maxInliningDepth

/-- The compiler that a set of options describes. -/
def ofOptions (o : Options) : Compiler := ⟨o, policyOf o, .direct⟩

/-- Decide the call sites reachable from a target. -/
def buildPlan {σ : Type} (c : Compiler) (bound : Nat) (targets : Registry) (id : TargetId)
    (t : CallTarget) : Comp CompileError σ Plan :=
  Plan.build targets c.policy c.options.inliningBudget.toNat bound id t.routine

/-- Optimize a graph under the compiler's cap. -/
def optimize (c : Compiler) (g : Graph) : Except CompileError (Graph × Optimize.Summary) :=
  (Optimize.optimize c.options.canonicalizerIterations.toNat g).mapError .brokenGraph

/-- Plan, specialize and optimize a target without making code. -/
def frontEnd (c : Compiler) (bound : Nat) (targets : Registry) (id : TargetId) (t : CallTarget) :
    Comp CompileError CompilerStats Compilation := do
  let plan ← c.buildPlan bound targets id t
  let g ← Comp.ofExcept (Specialize.specialize targets id t plan)
  let (optimized, summary) ← Comp.ofExcept (c.optimize g)
  Comp.update fun s => { s with
    sitesInlined := s.sitesInlined + plan.stats.inlined
    nodesBefore := s.nodesBefore + g.nodeCount }
  return ⟨optimized, plan, summary⟩

/-- Compile a target to code. -/
def compile (c : Compiler) (bound : Nat) (targets : Registry) (id : TargetId) (t : CallTarget) :
    Comp CompileError CompilerStats Code := do
  let produce : Comp CompileError CompilerStats (Code × Nat) := do
    let compilation ← c.frontEnd bound targets id t
    let code ← Comp.ofExcept (c.backend.emit compilation.graph id t.routine.name)
    return (code, compilation.graph.nodeCount)
  match ← produce.attempt with
  | .ok (code, nodes) =>
    Comp.update fun s => { s with
      compilations := s.compilations + 1, nodesAfter := s.nodesAfter + nodes }
    return code
  | .error e =>
    Comp.update fun s => { s with failures := s.failures + 1 }
    Comp.leave e

end Compiler

end TieredEngine

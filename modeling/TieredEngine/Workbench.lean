import TieredEngine.Engine.Invoke
import TieredEngine.Graph.Text
/-!
# The workbench

Checks of what the compiler makes of a routine. Each check registers its
routine in an engine without automatic compilation, warms it up with sample
arguments so that its profile is filled, and looks at the graph.
-/

namespace TieredEngine

namespace Workbench

/-- The engine of a workbench: nothing is compiled unless a check asks for
it. -/
def engine (o : Options) : Engine := Engine.ofOptions { o with autoCompile := false }

/-- Interpreted runs before a check. -/
def warmUpRuns : Nat := 3

/-- Checks over an engine's state. -/
abbrev Check := Comp CompileError Engine.State

variable (e : Engine) (bound : Nat)

/-- Invoke a target several times with the same arguments. -/
def invokeTimes (id : TargetId) (arguments : List Value) : Nat → Check Unit
  | 0 => return ()
  | n + 1 => do
    let _ ← (e.invoke bound id arguments).mapExit .guest
    invokeTimes id arguments n

/-- Register a routine and warm it up; gives its id. -/
def warmUp (r : Routine) (arguments : List Value) : Check TargetId := do
  let id := (← Comp.state).targets.size
  Comp.update fun s => (s.register r).1
  invokeTimes e bound id arguments warmUpRuns
  return id

/-- The optimized graph of a target, frame states included. -/
def graphOf (id : TargetId) : Check Compilation := do
  let s ← Comp.state
  match s.targets[id]? with
  | none => Comp.leave (.unresolvedTarget id)
  | some t =>
    Comp.within Engine.State.stats (fun stats s => { s with stats })
      (e.compiler.frontEnd bound s.targets id t)

/-- The optimized graph of a new routine. -/
def specialized (r : Routine) (arguments : List Value) : Check Graph := do
  let id ← warmUp e bound r arguments
  return (← graphOf e bound id).graph

/-- A graph without frame states, optimized again. -/
def strip (g : Graph) : Except CompileError Graph := do
  return (← e.compiler.optimize (Optimize.stripFrameStates g).1).1

/-- The canonical text of a graph. -/
def textOf (g : Graph) : Except CompileError String := g.canonicalText.mapError .brokenGraph

/-- The graph of a routine without frame states, if no call is left in it. -/
def expectNoInvokes (r : Routine) (arguments : List Value) : Check Graph := do
  let g ← Comp.ofExcept (strip e (← specialized e bound r arguments))
  let left := (g.idsWhere NodeKind.isInvoke).length
  if left = 0 then return g
  else Comp.leave (.verification (.invokesLeft left g.name (← Comp.ofExcept (textOf g))))

/-- Check that two routines have the same graph, frame states apart. -/
def expectEqual (expected actual : Routine) (arguments : List Value) : Check Unit := do
  let expectedGraph ← specialized e bound expected arguments
  let actualGraph ← specialized e bound actual arguments
  let expectedText ← Comp.ofExcept (do textOf (← strip e expectedGraph))
  let actualText ← Comp.ofExcept (do textOf (← strip e actualGraph))
  if expectedText = actualText then return ()
  else Comp.leave (.verification (.graphsDiffer expectedText actualText))

/-- Register a routine, warm it up and compile it; gives its id. -/
def compiled (r : Routine) (arguments : List Value) : Check TargetId := do
  let id ← warmUp e bound r arguments
  let _ ← e.requestCompilation bound id
  return id

end Workbench

end TieredEngine

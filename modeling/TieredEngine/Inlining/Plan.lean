import TieredEngine.CallTarget
import TieredEngine.Inlining.Policy
/-!
# Inlining plans

A plan holds the decision for every call site reachable from a target: its own
sites in pre-order and, below an inlined site, those of the callee. Decisions
are made depth-first, and what one inlined callee uses of the budget is gone
for all later ones. A policy that ignores the budget may inline a recursive
routine for ever, so building a plan takes a bound on the nesting.
-/

namespace TieredEngine

/-- One decided call site. -/
structure PlanEntry where
  site : ExprId
  target : TargetId
  decision : Decision
  /-- The decisions inside the callee, if it is inlined. -/
  children : List PlanEntry

/-- Whether the site is inlined. -/
def PlanEntry.isInlined (e : PlanEntry) : Bool := e.decision.isInline

/-- What was decided while a plan was built. -/
structure PlanStats where
  decisions : Nat := 0
  inlined : Nat := 0
  rejected : Nat := 0
  /-- Rejections by cause. -/
  overBudget : Nat := 0
  cold : Nat := 0
  tooDeep : Nat := 0
  /-- The deepest level that was inlined. -/
  maxDepth : Nat := 0
deriving DecidableEq

namespace PlanStats

/-- Count one decision at a depth. -/
def record (s : PlanStats) (decision : Decision) (depth : Nat) : PlanStats :=
  let s := { s with decisions := s.decisions + 1 }
  match decision with
  | .inline => { s with inlined := s.inlined + 1, maxDepth := max s.maxDepth (depth + 1) }
  | .keep (.budgetExceeded ..) =>
    { s with rejected := s.rejected + 1, overBudget := s.overBudget + 1 }
  | .keep (.cold ..) => { s with rejected := s.rejected + 1, cold := s.cold + 1 }
  | .keep (.depthExceeded ..) => { s with rejected := s.rejected + 1, tooDeep := s.tooDeep + 1 }

/-- The rejections by the short name of their cause, where there are any. -/
def rejections (s : PlanStats) : List (String × Nat) :=
  [("budget-exceeded", s.overBudget), ("cold", s.cold), ("depth-exceeded", s.tooDeep)].filter
    (0 < ·.2)

end PlanStats

/-- The decisions for one compilation. -/
structure Plan where
  root : TargetId
  entries : List PlanEntry
  /-- The total size of what is inlined. -/
  inlinedSize : Nat
  stats : PlanStats

namespace Plan

/-- The plan that inlines nothing. -/
def empty (root : TargetId) : Plan := ⟨root, [], 0, {}⟩

/-- A plan in the making: the budget and the statistics so far. -/
structure Progress where
  budget : InliningBudget
  stats : PlanStats := {}

/-- Decide the call sites of a routine, and of what is inlined into it, at
most `levels` deep. -/
def decideSites (targets : Registry) (policy : InliningPolicy) :
    (levels depth : Nat) → Routine → Comp CompileError Progress (List PlanEntry)
  | 0, _, _ => Comp.exhaust
  | levels + 1, depth, caller =>
    caller.callSites.mapM fun (site, target) => do
      match targets[target]? with
      | none => Comp.leave (.unresolvedTarget target)
      | some callee =>
        let size := callee.routine.nodeCount
        let decision := policy.decide ⟨site, target, size, callee.invocations⟩
          ⟨depth, (← Comp.state).budget.remaining⟩
        Comp.update fun p => { p with stats := p.stats.record decision depth }
        if decision.isInline then
          Comp.update fun p => { p with budget := p.budget.consume size }
          return ⟨site, target, decision,
            ← decideSites targets policy levels (depth + 1) callee.routine⟩
        else
          return ⟨site, target, decision, []⟩

/-- Decide every call site reachable from a target. -/
def build {σ : Type} (targets : Registry) (policy : InliningPolicy) (budget bound : Nat)
    (root : TargetId) (r : Routine) : Comp CompileError σ Plan := fun s =>
  match decideSites targets policy bound 0 r { budget := { limit := budget } } with
  | .done entries p => .done ⟨root, entries, p.budget.consumed, p.stats⟩ s
  | .stop e _ => .stop e s
  | .exhausted => .exhausted

mutual

/-- The decisions of an entry and of those below it, in the order they were
made. -/
def entryDecisions : PlanEntry → List (ExprId × TargetId × Bool)
  | ⟨site, target, decision, children⟩ =>
    (site, target, decision.isInline) :: entriesDecisions children

/-- The decisions of a list of entries, in the order they were made. -/
def entriesDecisions : List PlanEntry → List (ExprId × TargetId × Bool)
  | [] => []
  | e :: es => entryDecisions e ++ entriesDecisions es

end

/-- All decisions, in the order they were made. -/
def decisions (p : Plan) : List (ExprId × TargetId × Bool) := entriesDecisions p.entries

/-- How many sites are inlined, at any depth. -/
def inlinedCount (p : Plan) : Nat := (p.decisions.filter fun d => d.2.2).length

end Plan

end TieredEngine

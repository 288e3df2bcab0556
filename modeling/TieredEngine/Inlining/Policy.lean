import TieredEngine.GuestError
/-!
# Inlining policies

A policy decides about one call site from what is known of the callee and of
the place. It is a plain function, so the same question always gets the same
answer. The threshold policy inlines a callee that fits the budget, is hot
enough and is not nested too deep, and asks in that order.
-/

namespace TieredEngine

/-- A call site under consideration. -/
structure Candidate where
  site : ExprId
  target : TargetId
  /-- The callee's size. -/
  size : Nat
  /-- The callee's interpreted invocations. -/
  invocations : UInt64

/-- Where a call site is decided. -/
structure InliningContext where
  /-- How many inlined calls enclose the site. -/
  depth : Nat
  /-- The budget that is left. -/
  remaining : Nat

/-- Why a call site stays a call. -/
inductive Rejection where
  | budgetExceeded (required remaining : Nat)
  | cold (count min : UInt64)
  | depthExceeded (depth max : Nat)
deriving DecidableEq

namespace Rejection

/-- A short name for statistics. -/
def reason : Rejection → String
  | .budgetExceeded .. => "budget-exceeded"
  | .cold .. => "cold"
  | .depthExceeded .. => "depth-exceeded"

/-- The wording of a rejection. -/
def message : Rejection → String
  | .budgetExceeded required remaining =>
    "budget exceeded: needs " ++ toString required ++ ", " ++ toString remaining ++ " left"
  | .cold count min =>
    "cold: " ++ toString count.toNat ++ " invocations, needs more than " ++ toString min.toNat
  | .depthExceeded depth max => "depth exceeded: " ++ toString depth ++ " of " ++ toString max

end Rejection

/-- What happens to a call site. -/
inductive Decision where
  | inline
  | keep (why : Rejection)
deriving DecidableEq

/-- Whether the site is inlined. -/
def Decision.isInline : Decision → Bool
  | .inline => true
  | .keep _ => false

/-- A rule for call sites. -/
structure InliningPolicy where
  decide : Candidate → InliningContext → Decision

namespace InliningPolicy

/-- Inline what fits the budget, ran more than `minHotness` times and is less
than `maxDepth` deep. -/
def threshold (minHotness : UInt64) (maxDepth : UInt32) : InliningPolicy where
  decide candidate context :=
    if context.remaining < candidate.size then
      .keep (.budgetExceeded candidate.size context.remaining)
    else if candidate.invocations ≤ minHotness then .keep (.cold candidate.invocations minHotness)
    else if maxDepth.toNat ≤ context.depth then .keep (.depthExceeded context.depth maxDepth.toNat)
    else .inline

/-- Inline nothing. -/
def never : InliningPolicy where
  decide _ context := .keep (.depthExceeded context.depth 0)

end InliningPolicy

/-- The size that may be inlined into one compilation, and how much of it is
used. -/
structure InliningBudget where
  limit : Nat
  consumed : Nat := 0

namespace InliningBudget

/-- What is left. -/
def remaining (b : InliningBudget) : Nat := b.limit - b.consumed

/-- Use up some of the budget. -/
def consume (b : InliningBudget) (size : Nat) : InliningBudget :=
  { b with consumed := b.consumed + size }

end InliningBudget

end TieredEngine

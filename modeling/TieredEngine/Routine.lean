import TieredEngine.Expr
/-!
# Routines

A routine is a named body with a number of declared parameters. Its body is
always numbered in pre-order from zero, which the type records, so an `ExprId`
below `nodeCount` names exactly one expression of the body.
-/

namespace TieredEngine

/-- A guest routine. -/
structure Routine where
  name : String
  parameters : Nat
  body : Expr
  /-- The ids of the body are its pre-order positions. -/
  numbered : ∃ e : Expr, body = e.number 0

namespace Routine

/-- The routine with a given body, whatever ids the body had. -/
def ofBody (name : String) (parameters : Nat) (body : Expr) : Routine :=
  ⟨name, parameters, body.number 0, body, rfl⟩

/-- The number of expressions, which is also the routine's size for inlining. -/
def nodeCount (r : Routine) : Nat := r.body.nodeCount

/-- The number of local slots: one more than the highest slot in use, as far as
a word can count. -/
def localCount (r : Routine) : Nat := (Expr.bound (r.body.preorder.filterMap Expr.slot?)).toNat

/-- The number of argument slots the body reads, as far as a word can count. -/
def argumentCount (r : Routine) : Nat :=
  (Expr.bound (r.body.preorder.filterMap Expr.argument?)).toNat

/-- The call sites in pre-order, each with its target. -/
def callSites (r : Routine) : List (ExprId × TargetId) := r.body.preorder.filterMap Expr.callSite?

/-- The chain of expressions from the body down to an id. -/
def path? (r : Routine) (id : ExprId) : Option (List Expr) :=
  if id < r.nodeCount then r.body.pathTo id else none

/-- The expression with an id. -/
def expr? (r : Routine) (id : ExprId) : Option Expr := (r.path? id).bind List.getLast?

end Routine

end TieredEngine

import TieredEngine.Feedback
import TieredEngine.GuestError
/-!
# Profiles

The profile of one routine: type feedback per declared parameter and branch
counts per expression. A call with the wrong number of arguments says nothing
reliable about any parameter, so it moves every slot to the top.
-/

namespace TieredEngine

/-- What is known about the runs of one routine. -/
structure Profile where
  /-- One slot per declared parameter. -/
  arguments : List Feedback
  /-- One counter pair per expression; only conditionals and loops use
  theirs. -/
  branches : Array BranchCounts
  /-- Calls with another number of arguments than declared. -/
  arityMismatches : UInt64

namespace Profile

/-- The profile before any run. -/
def empty (parameters nodes : Nat) : Profile where
  arguments := List.replicate parameters .uninitialized
  branches := Array.replicate nodes default
  arityMismatches := 0

/-- Record the argument types of one call. -/
def recordArguments (p : Profile) (arguments : List Value) : Profile :=
  if arguments.length = p.arguments.length then
    { p with arguments := p.arguments.zipWith (fun f v => f.merge v.type) arguments }
  else
    { p with
      arguments := p.arguments.map fun _ => .polymorphic
      arityMismatches := p.arityMismatches + 1 }

/-- The feedback of one parameter; one that was not declared may hold
anything. -/
def argument (p : Profile) (index : Nat) : Feedback := (p.arguments[index]?).getD .polymorphic

/-- Record which way a conditional went; ids outside the routine are ignored. -/
def recordBranch (p : Profile) (node : ExprId) (taken : Bool) : Profile :=
  { p with branches := p.branches.modify node fun c => c.record taken }

/-- The counts of one conditional. -/
def branch (p : Profile) (node : ExprId) : BranchCounts := (p.branches[node]?).getD default

end Profile

end TieredEngine

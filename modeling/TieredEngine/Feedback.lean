import TieredEngine.Value
/-!
# Feedback

What is observed at one point of a program: the types that reached it and
which way a conditional went. Type feedback only ever moves up, from nothing
through one type to many.
-/

namespace TieredEngine

/-- The types seen at one position. -/
inductive Feedback where
  | uninitialized
  | monomorphic (type : ValueType)
  | polymorphic
deriving DecidableEq

namespace Feedback

instance : Inhabited Feedback := ⟨.uninitialized⟩

/-- The feedback after one more observation. -/
def merge (f : Feedback) (seen : ValueType) : Feedback :=
  match f with
  | .uninitialized => .monomorphic seen
  | .monomorphic type => if type = seen then f else .polymorphic
  | .polymorphic => .polymorphic

/-- The single type seen, if there is one. -/
def single? : Feedback → Option ValueType
  | .monomorphic type => some type
  | _ => none

/-- A compact code: zero for nothing, then one per type, then the top. -/
def code : Feedback → UInt8
  | .uninitialized => 0
  | .monomorphic .int => 1
  | .monomorphic .bool => 2
  | .monomorphic .null => 3
  | .polymorphic => 4

/-- The feedback with a code; unknown codes count as the top. -/
def ofCode (c : UInt8) : Feedback :=
  if c = 0 then .uninitialized
  else if c = 1 then .monomorphic .int
  else if c = 2 then .monomorphic .bool
  else if c = 3 then .monomorphic .null
  else .polymorphic

theorem ofCode_code (f : Feedback) : ofCode f.code = f := by
  rcases f with _ | (_ | _ | _) | _ <;> rfl

end Feedback

/-- How often a conditional went each way. The counters are 64-bit words. -/
structure BranchCounts where
  taken : UInt64
  notTaken : UInt64
deriving DecidableEq

namespace BranchCounts

instance : Inhabited BranchCounts := ⟨⟨0, 0⟩⟩

/-- All outcomes seen, as far as one word can count. -/
def total (c : BranchCounts) : Nat := min (c.taken.toNat + c.notTaken.toNat) (UInt64.size - 1)

/-- The only way the conditional ever went, if it ran and always went the same
way. -/
def oneSided? (c : BranchCounts) : Option Bool :=
  if c.taken = 0 then (if c.notTaken = 0 then none else some false)
  else if c.notTaken = 0 then some true
  else none

/-- Count one more outcome. -/
def record (c : BranchCounts) (taken : Bool) : BranchCounts :=
  if taken then { c with taken := c.taken + 1 } else { c with notTaken := c.notTaken + 1 }

end BranchCounts

end TieredEngine

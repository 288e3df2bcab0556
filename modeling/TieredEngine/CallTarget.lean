import TieredEngine.Code
import TieredEngine.Profile
import TieredEngine.Routine
/-!
# Call targets

A call target is a routine together with everything the engine knows about it:
its profile, its counters and the code made for it. Code that is running stays
known after it was replaced, so a target keeps every code ever installed, with
a mark that says whether it may still be entered; `installed` names the one
that new invocations would take.
-/

namespace TieredEngine

/-- Code that was installed on a target at some time. -/
structure Installation where
  code : Code
  /-- Whether the code may still be entered and go on after a call. -/
  valid : Bool

/-- A routine and its run-time record. -/
structure CallTarget where
  routine : Routine
  profile : Profile
  /-- Interpreted invocations. -/
  invocations : UInt64 := 0
  /-- Every code ever installed, oldest first. -/
  codes : List Installation := []
  /-- The position in `codes` of the installed code. -/
  installed : Option Nat := none
  /-- Successful compilations. -/
  compilations : UInt64 := 0
  /-- Failed speculations of this target's code. -/
  deopts : UInt32 := 0
  /-- Whether an automatic compilation failed. -/
  failed : Bool := false
  /-- Whether the target stays interpreted for good. -/
  disabled : Bool := false

/-- The tier of a target. -/
inductive Tier where
  | interpreted
  | compiled
  | disabled
deriving DecidableEq

namespace CallTarget

/-- The target of a routine that has not run yet. -/
def ofRoutine (r : Routine) : CallTarget where
  routine := r
  profile := Profile.empty r.parameters r.nodeCount

/-- The code that an invocation takes, with its position: the installed one,
if it is still valid. -/
def currentCode (t : CallTarget) : Option (Nat × Code) :=
  match t.installed with
  | none => none
  | some i =>
    match t.codes[i]? with
    | some c => if c.valid then some (i, c.code) else none
    | none => none

/-- Whether valid code is installed. -/
def isCompiled (t : CallTarget) : Bool := t.currentCode.isSome

/-- The tier a target is in. -/
def tier (t : CallTarget) : Tier :=
  if t.disabled then .disabled else if t.isCompiled then .compiled else .interpreted

/-- Whether the code at a position may go on. -/
def codeValid (t : CallTarget) (i : Nat) : Bool := (t.codes[i]?).any Installation.valid

/-- Mark the code at a position as no longer valid. -/
def revoke (t : CallTarget) (i : Nat) : CallTarget :=
  { t with codes := t.codes.modify i fun c => { c with valid := false } }

/-- Install new code. -/
def install (t : CallTarget) (c : Code) : CallTarget :=
  { t with
    codes := t.codes ++ [⟨c, true⟩]
    installed := some t.codes.length
    compilations := t.compilations + 1 }

/-- Drop the installed code and go back to interpretation. -/
def invalidate (t : CallTarget) : CallTarget :=
  match t.installed with
  | some i => { t.revoke i with installed := none }
  | none => t

/-- Note that the code at a position gave up. Code that was invalidated from
outside is not to blame. Otherwise the code is dropped, newer code stays, and
a target that failed too often is disabled. -/
def recordDeopt (t : CallTarget) (i : Nat) (reason : DeoptReason) (maxDeopts : UInt32) :
    CallTarget :=
  if reason = .invalidated then t
  else
    let dropped := { t with installed := if t.installed = some i then none else t.installed }
    let counted := { dropped.revoke i with deopts := t.deopts + 1 }
    if maxDeopts ≤ counted.deopts then { counted with disabled := true } else counted

/-- Whether the invocation with this number should be followed by a
compilation. -/
def wantsCompilation (t : CallTarget) (auto : Bool) (threshold count : UInt64) : Bool :=
  auto && threshold ≤ count && !t.failed && !t.disabled && !t.isCompiled

end CallTarget

/-- The registered targets; a `TargetId` is a position. -/
abbrev Registry := Array CallTarget

end TieredEngine

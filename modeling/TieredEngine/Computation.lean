import TieredEngine.GuestError
/-!
# Bounded computations over a shared state

A computation reads and changes a state, and ends in a result, in an early
exit, or not at all within its bound. The state survives an early exit, so
what a failed run recorded stays recorded. Loops and unbounded searches take
their bound as an argument; a run whose bound was too small is `exhausted`,
which is a different outcome from every result and every exit.
-/

namespace TieredEngine

/-- How a computation ended. -/
inductive Outcome (ε σ α : Type) where
  /-- It finished with a result. -/
  | done (result : α) (state : σ)
  /-- It left early. -/
  | stop (exit : ε) (state : σ)
  /-- Its bound was too small. -/
  | exhausted

/-- A computation over the state `σ` with early exits `ε`. -/
def Comp (ε σ α : Type) : Type := σ → Outcome ε σ α

namespace Comp

variable {ε σ α β : Type}

@[ext]
theorem ext {x y : Comp ε σ α} (h : ∀ s, x s = y s) : x = y := funext h

/-- Run the second computation on the first one's result; exits and exhaustion
pass through. -/
@[inline]
protected def bind (x : Comp ε σ α) (f : α → Comp ε σ β) : Comp ε σ β := fun s =>
  match x s with
  | .done a s => f a s
  | .stop e s => .stop e s
  | .exhausted => .exhausted

instance : Monad (Comp ε σ) where
  pure a := fun s => .done a s
  bind := Comp.bind

instance : LawfulMonad (Comp ε σ) :=
  LawfulMonad.mk' _
    (fun x => by
      funext s
      show Comp.bind x (fun a s => .done a s) s = x s
      unfold Comp.bind
      cases x s <;> rfl)
    (fun _ _ => rfl)
    (fun x f g => by
      funext s
      show Comp.bind (Comp.bind x f) g s = Comp.bind x (fun a => Comp.bind (f a) g) s
      unfold Comp.bind
      cases x s <;> rfl)

/-- Leave early. -/
@[inline]
def leave (e : ε) : Comp ε σ α := fun s => .stop e s

/-- The outcome of a bound that was too small. -/
@[inline]
def exhaust : Comp ε σ α := fun _ => .exhausted

/-- The current state. -/
@[inline]
def state : Comp ε σ σ := fun s => .done s s

/-- Change the state. -/
@[inline]
def update (f : σ → σ) : Comp ε σ Unit := fun s => .done () (f s)

/-- A plain result or failure as a computation that leaves the state alone. -/
@[inline]
def ofExcept (x : Except ε α) : Comp ε σ α := fun s =>
  match x with
  | .ok a => .done a s
  | .error e => .stop e s

/-- Rename the exits. -/
@[inline]
def mapExit {δ : Type} (f : ε → δ) (x : Comp ε σ α) : Comp δ σ α := fun s =>
  match x s with
  | .done a s => .done a s
  | .stop e s => .stop (f e) s
  | .exhausted => .exhausted

/-- Turn an early exit into a result. -/
@[inline]
def attempt {δ : Type} (x : Comp ε σ α) : Comp δ σ (Except ε α) := fun s =>
  match x s with
  | .done a s => .done (.ok a) s
  | .stop e s => .done (.error e) s
  | .exhausted => .exhausted

/-- Run `y` after `x`, whichever way `x` ended, and then end the way `x` did. -/
@[inline]
def always (x : Comp ε σ α) (y : Comp ε σ Unit) : Comp ε σ α := fun s =>
  match x s with
  | .done a s => (do y; return a : Comp ε σ α) s
  | .stop e s => (do y; leave e : Comp ε σ α) s
  | .exhausted => .exhausted

/-- Run a computation on a part of a larger state. -/
@[inline]
def within {τ : Type} (part : τ → σ) (put : σ → τ → τ) (x : Comp ε σ α) : Comp ε τ α := fun t =>
  match x (part t) with
  | .done a s => .done a (put s t)
  | .stop e s => .stop e (put s t)
  | .exhausted => .exhausted

end Comp

end TieredEngine

import Mathlib.Order.Filter.AtTopBot.Basic
import TieredEngine.Computation
/-!
# Refinement of bounded computations

A computation with a bound stands for what it does when the bound is large
enough. `Comp.Refines` compares a computation with a family of bounded ones:
what the first answers, the family answers from some bound on, and the states
stay related. A computation that was exhausted, or that left with an exit
nobody asks about, asks nothing of the family. Raising a bound, replacing a
host and changing the type of the state are all refinements, so each is proved
by the same few rules.
-/

namespace TieredEngine

open Filter

variable {ε σ τ α β : Type}

namespace Outcome

/-- What `x` answers, `y` answers from some bound on, in a related state. -/
inductive Refines (ignored : ε → Prop) (rel : σ → τ → Prop) :
    Outcome ε σ α → (ℕ → Outcome ε τ α) → Prop
  | exhausted {y} : Refines ignored rel .exhausted y
  | ignored {e s y} : ignored e → Refines ignored rel (.stop e s) y
  | done {a s t y} : rel s t → (∀ᶠ b in atTop, y b = .done a t) → Refines ignored rel (.done a s) y
  | stop {e s t y} : rel s t → (∀ᶠ b in atTop, y b = .stop e t) → Refines ignored rel (.stop e s) y

variable {ignored : ε → Prop} {rel : σ → τ → Prop}

theorem Refines.congr {x : Outcome ε σ α} {y z : ℕ → Outcome ε τ α} (h : Refines ignored rel x y)
    (he : ∀ᶠ b in atTop, y b = z b) : Refines ignored rel x z := by
  cases h with
  | exhausted => exact .exhausted
  | ignored hi => exact .ignored hi
  | done hr hy => exact .done hr (by filter_upwards [hy, he] with b h1 h2; rw [← h2, h1])
  | stop hr hy => exact .stop hr (by filter_upwards [hy, he] with b h1 h2; rw [← h2, h1])

/-- An answer is answered from some bound on. -/
theorem Refines.done_inv {a : α} {s : σ} {y : ℕ → Outcome ε τ α}
    (h : Refines ignored rel (.done a s) y) :
    ∃ t, rel s t ∧ ∀ᶠ b in atTop, y b = .done a t := by
  cases h with
  | done hr hy => exact ⟨_, hr, hy⟩

/-- An exit that somebody asks about is taken from some bound on. -/
theorem Refines.stop_inv {e : ε} {s : σ} {y : ℕ → Outcome ε τ α}
    (h : Refines ignored rel (.stop e s) y) (he : ¬ ignored e) :
    ∃ t, rel s t ∧ ∀ᶠ b in atTop, y b = .stop e t := by
  cases h with
  | ignored hi => exact absurd hi he
  | stop hr hy => exact ⟨_, hr, hy⟩

/-- In equal states, a computation that was not exhausted gives its outcome
from some bound on. -/
theorem Refines.settles {x : Outcome ε σ α} {y : ℕ → Outcome ε σ α}
    (h : Refines (fun _ => False) Eq x y) (hx : x ≠ .exhausted) : ∀ᶠ b in atTop, y b = x := by
  cases h with
  | exhausted => exact absurd rfl hx
  | ignored hi => exact hi.elim
  | done hr hy => subst hr; exact hy
  | stop hr hy => subst hr; exact hy

end Outcome

namespace Comp

@[simp]
theorem pure_apply (a : α) (s : σ) : (pure a : Comp ε σ α) s = .done a s := rfl

theorem bind_apply (x : Comp ε σ α) (f : α → Comp ε σ β) (s : σ) :
    (x >>= f) s = match x s with
      | .done a s => f a s
      | .stop e s => .stop e s
      | .exhausted => .exhausted := rfl

theorem bind_done {x : Comp ε σ α} {f : α → Comp ε σ β} {s s' : σ} {a : α} (h : x s = .done a s') :
    (x >>= f) s = f a s' := by
  rw [bind_apply, h]

theorem bind_stop {x : Comp ε σ α} {f : α → Comp ε σ β} {s s' : σ} {e : ε} (h : x s = .stop e s') :
    (x >>= f) s = .stop e s' := by
  rw [bind_apply, h]

theorem bind_exhausted {x : Comp ε σ α} {f : α → Comp ε σ β} {s : σ} (h : x s = .exhausted) :
    (x >>= f) s = .exhausted := by
  rw [bind_apply, h]

theorem state_bind (f : σ → Comp ε σ β) (s : σ) : (Comp.state >>= f) s = f s s := rfl

theorem update_bind (u : σ → σ) (f : Unit → Comp ε σ β) (s : σ) :
    (Comp.update u >>= f) s = f () (u s) := rfl

/-- What a finished sequence of two computations did: the first one finished
too. -/
theorem bind_eq_done {x : Comp ε σ α} {f : α → Comp ε σ β} {s s' : σ} {b : β}
    (h : (x >>= f) s = .done b s') : ∃ a s₁, x s = .done a s₁ ∧ f a s₁ = .done b s' := by
  rw [bind_apply] at h
  cases hx : x s with
  | done a s₁ => rw [hx] at h; exact ⟨a, s₁, rfl, h⟩
  | stop e s₁ => rw [hx] at h; cases h
  | exhausted => rw [hx] at h; cases h

/-- A sequence of two computations that end ends. -/
theorem bind_ne_exhausted {x : Comp ε σ α} {f : α → Comp ε σ β} {s : σ} (hx : x s ≠ .exhausted)
    (hf : ∀ a s', f a s' ≠ .exhausted) : (x >>= f) s ≠ .exhausted := by
  rw [bind_apply]
  cases h : x s with
  | done a s' => exact hf a s'
  | stop e s' => simp
  | exhausted => exact absurd h hx

/-- What finished for a list was made for one of its elements after the
other. -/
theorem mem_of_mapM_eq_done {f : α → Comp ε σ β} {xs : List α} {ys : List β} {s s' : σ}
    (h : xs.mapM f s = .done ys s') : ∀ y ∈ ys, ∃ x ∈ xs, ∃ s₁ s₂, f x s₁ = .done y s₂ := by
  induction xs generalizing ys s with
  | nil =>
    cases h
    simp
  | cons x xs ih =>
    rw [List.mapM_cons] at h
    obtain ⟨y, s₁, h1, h2⟩ := bind_eq_done h
    obtain ⟨ys', s₂, h3, h4⟩ := bind_eq_done h2
    cases h4
    intro z hz
    rcases List.mem_cons.1 hz with rfl | hz
    · exact ⟨x, List.mem_cons_self, _, _, h1⟩
    · obtain ⟨x', hx', h5⟩ := ih h3 z hz
      exact ⟨x', List.mem_cons_of_mem _ hx', h5⟩

/-- What `x` answers, the bounded computations `y` answer from some bound on. -/
def Refines (ignored : ε → Prop) (rel : σ → τ → Prop) (x : Comp ε σ α) (y : ℕ → Comp ε τ α) :
    Prop :=
  ∀ s t, rel s t → Outcome.Refines ignored rel (x s) fun b => y b t

variable {ignored : ε → Prop} {rel : σ → τ → Prop}

theorem refines_pure (a : α) :
    Refines ignored rel (pure a : Comp ε σ α) fun _ => (pure a : Comp ε τ α) :=
  fun _ _ h => .done h (.of_forall fun _ => rfl)

theorem refines_leave (e : ε) :
    Refines ignored rel (leave e : Comp ε σ α) fun _ => (leave e : Comp ε τ α) :=
  fun _ _ h => .stop h (.of_forall fun _ => rfl)

theorem refines_ofExcept (x : Except ε α) :
    Refines ignored rel (ofExcept x : Comp ε σ α) fun _ => (ofExcept x : Comp ε τ α) := by
  intro s t h
  cases x with
  | ok a => exact .done h (.of_forall fun _ => rfl)
  | error e => exact .stop h (.of_forall fun _ => rfl)

/-- The rule for sequences, from one pair of related states. -/
theorem refines_bind_at {x : Comp ε σ α} {y : ℕ → Comp ε τ α} {f : α → Comp ε σ β}
    {g : ℕ → α → Comp ε τ β} {s : σ} {t : τ} (hx : Outcome.Refines ignored rel (x s) fun b => y b t)
    (hf : ∀ a, Refines ignored rel (f a) fun b => g b a) :
    Outcome.Refines ignored rel ((x >>= f) s) fun b => (y b >>= g b) t := by
  rw [bind_apply]
  generalize x s = o at hx
  cases hx with
  | exhausted => exact .exhausted
  | ignored hi => exact .ignored hi
  | done hr hy =>
    exact (hf _ _ _ hr).congr (by filter_upwards [hy] with b hb; rw [bind_done hb])
  | stop hr hy => exact .stop hr (by filter_upwards [hy] with b hb; rw [bind_stop hb])

theorem refines_bind {x : Comp ε σ α} {y : ℕ → Comp ε τ α} {f : α → Comp ε σ β}
    {g : ℕ → α → Comp ε τ β} (hx : Refines ignored rel x y)
    (hf : ∀ a, Refines ignored rel (f a) fun b => g b a) :
    Refines ignored rel (x >>= f) fun b => y b >>= g b :=
  fun s t h => refines_bind_at (hx s t h) hf

/-- The rule for what is done in any case: it has to end, and to keep states
related. -/
theorem refines_always_at {x : Comp ε σ α} {y : ℕ → Comp ε τ α} {z : ℕ → Comp ε τ Unit} {s : σ}
    {t : τ} (hx : Outcome.Refines ignored rel (x s) fun b => y b t)
    (hz : ∀ s t, rel s t → ∃ t', rel s t' ∧ ∀ᶠ b in atTop, z b t = .done () t') :
    Outcome.Refines ignored rel (x s) fun b => (y b).always (z b) t := by
  generalize x s = o at hx
  cases hx with
  | exhausted => exact .exhausted
  | ignored hi => exact .ignored hi
  | @done a s₁ t₁ _ hr hy =>
    obtain ⟨t₂, hr₂, hz₂⟩ := hz s₁ t₁ hr
    refine .done hr₂ ?_
    filter_upwards [hy, hz₂] with b hb hb₂
    rw [always, hb]
    exact bind_done hb₂
  | @stop e s₁ t₁ _ hr hy =>
    obtain ⟨t₂, hr₂, hz₂⟩ := hz s₁ t₁ hr
    refine .stop hr₂ ?_
    filter_upwards [hy, hz₂] with b hb hb₂
    rw [always, hb]
    exact bind_done hb₂

end Comp

end TieredEngine

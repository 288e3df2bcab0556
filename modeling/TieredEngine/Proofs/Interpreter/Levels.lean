import TieredEngine.Proofs.Interpreter.Unfolding
/-!
# Levels of calls

Interpretation in which every callee is interpreted too, with calls nested up
to a level. What happens below the last level is a parameter: nothing ends
there, or every call fails. A level is a host that counts tests and unfolds
(`level_unfolds`), because one more level changes no answer except where the
last level was asked.
-/

namespace TieredEngine

open Filter (atTop)

variable {ε σ α : Type}

/-- The computation below the last level: it fails, or it does not end. -/
def Comp.bottom : Option ε → Comp ε σ α
  | some e => Comp.leave e
  | none => Comp.exhaust

open Classical in
/-- What a bounded computation gives for bounds that are large enough. -/
noncomputable def Comp.limit (x : ℕ → Comp ε σ α) : Comp ε σ α := fun s =>
  if h : ∃ k, x k s ≠ .exhausted then x h.choose s else .exhausted

/-- A limit that is not exhausted is reached. -/
theorem Comp.limit_reached {x : ℕ → Comp ε σ α} {s : σ} (h : Comp.limit x s ≠ .exhausted) :
    ∃ k, x k s = Comp.limit x s := by
  unfold Comp.limit at h ⊢
  split
  · exact ⟨_, rfl⟩
  · exact absurd (dif_neg ‹_›) h

/-- The limit of a computation whose answers stay is any of its answers. -/
theorem Comp.limit_eq {x : ℕ → Comp ε σ α} {s : σ}
    (hx : ∀ k, x k s ≠ .exhausted → ∀ᶠ b in atTop, x b s = x k s) {k : ℕ}
    (hk : x k s ≠ .exhausted) : Comp.limit x s = x k s := by
  unfold Comp.limit
  rw [dif_pos ⟨k, hk⟩]
  have hchoose := (⟨k, hk⟩ : ∃ k, x k s ≠ .exhausted).choose_spec
  obtain ⟨b, h1, h2⟩ := ((hx _ hchoose).and (hx k hk)).exists
  rw [← h1, h2]

namespace Interpreter

/-- Raising the bound keeps a finished answer. -/
theorem execute_settles {h : Host σ} {k : ℕ} {r : Routine} {vs : List Value} {w : σ}
    (hk : execute h k r vs w ≠ .exhausted) :
    ∀ᶠ b in atTop, execute h b r vs w = execute h k r vs w :=
  (execute_refines (.refl h) k (reads_all r.body) (fun _ _ => rfl) w w rfl).settles hk

/-- The host whose calls are interpreted `level` calls deep. -/
noncomputable def level (routines : TargetId → Option Routine)
  (base : Option GuestError) : ℕ → Host ℕ
  | 0 => ⟨fun _ _ => Comp.bottom base, fun _ _ w => w + 1⟩
  | R + 1 => {
      call := fun target vs => match routines target with
        | some r => Comp.limit fun k => execute (level routines base R) k r vs
        | none => Comp.leave (.unknownTarget target)
      recordBranch := fun _ _ w => w + 1 }

variable {routines : TargetId → Option Routine} {base : Option GuestError}
    {ignored : GuestError → Prop} {target : TargetId} {r : Routine} {vs : List Value} {w : ℕ}

theorem level_record (R : ℕ) (id : ExprId) (taken : Bool) (w : ℕ) :
    (level routines base R).recordBranch id taken w = w + 1 := by
  cases R <;> rfl

/-- What a call answers at a level is what the routine answers at the level
below. -/
theorem level_call (R : ℕ) (hr : routines target = some r) :
    (level routines base (R + 1)).call target vs = Comp.limit fun k =>
      execute (level routines base R) k r vs := by
  simp only [level, hr]

theorem level_call_none (R : ℕ) (hr : routines target = none) :
    (level routines base (R + 1)).call target vs = Comp.leave (.unknownTarget target) := by
  simp only [level, hr]

/-- A finished run of a routine is what a call of it answers one level
higher. -/
theorem level_call_eq (R : ℕ) (hr : routines target = some r) {k : ℕ}
    (hk : execute (level routines base R) k r vs w ≠ .exhausted) :
    (level routines base (R + 1)).call target vs w = execute (level routines base R) k r vs w := by
  rw [level_call R hr]
  exact Comp.limit_eq (x := fun k => execute (level routines base R) k r vs)
    (fun k hk => execute_settles hk) hk

/-- What a call answers was answered by a run of the routine one level below. -/
theorem level_call_reached (R : ℕ) (hr : routines target = some r)
    (h : (level routines base (R + 1)).call target vs w ≠ .exhausted) : ∃ k,
    execute (level routines base R) k r vs w = (level routines base (R + 1)).call target vs w := by
  rw [level_call R hr] at h ⊢
  exact Comp.limit_reached h

/-- What refines to the runs of a routine refines to a call of it one level
higher. -/
theorem refines_level_call {rel : σ → ℕ → Prop} {x : Outcome GuestError σ Value} (R : ℕ)
    (hr : routines target = some r)
    (h : Outcome.Refines ignored rel x fun b => execute (level routines base R) b r vs w) :
    Outcome.Refines ignored rel x fun _ => (level routines base (R + 1)).call target vs w := by
  have hup : ∀ o : Outcome GuestError ℕ Value, o ≠ .exhausted →
      (∀ᶠ b in atTop, execute (level routines base R) b r vs w = o) →
      (level routines base (R + 1)).call target vs w = o := by
    intro o ho h
    obtain ⟨b, hb⟩ := h.exists
    rw [← hb] at ho ⊢
    exact level_call_eq R hr ho
  cases h with
  | exhausted => exact .exhausted
  | ignored hi => exact .ignored hi
  | done h1 h2 => exact .done h1 (.of_forall fun _ => hup _ (by simp) h2)
  | stop h1 h2 => exact .stop h1 (.of_forall fun _ => hup _ (by simp) h2)

theorem level_counts (R : ℕ) : (level routines base R).Counts := by
  induction R with
  | zero =>
    refine ⟨fun _ _ _ => rfl, fun target vs w hne => ?_⟩
    cases base with
    | none => exact absurd rfl hne
    | some e => exact Nat.le_refl _
  | succ R ih =>
    refine ⟨fun _ _ _ => rfl, fun target vs w hne => ?_⟩
    cases hr : routines target with
    | none =>
      rw [level_call_none R hr]
      exact Nat.le_refl _
    | some r =>
      obtain ⟨k, hk⟩ := level_call_reached R hr hne
      rw [← hk] at hne ⊢
      exact execute_counts ih hne

/-- One more level changes nothing that anybody asks about. -/
theorem level_refines (hb : ∀ e ∈ base, ignored e) (R : ℕ) :
    (level routines base R).Refines ignored Eq fun _ => level routines base (R + 1) := by
  induction R with
  | zero =>
    refine ⟨fun target vs w w' hw => ?_, fun id taken w w' hw => ⟨_, rfl, fun _ => by rw [hw]; rfl⟩⟩
    cases base with
    | none => exact .exhausted
    | some e => exact .ignored (hb e rfl)
  | succ R ih =>
    refine ⟨fun target vs w w' hw => ?_, fun id taken w w' hw => ⟨_, rfl, fun _ => by rw [hw]; rfl⟩⟩
    subst hw
    cases hr : routines target with
    | none =>
      rw [level_call_none R hr]
      exact .stop rfl (.of_forall fun _ => by rw [level_call_none (R + 1) hr]; rfl)
    | some r =>
      by_cases hne : (level routines base (R + 1)).call target vs w = .exhausted
      · rw [hne]
        exact .exhausted
      obtain ⟨k, hk⟩ := level_call_reached R hr hne
      rw [← hk]
      exact refines_level_call (R + 1) hr
        (execute_refines ih k (reads_all r.body) (fun _ _ => rfl) w w rfl)

/-- A level unfolds its calls. -/
theorem level_unfolds (hb : ∀ e ∈ base, ignored e) (R : ℕ) :
    (level routines base R).Unfolds (fun target r => routines target = some r) ignored := by
  refine { level_counts R with unfold := fun target r vs w hr hne hi => ?_ }
  cases R with
  | zero =>
    cases base with
    | none => exact absurd rfl hne
    | some e => exact absurd (hb e rfl) (hi e w rfl)
  | succ R =>
    obtain ⟨k, hk⟩ := level_call_reached R hr hne
    rw [← hk] at hne hi ⊢
    have hrun : Outcome.Refines ignored Eq (execute (level routines base R) k r vs w)
        fun b => execute (level routines base (R + 1)) b r vs w :=
      execute_refines (level_refines hb R) k (reads_all r.body) (fun _ _ => rfl) w w rfl
    generalize execute (level routines base R) k r vs w = o at hrun hne hi
    cases hrun with
    | exhausted => exact absurd rfl hne
    | ignored he => exact absurd he (hi _ _ rfl)
    | done h1 h2 => exact h1 ▸ h2.exists
    | stop h1 h2 => exact h1 ▸ h2.exists

end Interpreter

end TieredEngine

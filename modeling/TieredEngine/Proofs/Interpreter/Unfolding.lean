import TieredEngine.Proofs.Interpreter.Resumption
import TieredEngine.Proofs.Code.Certificates
/-!
# Hosts that interpret their calls

A host is one that unfolds when calling a routine answers what running the
routine on the same host answers, so that a call may be replaced by the
routine's body. Its state counts the tests that conditionals and loops make,
in callees too, and a run never counts backwards.
-/

namespace TieredEngine

open Filter (atTop)

/-- The state of a host counts tests. -/
structure Host.Counts (h : Host ℕ) : Prop where
  record : ∀ id taken w, h.recordBranch id taken w = w + 1
  counts : ∀ target vs w, h.call target vs w ≠ .exhausted → w ≤ (h.call target vs w).final

/-- The calls of a host that counts are runs of the registered routines, up to
errors nobody asks about. -/
structure Host.Unfolds (routines : TargetId → Routine → Prop) (ignored : GuestError → Prop)
    (h : Host ℕ) : Prop extends h.Counts where
  unfold : ∀ target r vs w, routines target r → h.call target vs w ≠ .exhausted →
    (∀ e w', h.call target vs w = .stop e w' → ¬ ignored e) →
    ∃ k, Interpreter.execute h k r vs w = h.call target vs w

variable {routines : TargetId → Routine → Prop} {ignored : GuestError → Prop} {h : Host ℕ}

/-- A host that counts keeps every lower bound on the count. -/
theorem Host.Counts.keeps_count (hh : h.Counts) (w₀ : ℕ) :
    h.Refines (fun _ => False) (fun w w' => w = w' ∧ w₀ ≤ w) fun _ => h where
  call target vs w w' hw := by
    obtain ⟨rfl, hle⟩ := hw
    have hc := hh.counts target vs w
    cases ho : h.call target vs w with
    | exhausted => exact .exhausted
    | done v w' =>
      have := hc (by simp [ho])
      rw [ho] at this
      exact .done ⟨rfl, hle.trans this⟩ (.of_forall fun _ => ho)
    | stop e w' =>
      have := hc (by simp [ho])
      rw [ho] at this
      exact .stop ⟨rfl, hle.trans this⟩ (.of_forall fun _ => ho)
  record id taken w w' hw := by
    obtain ⟨rfl, hle⟩ := hw
    exact ⟨_, ⟨rfl, by rw [hh.record]; omega⟩, fun _ => rfl⟩

namespace Interpreter

/-- A run does not count backwards. -/
theorem execute_counts (hh : h.Counts) {k : ℕ} {r : Routine} {vs : List Value} {w : ℕ}
    (hne : execute h k r vs w ≠ .exhausted) : w ≤ (execute h k r vs w).final := by
  have hrun : Outcome.Refines (fun _ => False) (fun w₁ w' => w₁ = w' ∧ w ≤ w₁) (execute h k r vs w)
      fun b => execute h b r vs w :=
    execute_refines (hh.keeps_count w) k (reads_all r.body) (fun _ _ => rfl) w w
      ⟨rfl, Nat.le_refl _⟩
  generalize execute h k r vs w = o at hrun hne
  cases hrun with
  | exhausted => exact absurd rfl hne
  | ignored hi => exact hi.elim
  | done hr _ => exact hr.2
  | stop hr _ => exact hr.2

/-- What is left at a moment does not count backwards. -/
theorem rest_counts (hh : h.Counts) {m : Moment ℕ} {k : ℕ} (hne : m.rest h k ≠ .exhausted) :
    m.activation.world ≤ (m.rest h k).final := by
  have href := hh.keeps_count m.activation.world
  have htodo : EvalRefines (fun _ => False) (fun _ => True)
      (fun w w' => w = w' ∧ m.activation.world ≤ w) (m.todo h k) fun b => m.todo h b := by
    cases m with
    | enter ss e a =>
      exact fill_refines href k (reads_all_slots ss) (eval_refines href k (reads_all e))
    | ready ss e vs a =>
      exact fill_refines href k (reads_all_slots ss) (act_refines href k (reads_all e) vs)
    | back ss e v a => exact fill_refines href k (reads_all_slots ss) (Comp.refines_pure v)
    | value ss v a => exact fill_refines href k (reads_all_slots ss) (Comp.refines_pure v)
  have hrest : Outcome.Refines (fun _ => False) (fun w w' => w = w' ∧ m.activation.world ≤ w)
      (m.rest h k)
      fun b => conclude (m.todo h b) m.activation.frame m.activation.world :=
    conclude_refines htodo rfl (fun _ _ => rfl) _ _ ⟨rfl, Nat.le_refl _⟩
  generalize m.rest h k = o at hrest hne
  cases hrest with
  | exhausted => exact absurd rfl hne
  | ignored hi => exact hi.elim
  | done hr _ => exact hr.2
  | stop hr _ => exact hr.2

/-- How a chain of suspended frames ends: each frame's result goes on the
stack of the frame waiting for it. -/
inductive Resumes (routines : TargetId → Routine → Prop) (h : Host ℕ) :
    SuspendedFrame → List SuspendedFrame → ℕ → Outcome GuestError ℕ Value → Prop
  | last {f r k w o} : routines f.target r → resume h k r f w = o → o ≠ .exhausted →
    Resumes routines h f [] w o
  | fail {f caller callers r k w e w'} : routines f.target r → resume h k r f w = .stop e w' →
    Resumes routines h f (caller :: callers) w (.stop e w')
  | more {f caller callers r k w v w' o} : routines f.target r → resume h k r f w = .done v w' →
    Resumes routines h (caller.push v) callers w' o → Resumes routines h f (caller :: callers) w o

end Interpreter

end TieredEngine

import TieredEngine.Engine.Invoke
import TieredEngine.Proofs.Interpreter.Levels
import TieredEngine.Proofs.Specialize.Inlining
/-!
# Interpretation as the reference

What every run is compared with: a target is interpreted, and so is every
target that it calls. Calls may nest up to some room; behind it nothing ends,
or every call fails. The levels of interpretation give the same answers
(`interpretWithin_refines`, `level_refines_interpretWithin`), and frames that
are handed over end as the levels say (`resumeFrames_refines`).
-/

namespace TieredEngine

open Filter (atTop)
open Specialize (routinesOf)

namespace Engine

/-- Interpret a target, and every target that is called on the way, with room
for some nested calls. -/
def interpretWithin (base : Option GuestError) (bound : ℕ) : (room : ℕ) → Dispatch
  | 0, _, _ => Comp.bottom base
  | room + 1, id, arguments => do
    match (← Comp.state).targets[id]? with
    | none => Comp.leave (.unknownTarget id)
    | some t =>
      Interpreter.execute (interpreterHost (interpretWithin base bound room) id) bound
        t.routine arguments

/-- The state has these routines. -/
def State.Has (routines : TargetId → Option Routine) (s : State) : Prop :=
  routinesOf s.targets = routines

variable {routines : TargetId → Option Routine} {base : Option GuestError}
    {ignored : GuestError → Prop}

theorem State.Has.modifyTarget {s : State} (h : s.Has routines) (id : TargetId)
    {f : CallTarget → CallTarget} (hf : ∀ t, (f t).routine = t.routine) :
    (s.modifyTarget id f).Has routines := by
  rw [State.Has, ← h]
  funext target
  simp only [routinesOf, State.modifyTarget, Array.getElem?_modify]
  split
  · cases s.targets[target]? <;> simp [hf]
  · rfl

theorem State.Has.modifyProfile {s : State} (h : s.Has routines) (id : TargetId)
    (f : Profile → Profile) :
    (s.modifyProfile id f).Has routines :=
  h.modifyTarget id fun _ => rfl

/-! ## Interpretation and levels -/

/-- The interpreter's records change profiles only. -/
theorem refines_interpreterHost {h : Host ℕ} {call : ℕ → Dispatch} {J : State → Prop}
    (hcall : ∀ target vs,
        Comp.Refines ignored (fun _ s => J s) (h.call target vs) fun b => call b target vs)
    (hJ : ∀ s id node taken, J s → J (s.modifyProfile id (·.recordBranch node taken)))
    (id : TargetId) :
    h.Refines ignored (fun _ s => J s) fun b => interpreterHost (call b) id where
  call := hcall
  record node taken _ s hs := ⟨_, hJ s id node taken hs, fun _ => rfl⟩

theorem interpretWithin_apply {bound room : ℕ} {id : TargetId} {arguments : List Value} {s : State}
    {t : CallTarget} (h : s.targets[id]? = some t) :
    interpretWithin base bound (room + 1) id arguments s =
      Interpreter.execute (interpreterHost (interpretWithin base bound room) id) bound t.routine
        arguments s := by
  rw [interpretWithin, Comp.state_bind]
  simp only [h]

theorem interpretWithin_unknown {bound room : ℕ} {id : TargetId} {arguments : List Value}
    {s : State} (h : s.targets[id]? = none) :
    interpretWithin base bound (room + 1) id arguments s = .stop (.unknownTarget id) s := by
  rw [interpretWithin, Comp.state_bind]
  simp only [h]
  rfl

/-- Interpretation is a level of calls. -/
theorem interpretWithin_refines (base : Option GuestError) (bound room : ℕ) : ∀ id arguments,
    Comp.Refines (fun _ => False) (fun (s : State) (_ : ℕ) => s.Has routines)
      (interpretWithin base bound room id arguments)
      fun _ => (Interpreter.level routines base room).call id arguments := by
  induction room with
  | zero =>
    intro id arguments s w hs
    cases base with
    | none => exact .exhausted
    | some e => exact .stop hs (.of_forall fun _ => rfl)
  | succ room ih =>
    intro id arguments s w hs
    have hhost : (interpreterHost (interpretWithin base bound room) id).Refines (fun _ => False)
        (fun (s : State) (_ : ℕ) => s.Has routines) fun _ => Interpreter.level routines base room :=
      ⟨ih, fun node taken s w hs =>
          ⟨w + 1, hs.modifyProfile id _, fun _ => Interpreter.level_record room node taken w⟩⟩
    cases ht : s.targets[id]? with
    | none =>
      have hr : routines id = none := by rw [← hs]; simp [routinesOf, ht]
      rw [interpretWithin_unknown ht]
      exact .stop hs (.of_forall fun _ => by rw [Interpreter.level_call_none room hr]; rfl)
    | some t =>
      have hr : routines id = some t.routine := by rw [← hs]; simp [routinesOf, ht]
      rw [interpretWithin_apply ht]
      exact Interpreter.refines_level_call room hr
        (Interpreter.execute_refines hhost bound (Interpreter.reads_all _) (fun _ _ => rfl) s w hs)

/-- A level of calls is interpretation with at least that much room. -/
theorem level_refines_interpretWithin (hb : ∀ e ∈ base, ignored e) (R : ℕ) :
    ∀ room : ℕ → ℕ, (∀ᶠ b in atTop, R ≤ room b) → ∀ id arguments,
      Comp.Refines ignored (fun (_ : ℕ) (s : State) => s.Has routines)
        ((Interpreter.level routines base R).call id arguments) fun b =>
          interpretWithin base b (room b) id arguments := by
  induction R with
  | zero =>
    intro room _ id arguments w s _
    cases base with
    | none => exact .exhausted
    | some e => exact .ignored (hb e rfl)
  | succ R ih =>
    intro room hroom id arguments w s hs
    have hless : ∀ᶠ b in atTop, R ≤ room b - 1 := by
      filter_upwards [hroom] with b hb
      omega
    have hpos : ∀ᶠ b in atTop, room b = room b - 1 + 1 := by
      filter_upwards [hroom] with b hb
      omega
    cases ht : s.targets[id]? with
    | none =>
      have hr : routines id = none := by rw [← hs]; simp [routinesOf, ht]
      rw [Interpreter.level_call_none R hr]
      refine .stop hs ?_
      filter_upwards [hpos] with b hb
      rw [hb, interpretWithin_unknown ht]
    | some t =>
      have hr : routines id = some t.routine := by rw [← hs]; simp [routinesOf, ht]
      by_cases hne : (Interpreter.level routines base (R + 1)).call id arguments w = .exhausted
      · rw [hne]
        exact .exhausted
      obtain ⟨k, hk⟩ := Interpreter.level_call_reached R hr hne
      rw [← hk]
      have hhost := refines_interpreterHost (ih (fun b => room b - 1) hless)
        (fun s id _ _ hs => hs.modifyProfile id _) id
      refine (Interpreter.execute_refines hhost k (Interpreter.reads_all t.routine.body)
        (fun _ _ => rfl) w s hs).congr ?_
      filter_upwards [hpos] with b hb
      rw [hb, interpretWithin_apply ht, Nat.add_sub_cancel]

/-! ## Frames that are handed over -/

/-- Frames end in the engine as they end on the host that its calls refine. -/
theorem resumeFrames_refines {h : Host ℕ} {call : ℕ → Dispatch} {J : State → Prop}
    (hcall : ∀ target vs,
        Comp.Refines ignored (fun _ s => J s) (h.call target vs) fun b => call b target vs)
    (hJ : ∀ s id node taken, J s → J (s.modifyProfile id (·.recordBranch node taken)))
    (hhas : ∀ s, J s → s.Has routines) {f : SuspendedFrame} {callers : List SuspendedFrame} {w : ℕ}
    {o : Outcome GuestError ℕ Value}
    (hr : Interpreter.Resumes (fun target r => routines target = some r) h f callers w o)
    (ho : ∀ e w', o = .stop e w' → ¬ ignored e) :
    ∀ {s}, J s →
      Outcome.Refines ignored (fun _ s => J s) o fun b => resumeFrames (call b) b f callers s := by
  have hframe : ∀ {f : SuspendedFrame} {r : Routine} {k w : ℕ} {s : State},
      routines f.target = some r → J s → Outcome.Refines ignored (fun _ s => J s)
      (Interpreter.resume h k r f w) fun b => resumeFrame (call b) b f s := by
    intro f r k w s hr hs
    obtain ⟨t, ht, rfl⟩ : ∃ t, s.targets[f.target]? = some t ∧ t.routine = r := by
      rw [← hhas s hs] at hr
      simpa [routinesOf] using hr
    refine (Interpreter.resume_refines (refines_interpreterHost hcall hJ f.target) k t.routine f w s
      hs).congr (.of_forall fun b => ?_)
    rw [resumeFrame, Comp.state_bind]
    simp only [ht]
  induction hr with
  | last hr ho' hne =>
    intro s hs
    rw [← ho']
    exact hframe hr hs
  | @fail f caller callers r k w e w' hr hf =>
    intro s hs
    have h1 : Outcome.Refines ignored (fun _ s => J s) (.stop e w') fun b =>
        resumeFrame (call b) b f s := hf ▸ hframe hr hs
    obtain ⟨s', hs', hb⟩ := h1.stop_inv (ho e w' rfl)
    refine .stop hs' ?_
    filter_upwards [hb] with b hb
    exact Comp.bind_stop hb
  | @more f caller callers r k w v w' o hr hf _ ih =>
    intro s hs
    have h1 : Outcome.Refines ignored (fun _ s => J s) (.done v w') fun b =>
        resumeFrame (call b) b f s := hf ▸ hframe hr hs
    obtain ⟨s', hs', hb⟩ := h1.done_inv
    refine (ih ho hs').congr ?_
    filter_upwards [hb] with b hb
    rw [resumeFrames, Comp.bind_done hb]

end Engine

end TieredEngine

import TieredEngine.Proofs.Specialize.Frames
/-!
# Specialization succeeds

A plan that was made for a routine names registered targets only, and where
words can count slots and values nothing else can go wrong:
`specialize_isSSA`. The last word is the one slot that no routine counts, so a
routine that touches it is not specialized.
-/

namespace TieredEngine

namespace Engine

open Specialize

variable {targets : Registry} {id : TargetId} {t : CallTarget} {plan : Plan}

theorem PlannedFor.root {r : Routine} (h : PlannedFor targets id r plan) : plan.root = id := by
  rcases h with rfl | ⟨earlier, policy, budget, bound, hb, -⟩
  · rfl
  · unfold Plan.build at hb
    split at hb
    · cases hb
      rfl
    · cases hb
    · cases hb

/-- Where words fit, specialization never fails under a plan that was made for
the routine. -/
theorem sound_specialize (hplan : PlannedFor targets id t.routine plan)
    (hwords : FitsWords targets t.routine) :
    ∃ g, specialize targets id t plan = .ok g ∧ Sound g [] ∧ g.FramesCounted := by
  have hroot : plan.root = id := PlannedFor.root hplan
  have hslots : ∀ r ∈ withRegistered targets t.routine, SlotsBelow (fun _ => False) r.localCount
      r.body := fun r hr => slotsBelow_body fun hmisses => absurd (hwords.slots r hr) hmisses
  have hy : Yields (fun _ => False) ⟨Graph.init t.routine.name, []⟩
      (buildRoutine id t (entriesOf targets plan.entries)) _ :=
    yields_buildRoutine (hslots _ List.mem_cons_self) fun c hc =>
      enters_of_suits (fun v hv => hslots _ (mem_withRegistered hv)) hplan.suits hc
  cases hrun : (buildRoutine id t (entriesOf targets plan.entries)).run
    ⟨Graph.init t.routine.name, []⟩ with
  | error e => exact (hy.error hrun).elim
  | ok r =>
    obtain ⟨u, b⟩ := r
    have hs : Sound b.graph [] := hy.result hrun
    have hcounted : b.graph.FramesCounted := framesCounted_of_run hroot hwords hrun hs
    refine ⟨b.graph, ?_, hs, hcounted⟩
    rw [specialize_eq hroot hrun, (hs.isSSA hcounted).verified]

theorem specialize_succeeds (hplan : PlannedFor targets id t.routine plan)
    (hwords : FitsWords targets t.routine) :
    ∃ g, specialize targets id t plan = .ok g := by
  obtain ⟨g, hg, -⟩ := sound_specialize hplan hwords
  exact ⟨g, hg⟩

/-- A target that counts down from its argument in a loop. -/
def countdown : CallTarget :=
  .ofRoutine (.ofBody "countdown" 1 (.block 0 [.writeLocal 0 0 (.argument 0 0),
    .whileLoop 0 (.binary 0 .lessThan (.constant 0 (.int 0)) (.readLocal 0 0))
      (.writeLocal 0 0 (.binary 0 .sub (.readLocal 0 0) (.constant 0 (.int 1)))),
    .readLocal 0 0]))

/-- A target that calls the first one. -/
def countdownTwice : CallTarget :=
  .ofRoutine (.ofBody "twice" 1 (.call 0 0 [.call 0 0 [.argument 0 0]]))

theorem fitsWords_countdown :
    FitsWords #[countdown] countdown.routine := ⟨by decide, by decide, by decide⟩

/-- Its graph under a plan that inlines nothing. -/
theorem specialize_countdown : ∃ g, specialize #[countdown] 0 countdown (.empty 0) = .ok g :=
  specialize_succeeds (.inl rfl) fitsWords_countdown

theorem fitsWords_countdownTwice : FitsWords #[countdown, countdownTwice] countdownTwice.routine :=
  ⟨by decide, by decide, by decide⟩

/-- A target that returns what is in the last slot that a word can name. -/
def lastSlot : CallTarget :=
  .ofRoutine (.ofBody "last" 0 (.ret 0 (.readLocal 0 0xFFFFFFFFFFFFFFFF)))

end Engine

end TieredEngine

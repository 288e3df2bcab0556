import TieredEngine.Proofs.Engine.Reference
import TieredEngine.Proofs.Specialize.Whole
/-!
# Specialization preserves meaning

Running the graph of a routine ends with the answer that interpreting the
routine has: with its value, with its error, or by handing frames over that
the interpreter resumes to it. `run_specialized` says so for any host whose
calls refine those of the setting; `specialize_preserves_interpretation` is
the case where every call is interpreted, with code that may be invalidated
behind any of its calls.
-/

namespace TieredEngine

open Filter (atTop)
open Specialize (routinesOf argumentsOf specialize)

/-! ## Arguments -/

/-- A routine reads no arguments but those it counts, and nothing at the last
word. -/
theorem Routine.reads (r : Routine) :
    Interpreter.Reads (fun i => IsIndex i → i.toNat < r.argumentCount) r.body := by
  intro x hx i hi
  exact Expr.lt_bound (List.mem_filterMap.2 ⟨x, hx, hi⟩)

/-- A routine does the same on the arguments that its parameters hold. -/
theorem Interpreter.execute_argumentsOf {σ : Type} {h : Host σ} {k : ℕ} {r : Routine}
    {vs : List Value} {w : σ} (hne : execute h k r vs w ≠ .exhausted) :
    ∃ k', execute h k' r (argumentsOf r vs) w = execute h k r vs w := by
  have hrun : Outcome.Refines (fun _ => False) Eq (execute h k r vs w) fun b =>
      execute h b r (argumentsOf r vs) w := by
    refine execute_refines (.refl h) k r.reads (fun i hi => ?_) w w rfl
    by_cases hindex : IsIndex i
    · have hlt : i.toNat < max r.parameters r.argumentCount :=
        lt_of_lt_of_le (hi hindex) (le_max_right _ _)
      simp [atWord?, hindex, argumentsOf, List.getElem?_range hlt]
    · simp [atWord?, hindex]
  exact (hrun.settles hne).exists

/-! ## Running the graph of a routine -/

namespace Engine

variable {targets : Registry} {id : TargetId} {t : CallTarget} {plan : Plan} {g : Graph}

/-- The plan was made for the routine: it inlines nothing, or it was built
over targets that are still registered. -/
def PlannedFor (targets : Registry) (id : TargetId) (r : Routine) (plan : Plan) : Prop :=
  plan = .empty id ∨ ∃ (earlier : Registry) (policy : InliningPolicy) (budget bound : ℕ),
    (Plan.build earlier policy budget bound id r () : Outcome CompileError Unit Plan) = .done plan
      () ∧ ∀ target r, routinesOf earlier target = some r → routinesOf targets target = some r

/-- A plan is made for the routine that it is built for. -/
theorem PlannedFor.of_build {σ : Type} {policy : InliningPolicy} {budget bound : ℕ} {r : Routine}
    {s s' : σ} (h : Plan.build targets policy budget bound id r s = .done plan s') :
    PlannedFor targets id r plan := by
  refine .inr ⟨targets, policy, budget, bound, ?_, fun _ _ h => h⟩
  unfold Plan.build at h ⊢
  split at h <;> cases h
  rfl

theorem PlannedFor.suits {r : Routine} (h : PlannedFor targets id r plan) :
    ∀ e ∈ plan.entries, e.Suits (routinesOf targets) r := by
  rcases h with rfl | ⟨earlier, policy, budget, bound, hb, hsame⟩
  · simp [Plan.empty]
  · unfold Plan.build at hb
    split at hb
    · cases hb
      exact fun e he => (Specialize.suits_of_decideSites bound ‹_› e he).mono hsame
    · cases hb
    · cases hb

/-- A run on some arguments, with calls that are interpreted down to a level. -/
noncomputable def atLevel (routines : TargetId → Option Routine) (base : Option GuestError)
  (ignored : GuestError → Prop) (R : ℕ) (arguments : List Value) : Specialize.Setting where
  arguments := arguments
  host := Interpreter.level routines base R
  routines target r := routines target = some r
  ignored := ignored
  counts := Interpreter.level_counts R

theorem atLevel_unfolds {routines : TargetId → Option Routine} {base : Option GuestError}
    {ignored : GuestError → Prop} (hb : ∀ e ∈ base, ignored e) (R : ℕ) (arguments : List Value) :
    (atLevel routines base ignored R arguments).Unfolds :=
  Interpreter.level_unfolds hb R

/-- The graph of a routine answers what the routine does on a host that the
code's calls refine. -/
theorem run_specialized {τ : Type} {X : Specialize.Setting} {c : Code}
    (hg : specialize targets id t plan = .ok g) (hr : X.routines id t.routine)
    (hplan : PlannedFor targets id t.routine plan) (hX : X.Knows targets)
    (hunfolds : X.Unfolds ∨ plan.InlinesNothing) (hc : c.graph = g)
    {calls : ℕ → TargetId → List Value → Comp GuestError τ Value} {valid : τ → Bool} {J : τ → Prop}
    (hcalls : ∀ target vs,
        Comp.Refines X.ignored (fun _ s => J s) (X.host.call target vs) fun b => calls b target vs)
    {k w : ℕ} (hne : Interpreter.execute X.host k t.routine X.arguments w ≠ .exhausted)
    (hheeds : X.Heeds (Interpreter.execute X.host k t.routine X.arguments w)) {world : τ}
    (hJ : J world) :
    ∃ y, Code.Answers J X.meaning (Interpreter.execute X.host k t.routine X.arguments w) y ∧
      ∀ᶠ b in atTop, c.run ⟨calls b, valid⟩ b X.arguments world = y := by
  obtain ⟨hflows, L, hL⟩ := Specialize.certified_of_specialize hg hr hX
    (hunfolds.imp (fun h => ⟨h, hplan.suits⟩) fun h => .inr h)
  subst hc
  obtain ⟨k', hk'⟩ := Interpreter.execute_argumentsOf hne
  rw [← hk'] at hne hheeds ⊢
  exact Code.run_of_certificate (P := fun id => X.point c.graph (L id)) hflows hL.edges
    (fun q ρ w o h => h.2.counts X.counts) hcalls hheeds hL.starts.good
    ⟨hheeds, hL.starts.ends k' w hne⟩ hJ

/-! ## With interpreted calls -/

/-- What an outcome answers: a value, or an error. -/
def answer? {σ : Type} : Outcome GuestError σ Value → Option (Except GuestError Value)
  | .done v _ => some (.ok v)
  | .stop e _ => some (.error e)
  | .exhausted => none

/-- What refines an answer that somebody asks about comes to an outcome with
that answer. -/
theorem outcome_of_refines {σ τ : Type} {ignored : GuestError → Prop} {rel : σ → τ → Prop}
    {o : Outcome GuestError σ Value} {y : ℕ → Outcome GuestError τ Value}
    {answer : Except GuestError Value} (h : Outcome.Refines ignored rel o y)
    (ho : answer? o = some answer) (hi : ∀ e, answer = .error e → ¬ ignored e) :
    ∃ o', answer? o' = some answer ∧ ∀ᶠ b in atTop, y b = o' := by
  cases h with
  | exhausted => cases ho
  | ignored he => exact absurd he (hi _ (Option.some.inj ho).symm)
  | done _ hb => exact ⟨_, ho, hb⟩
  | stop _ hb => exact ⟨_, ho, hb⟩

/-- What refines an answer that somebody asks about has it too. -/
theorem answer_of_refines {σ τ : Type} {ignored : GuestError → Prop} {rel : σ → τ → Prop}
    {o : Outcome GuestError σ Value} {y : ℕ → Outcome GuestError τ Value}
    {answer : Except GuestError Value} (h : Outcome.Refines ignored rel o y)
    (ho : answer? o = some answer) (hi : ∀ e, answer = .error e → ¬ ignored e) :
    ∀ᶠ b in atTop, answer? (y b) = some answer := by
  obtain ⟨o', ho', hb⟩ := outcome_of_refines h ho hi
  exact hb.mono fun b hb => by rw [hb, ho']

/-- What running code sees when all its calls are interpreted, however deep
they nest. The number of calls is counted, so the code may be found invalid
behind any of them. -/
def interpretedCalls (bound : ℕ) (valid : State × ℕ → Bool) : Code.Host (State × ℕ) where
  call id arguments :=
    Comp.within Prod.fst (fun s w => (s, w.2 + 1)) (interpretWithin none bound bound id arguments)
  valid := valid

/-- A run of code ends with an answer: by itself, or with frames that the
interpreter resumes to it. -/
def EndsWith (answer : Except GuestError Value) : Outcome GuestError (State × ℕ) Code.Result → Prop
  | .done (.returned v) _ => answer = .ok v
  | .done (.deoptimized _ snapshot) (s, _) =>
    ∃ least, ∀ bound ≥ least, answer? (resumeFrames
      (interpretWithin none bound bound) bound snapshot.innermost snapshot.callers s) = some answer
  | .stop e _ => answer = .error e
  | .exhausted => False

variable {routines : TargetId → Option Routine}

theorem interpretedCalls_refine (R : ℕ) (valid : State × ℕ → Bool) (id : TargetId)
    (arguments : List Value) :
    Comp.Refines (fun _ => False) (fun (_ : ℕ) (w : State × ℕ) => w.1.Has routines)
      ((Interpreter.level routines none R).call id arguments) fun b =>
        (interpretedCalls b valid).call id arguments := by
  intro w world hJ
  have h : Outcome.Refines (fun _ => False) (fun (_ : ℕ) (s : State) => s.Has routines)
      ((Interpreter.level routines none R).call id arguments w) fun b =>
        interpretWithin none b b id arguments world.1 :=
    level_refines_interpretWithin (by simp) R (fun b => b)
      (Filter.eventually_ge_atTop R) id arguments w world.1 hJ
  generalize (Interpreter.level routines none R).call id arguments w = o at h
  cases h with
  | exhausted => exact .exhausted
  | ignored hi => exact hi.elim
  | @done v w' s _ hs hb =>
    refine .done (t := (s, world.2 + 1)) hs ?_
    filter_upwards [hb] with b hb
    simp only [interpretedCalls, Comp.within, hb]
  | @stop e w' s _ hs hb =>
    refine .stop (t := (s, world.2 + 1)) hs ?_
    filter_upwards [hb] with b hb
    simp only [interpretedCalls, Comp.within, hb]

/-- A run that answers as the level does ends with the level's answer. -/
theorem endsWith_of_answers {R : ℕ} {arguments : List Value} {o : Outcome GuestError ℕ Value}
    {answer : Except GuestError Value} (ho : answer? o = some answer)
    {y : Outcome GuestError (State × ℕ) Code.Result}
    (h : Code.Answers (fun w => w.1.Has routines)
        (atLevel routines none (fun _ => False) R arguments).meaning o y) :
    EndsWith answer y := by
  match y, h with
  | .done (.returned v) w, ⟨_, w', h⟩ =>
    subst h
    exact (Option.some.inj ho).symm
  | .stop e w, ⟨_, w', h⟩ =>
    subst h
    exact (Option.some.inj ho).symm
  | .done (.deoptimized reason snapshot) (s, n), ⟨hs, w', h⟩ =>
    have hcall : ∀ target vs,
        Comp.Refines (fun _ => False) (fun (_ : ℕ) (s : State) => s.Has routines)
        ((Interpreter.level routines none R).call target vs) fun b =>
          interpretWithin none b b target vs :=
      level_refines_interpretWithin (by simp) R (fun b => b) (Filter.eventually_ge_atTop R)
    have hresume := resumeFrames_refines hcall (fun s id _ _ hs => hs.modifyProfile id _)
      (fun _ hs => hs) h (by simp) hs
    exact Filter.eventually_atTop.1 (answer_of_refines hresume ho fun _ _ => not_false)

/-- Specialization preserves meaning: where interpreting a target ends with an
answer, running the graph of the target ends with it too, whatever is said
about the validity of the code behind its calls. -/
theorem specialize_preserves_interpretation {s : State} {id : TargetId} {t : CallTarget}
    {plan : Plan} {g : Graph} (ht : s.targets[id]? = some t)
    (hplan : PlannedFor s.targets id t.routine plan) (hg : specialize s.targets id t plan = .ok g) :
    ∃ c, Code.ofGraph id g = .ok c ∧
      ∀ (valid : State × ℕ → Bool) (arguments : List Value) (bound room : ℕ)
        (answer : Except GuestError Value),
        answer? (interpretWithin none bound room id arguments s) = some answer →
        ∃ y, EndsWith answer y ∧
          ∃ least, ∀ b ≥ least, c.run (interpretedCalls b valid) b arguments (s, 0) = y := by
  have hv := (Specialize.run_of_specialize hg).2
  refine ⟨⟨id, g, g.flow⟩, by rw [Code.ofGraph, hv]; rfl,
    fun valid arguments bound room answer hanswer => ?_⟩
  obtain _ | R := room
  · cases hanswer
  have hr : routinesOf s.targets id = some t.routine := by simp [routinesOf, ht]
  obtain ⟨k, hk⟩ : ∃ k, answer? (Interpreter.execute
      (Interpreter.level (routinesOf s.targets) none R) k t.routine arguments 0) = some answer := by
    have h := interpretWithin_refines none bound (R + 1) id arguments s 0 rfl
    obtain ⟨_, hb⟩ := (answer_of_refines h hanswer fun _ _ => not_false).exists
    dsimp only at hb
    obtain ⟨k, hk⟩ := Interpreter.level_call_reached R hr fun h => by rw [h] at hb; cases hb
    exact ⟨k, by rw [hk, hb]⟩
  have hne : Interpreter.execute
      (Interpreter.level (routinesOf s.targets) none R) k t.routine arguments 0 ≠ .exhausted := by
    intro h
    rw [h] at hk
    cases hk
  have hs : State.Has (routinesOf s.targets) (s, 0).1 := rfl
  obtain ⟨y, hy, hrun⟩ := run_specialized
    (X := atLevel (routinesOf s.targets) none (fun _ => False) R arguments) (c := ⟨id, g, g.flow⟩)
    hg hr hplan (fun _ _ h => h) (.inl (atLevel_unfolds (by simp) R arguments)) rfl
    (interpretedCalls_refine R valid) hne (fun _ _ _ => not_false) hs
  exact ⟨y, endsWith_of_answers hk hy, Filter.eventually_atTop.1 hrun⟩

/-- A target that gives one more than its argument. -/
def increment : CallTarget :=
  .ofRoutine (.ofBody "increment" 1 (.binary 0 .add (.argument 0 0) (.constant 0 (.int 1))))

/-- Code for `x + 1` on 41 ends with 42. -/
theorem specialize_preserves_increment :
    ∃ (c : Code) (y : Outcome GuestError (State × ℕ) Code.Result), EndsWith (.ok (.int 42)) y ∧
      ∃ least, ∀ b ≥ least, c.run (interpretedCalls b fun _ => true) b [.int 41]
        ({ targets := #[increment] }, 0) = y := by
  obtain ⟨g, hg⟩ : ∃ g, specialize #[increment] 0 increment (.empty 0) = .ok g := ⟨_, rfl⟩
  obtain ⟨c, -, h⟩ :=
    specialize_preserves_interpretation (s := { targets := #[increment] }) rfl (.inl rfl) hg
  exact ⟨c, h (fun _ => true) [.int 41] 0 1 (.ok (.int 42)) rfl⟩

end Engine

end TieredEngine

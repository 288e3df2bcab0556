import TieredEngine.Proofs.Engine.Transparency
/-!
# Bounds do not show

A bound is only there to make running a function: an invocation that ends
under one bound ends the same way under every bound that is large enough
(`invoke_settled`). Computations with this property are closed under
sequencing (`Comp.Settles`), so one lemma for each function of the engine is
enough. Loops need no lemma of their own, since the interpreter on a host
refines itself; only the control steps of running code are followed here.
-/

namespace TieredEngine

open Filter (atTop eventually_ge_atTop)

/-! ## Computations that settle -/

section

variable {ε δ σ τ α β : Type}

/-- What is answered from some bound on is refined. -/
theorem Outcome.refines_of_eventually {o : Outcome ε σ α} {y : ℕ → Outcome ε σ α}
    (h : ∀ᶠ b in atTop, y b = o) :
    Outcome.Refines (fun _ => False) Eq o y := by
  cases o with
  | done a s => exact .done rfl h
  | stop e s => exact .stop rfl h
  | exhausted => exact .exhausted

namespace Comp

/-- However the computation ends under one bound, it ends under every bound
that is large enough. -/
def Settles (x : ℕ → Comp ε σ α) : Prop := ∀ k, Refines (fun _ => False) Eq (x k) x

theorem settles_of_eventually {x : ℕ → Comp ε σ α}
    (h : ∀ k s, x k s ≠ .exhausted → ∀ᶠ b in atTop, x b s = x k s) :
    Settles x := by
  rintro k s _ rfl
  by_cases hne : x k s = .exhausted
  · rw [hne]
    exact .exhausted
  · exact Outcome.refines_of_eventually (h k s hne)

theorem Settles.eventually {x : ℕ → Comp ε σ α} (h : Settles x) {k : ℕ} {s : σ}
    (hne : x k s ≠ .exhausted) :
    ∀ᶠ b in atTop, x b s = x k s :=
  (h k s s rfl).settles hne

theorem settles_const (x : Comp ε σ α) : Settles fun _ => x :=
  settles_of_eventually fun _ _ _ => .of_forall fun _ => rfl

theorem Settles.bind {x : ℕ → Comp ε σ α} {f : ℕ → α → Comp ε σ β} (hx : Settles x)
    (hf : ∀ a, Settles fun b => f b a) :
    Settles fun b => x b >>= f b :=
  fun k => refines_bind (hx k) fun a => hf a k

theorem settles_state {f : ℕ → σ → Comp ε σ β} (hf : ∀ s, Settles fun b => f b s) :
    Settles fun b => state >>= f b :=
  (settles_const state).bind hf

theorem Settles.within {x : ℕ → Comp ε σ α} (hx : Settles x) (part : τ → σ) (put : σ → τ → τ) :
    Settles fun b => (x b).within part put := by
  refine settles_of_eventually fun k t hne => ?_
  have hx' : x k (part t) ≠ .exhausted := fun h => hne (by rw [Comp.within, h])
  filter_upwards [hx.eventually hx'] with b hb
  rw [Comp.within, Comp.within, hb]

theorem Settles.attempt {x : ℕ → Comp ε σ α} (hx : Settles x) :
    Settles fun b => ((x b).attempt : Comp δ σ _) := by
  refine settles_of_eventually fun k s hne => ?_
  have hx' : x k s ≠ .exhausted := fun h => hne (by rw [Comp.attempt, h])
  filter_upwards [hx.eventually hx'] with b hb
  rw [Comp.attempt, Comp.attempt, hb]

theorem Settles.always {x : ℕ → Comp ε σ α} {y : ℕ → Comp ε σ Unit} (hx : Settles x)
    (hy : Settles y) :
    Settles fun b => (x b).always (y b) := by
  refine settles_of_eventually fun k s hne => ?_
  have hx' : x k s ≠ .exhausted := fun h => hne (by rw [Comp.always, h])
  have hfirst := hx.eventually hx'
  -- what is done afterwards settles, whichever way the first computation ended
  have hdone : ∀ a, Settles fun b => (y b >>= fun _ => pure a : Comp ε σ α) :=
    fun a => hy.bind fun _ => settles_const _
  have hstop : ∀ e, Settles fun b => (y b >>= fun _ => leave e : Comp ε σ α) :=
    fun e => hy.bind fun _ => settles_const _
  simp only [Comp.always] at hne ⊢
  cases ho : x k s with
  | done a s' =>
    rw [ho] at hne hfirst
    filter_upwards [hfirst, (hdone a).eventually hne] with b hb hb'
    rw [hb]
    exact hb'
  | stop e s' =>
    rw [ho] at hne hfirst
    filter_upwards [hfirst, (hstop e).eventually hne] with b hb hb'
    rw [hb]
    exact hb'
  | exhausted => exact absurd ho hx'

end Comp

end

open TieredEngine.Comp (settles_const settles_state)

/-! ## Running code -/

namespace Code

variable {σ : Type} {calls : ℕ → TargetId → List Value → Comp GuestError σ Value} {valid : σ → Bool}
    {c : Code}
    {arguments : List Value} (hcalls : ∀ target vs, Comp.Settles fun b => calls b target vs)

include hcalls

theorem settles_step (here : Position) :
    Comp.Settles fun b => step ⟨calls b, valid⟩ c arguments here := by
  cases hn : c.graph.node? here.current with
  | none =>
    simp only [step, hn]
    exact settles_const _
  | some n =>
    cases hk : n.kind with
    | invoke target site =>
      simp only [step, hn, hk]
      refine (settles_const _).bind fun vs => ?_
      refine ((hcalls target vs).within _ _).bind fun result => ?_
      exact Comp.settles_of_eventually fun _ _ _ => .of_forall fun _ => rfl
    | _ =>
      simp only [step, hn, hk]
      exact settles_const _

/-- Under every bound that is large enough for the calls, any number of steps
that is not too small will do. -/
theorem eventually_runFrom (k fuel : ℕ) : ∀ (here : Position) (a : Activation σ),
    runFrom ⟨calls k, valid⟩ c arguments fuel here a ≠ .exhausted →
      ∀ᶠ b in atTop, ∀ fuel' ≥ fuel,
        runFrom ⟨calls b, valid⟩ c arguments fuel' here a =
          runFrom ⟨calls k, valid⟩ c arguments fuel here a := by
  induction fuel with
  | zero => exact fun _ _ hne => absurd rfl hne
  | succ fuel ih =>
    intro here a hne
    rw [runFrom] at hne ⊢
    have hstep : step ⟨calls k, valid⟩ c arguments here a ≠ .exhausted := fun h => hne (by rw [h])
    have hsame := (settles_step hcalls here).eventually hstep
    cases hs : step ⟨calls k, valid⟩ c arguments here a with
    | exhausted => exact absurd hs hstep
    | stop e a' =>
      rw [hs] at hsame
      filter_upwards [hsame] with b hb fuel' hfuel
      obtain ⟨m, rfl⟩ : ∃ m, fuel' = m + 1 := ⟨fuel' - 1, by omega⟩
      rw [runFrom, hb]
    | done p a' =>
      rw [hs] at hsame hne
      cases p with
      | finish result =>
        filter_upwards [hsame] with b hb fuel' hfuel
        obtain ⟨m, rfl⟩ : ∃ m, fuel' = m + 1 := ⟨fuel' - 1, by omega⟩
        rw [runFrom, hb]
      | go next =>
        filter_upwards [hsame, ih next a' hne] with b hb hrest fuel' hfuel
        obtain ⟨m, rfl⟩ : ∃ m, fuel' = m + 1 := ⟨fuel' - 1, by omega⟩
        rw [runFrom, hb]
        exact hrest m (by omega)

theorem settles_run : Comp.Settles fun b => c.run ⟨calls b, valid⟩ b arguments := by
  refine Comp.settles_of_eventually fun k world hne => ?_
  have hfrom : runFrom ⟨calls k, valid⟩ c arguments k ⟨Graph.start, none⟩
      ⟨⟨[], []⟩, world⟩ ≠ .exhausted := fun h => hne (by rw [run, h])
  filter_upwards [eventually_runFrom hcalls k k _ _ hfrom, eventually_ge_atTop k] with b hb hk
  rw [run, run, hb b hk]

end Code

/-! ## Compilations -/

theorem Plan.settles_build {σ : Type} {targets : Registry} {policy : InliningPolicy} {budget : ℕ}
    {root : TargetId} {r : Routine} :
    Comp.Settles fun b => (build targets policy budget b root r : Comp CompileError σ Plan) :=
  Comp.settles_of_eventually fun k s hne => (eventually_ge_atTop k).mono fun b hb => by
    rw [build_settles hne hb]

theorem Compiler.settles_compile (c : Compiler) (targets : Registry) (id : TargetId)
    (t : CallTarget) :
    Comp.Settles fun b => c.compile b targets id t := by
  have hfront : Comp.Settles fun b => c.frontEnd b targets id t :=
    Plan.settles_build.bind fun plan => settles_const _
  refine Comp.Settles.bind (Comp.Settles.attempt (hfront.bind fun compilation => ?_))
    fun result => ?_
  · exact settles_const _
  · exact settles_const _

/-! ## Invocations -/

namespace Engine

variable {e : Engine} {call : ℕ → Dispatch}

theorem settles_requestCompilation (e : Engine) (id : TargetId) :
    Comp.Settles fun b => e.requestCompilation b id := by
  refine settles_state fun s => ?_
  cases s.targets[id]? with
  | none => exact settles_const _
  | some t =>
    dsimp only
    split
    · exact settles_const _
    split
    · exact settles_const _
    exact ((e.compiler.settles_compile s.targets id t).within _ _).bind fun code => settles_const _

theorem settles_compileIfHot (e : Engine) (id : TargetId) (count : UInt64) :
    Comp.Settles fun b => e.compileIfHot b id count := by
  refine settles_state fun s => ?_
  cases s.targets[id]? with
  | none => exact settles_const _
  | some t =>
    dsimp only
    split
    · exact (settles_requestCompilation e id).attempt.bind fun result => settles_const _
    · exact settles_const _

section

variable (hcall : ∀ target vs, Comp.Settles fun b => call b target vs)

include hcall

/-- Calls that settle make a host that refines itself. -/
theorem refines_interpreterHost_self (id : TargetId) (k : ℕ) :
    (interpreterHost (call k) id).Refines (fun _ => False) Eq fun b =>
      interpreterHost (call b) id where
  call target vs := hcall target vs k
  record node taken s t hst := by
    subst hst
    exact ⟨_, rfl, fun _ => rfl⟩

theorem settles_execute (id : TargetId) (r : Routine) (arguments : List Value) :
    Comp.Settles fun b =>
      Interpreter.execute (interpreterHost (call b) id) b r arguments := fun k =>
  Interpreter.execute_refines (refines_interpreterHost_self hcall id k) k
    (Interpreter.reads_all r.body) fun _ _ => rfl

theorem settles_resumeFrame (f : SuspendedFrame) :
    Comp.Settles fun b => resumeFrame (call b) b f := by
  refine settles_state fun s => ?_
  cases s.targets[f.target]? with
  | none => exact settles_const _
  | some t =>
    exact fun k =>
      Interpreter.resume_refines (refines_interpreterHost_self hcall f.target k) k t.routine f

theorem settles_resumeFrames (callers : List SuspendedFrame) :
    ∀ f, Comp.Settles fun b => resumeFrames (call b) b f callers := by
  induction callers with
  | nil => exact settles_resumeFrame hcall
  | cons caller callers ih =>
    exact fun f => (settles_resumeFrame hcall f).bind fun v => ih (caller.push v)

theorem settles_runCode (id : TargetId) (position : ℕ) (code : Code) (arguments : List Value) :
    Comp.Settles fun b => e.runCode b (call b) id position code arguments := by
  refine (Code.settles_run hcall).bind fun result => ?_
  cases result with
  | returned v => exact settles_const _
  | deoptimized reason snapshot =>
    exact (settles_const _).bind fun _ => (settles_const _).bind fun _ =>
      settles_resumeFrames hcall _ _

theorem settles_interpretCounted (id : TargetId) (t : CallTarget) (arguments : List Value) :
    Comp.Settles fun b => e.interpretCounted b (call b) id t arguments :=
  (settles_const _).bind fun _ =>
    (settles_execute hcall id t.routine arguments).always (settles_compileIfHot e id _)

theorem settles_invokeWith (id : TargetId) (arguments : List Value) :
    Comp.Settles fun b => e.invokeWith b (call b) id arguments := by
  refine settles_state fun s => ?_
  cases s.targets[id]? with
  | none => exact settles_const _
  | some t =>
    refine (settles_const _).bind fun _ => ?_
    cases t.currentCode with
    | none => exact settles_interpretCounted hcall id t arguments
    | some current => exact settles_runCode hcall id current.1 current.2 arguments

end

/-- Calls settle, by induction on how deep they may nest. -/
theorem settles_callWithin (e : Engine) (room : ℕ) :
    ∀ target vs, Comp.Settles fun b => e.callWithin b room target vs := by
  induction room with
  | zero => exact fun target vs => settles_const _
  | succ room ih => exact settles_invokeWith ih

/-- However an invocation ends under one bound, it ends under every bound that
is large enough. -/
theorem invoke_settled {bound : ℕ} {id : TargetId} {arguments : List Value} {s : State}
    (h : e.invoke bound id arguments s ≠ .exhausted) :
    ∀ᶠ b in atTop, e.invoke b id arguments s = e.invoke bound id arguments s :=
  (settles_invokeWith (settles_callWithin e _) id arguments).eventually h

end Engine

end TieredEngine

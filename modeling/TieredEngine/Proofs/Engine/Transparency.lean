import TieredEngine.Proofs.Engine.Learning
import TieredEngine.Proofs.Engine.Optimization
import TieredEngine.Proofs.Inlining.Replay
/-!
# Tiers are transparent

At every point of a session, invoking a target answers what interpreting it
answers, with everything that it calls interpreted too:
`invoke_answers_as_interpreted`. It does not matter which tier a target is in,
which of its calls were inlined, or where its code gives up. Only the limit on
nested calls can be told apart, since inlined calls do not count; whoever asks
about that too needs a policy that keeps every call (`AnswersAt`).

The proof goes by the room that is left for calls. A call answers at the level
of interpretation that its room gives, because the calls made inside it do so
at the level below (`invokeWith_answersAt`); code was made from routines that
are still registered (`madeFor_of_changes`), so it answers what the routine
answers (`MadeFor.run`).
-/

namespace TieredEngine

open Filter (atTop eventually_ge_atTop eventually_atTop)
open Relation (ReflTransGen)
open Specialize (routinesOf specialize)

/-! ## Compilations end -/

namespace Plan

variable {targets : Registry} {policy : InliningPolicy} {budget bound : ℕ} {root : TargetId}
    {r : Routine}

theorem build_eq_exhausted {σ : Type} {s : σ} :
    build targets policy budget bound root r s = .exhausted ↔
      decideSites targets policy bound 0 r { budget := { limit := budget } } = .exhausted := by
  unfold build
  cases decideSites targets policy bound 0 r { budget := { limit := budget } } <;> simp

/-- A larger bound changes nothing where the construction of a plan ended. -/
theorem build_settles {σ τ : Type} {s : σ}
    (hne : build targets policy budget bound root r s ≠ .exhausted) {b : ℕ} (hb : bound ≤ b) :
    (build targets policy budget b root r : Comp CompileError τ Plan) =
      build targets policy budget bound root r := by
  have hsame : decideSites targets policy b 0 r { budget := { limit := budget } } =
      decideSites targets policy bound 0 r { budget := { limit := budget } } := by
    induction b, hb using Nat.le_induction with
    | base => rfl
    | succ b _ ih => rw [decideSites_mono b (ih ▸ build_eq_exhausted.not.1 hne), ih]
  unfold build
  rw [hsame]

end Plan

theorem Comp.ofExcept_ne_exhausted {ε σ α : Type} (x : Except ε α) (s : σ) :
    Comp.ofExcept x s ≠ .exhausted := by
  cases x <;> simp [Comp.ofExcept]

theorem Comp.attempt_ne_exhausted {ε δ σ α : Type} {x : Comp ε σ α} {s : σ}
    (hx : x s ≠ .exhausted) :
    (x.attempt : Comp δ σ _) s ≠ .exhausted := by
  unfold Comp.attempt
  cases h : x s <;> simp_all

/-- A compilation whose plan can be made ends, the same way under every bound
that is large enough. -/
theorem Compiler.compile_settles {c : Compiler} {bound : ℕ} {targets : Registry} {id : TargetId}
    {t : CallTarget}
    (hplan : (c.buildPlan bound targets id t () : Outcome CompileError Unit Plan) ≠ .exhausted)
    (stats : CompilerStats) :
    ∃ o, o ≠ .exhausted ∧ ∀ b ≥ bound, c.compile b targets id t stats = o := by
  refine ⟨c.compile bound targets id t stats, ?_, fun b hb => ?_⟩
  · have hbuild : ∀ stats : CompilerStats, c.buildPlan bound targets id t stats ≠ .exhausted :=
      fun stats =>
      Plan.build_eq_exhausted.not.2 (Plan.build_eq_exhausted.not.1 hplan)
    have hfront : ∀ stats, c.frontEnd bound targets id t stats ≠ .exhausted := fun stats =>
      Comp.bind_ne_exhausted (hbuild stats) fun plan s =>
        Comp.bind_ne_exhausted (Comp.ofExcept_ne_exhausted _ s) fun g s =>
          Comp.bind_ne_exhausted (Comp.ofExcept_ne_exhausted _ s) fun _ _ => nofun
    refine Comp.bind_ne_exhausted (Comp.attempt_ne_exhausted ?_) fun result s => ?_
    · exact Comp.bind_ne_exhausted (hfront stats) fun made s =>
        Comp.bind_ne_exhausted (Comp.ofExcept_ne_exhausted _ s) fun _ _ => nofun
    · cases result <;> exact nofun
  · simp only [compile, frontEnd, buildPlan, Plan.build_settles hplan hb]

namespace Engine

/-! ## Later states -/

/-- The engine got from one state to another, and no target was registered on
the way. -/
structure Later (e : Engine) (s s' : State) : Prop where
  changes : ReflTransGen (Change e) s s'
  routines : s'.Has (routinesOf s.targets)

/-- For every target a plan can be made. -/
def State.Plans (e : Engine) (s : State) : Prop :=
  ∀ (id : TargetId) (t : CallTarget), s.targets[id]? = some t → ∃ bound,
      (e.compiler.buildPlan bound s.targets id t () : Outcome CompileError Unit Plan) ≠ .exhausted

variable {e : Engine} {s₀ s s' : State} {id : TargetId} {t : CallTarget}

theorem Later.refl (s : State) : Later e s s := ⟨.refl, rfl⟩

theorem Later.trans {s'' : State} (h : Later e s s') (h' : Later e s' s'') : Later e s s'' :=
  ⟨h.changes.trans h'.changes, h'.routines.trans h.routines⟩

theorem Later.change (h : Later e s₀ s) (hc : Change e s s')
    (hr : routinesOf s'.targets = routinesOf s.targets) :
    Later e s₀ s' :=
  h.trans ⟨.single hc, hr⟩

theorem Later.routine (h : Later e s₀ s) (ht : s.targets[id]? = some t) :
    routinesOf s₀.targets id = some t.routine := by
  rw [← h.routines]
  simp [routinesOf, ht]

theorem routinesOf_modifyTarget (s : State) (id : TargetId) {f : CallTarget → CallTarget}
    (hf : ∀ t, (f t).routine = t.routine) :
    routinesOf (s.modifyTarget id f).targets = routinesOf s.targets :=
  State.Has.modifyTarget rfl id hf

theorem Later.arguments (h : Later e s₀ s) (id : TargetId) (vs : List Value) :
    Later e s₀ (s.modifyProfile id fun p => p.recordArguments vs) :=
  h.change (.arguments id vs) (routinesOf_modifyTarget s id fun _ => rfl)

theorem Later.branch (h : Later e s₀ s) (id : TargetId) (node : ExprId) (taken : Bool) :
    Later e s₀ (s.modifyProfile id fun p => p.recordBranch node taken) :=
  h.change (.branch id node taken) (routinesOf_modifyTarget s id fun _ => rfl)

theorem Later.deoptimized (h : Later e s₀ s) {position : ℕ} {reason : DeoptReason}
    (hv : ∀ t, s.targets[id]? = some t → reason ≠ .invalidated → t.codeValid position) :
    Later e s₀ (s.modifyTarget id fun t => t.recordDeopt position reason e.options.maxDeopts) := by
  refine h.change (.deoptimized id position reason hv) (routinesOf_modifyTarget s id fun t => ?_)
  by_cases hr : reason = .invalidated
  · rw [CallTarget.recordDeopt, if_pos hr]
  · rw [CallTarget.recordDeopt_eq hr]
    rfl

/-- Behind an interpreted invocation the engine ends in the same later state
under every bound that is large enough. -/
theorem compileIfHot_settles (hplans : s.Plans e) (id : TargetId) (count : UInt64) :
    ∃ s', Later e s s' ∧ ∀ᶠ b in atTop, e.compileIfHot b id count s = .done () s' := by
  have hends : ∃ s' : State, s'.Has (routinesOf s.targets) ∧
      ∀ᶠ b in atTop, e.compileIfHot b id count s = .done () s' := by
    simp only [compileIfHot_eq, requestCompilation_eq]
    split
    next hwants =>
      obtain ⟨t, ht, hwants⟩ := (Option.any_eq_true _ _).1 hwants
      obtain ⟨bound, hplan⟩ := hplans id t ht
      obtain ⟨o, ho, hsame⟩ := Compiler.compile_settles hplan s.stats
      have hb : ∀ᶠ b in atTop, e.compiler.compile b s.targets id t s.stats = o :=
        (eventually_ge_atTop bound).mono hsame
      simp only [CallTarget.wantsCompilation, Bool.and_eq_true, Bool.not_eq_true'] at hwants
      simp only [ht, hwants.1.2, hwants.2, if_neg Bool.false_ne_true]
      cases o with
      | exhausted => exact absurd rfl ho
      | done code stats =>
        refine ⟨State.modifyTarget { s with stats } id fun t => t.install code, ?_,
          hb.mono fun b hb => by rw [hb]⟩
        exact routinesOf_modifyTarget { s with stats } id fun _ => rfl
      | stop err stats =>
        refine ⟨State.modifyTarget { s with stats } id fun t => { t with failed := true }, ?_,
          hb.mono fun b hb => by rw [hb]⟩
        exact routinesOf_modifyTarget { s with stats } id fun _ => rfl
    next => exact ⟨s, rfl, .of_forall fun _ => rfl⟩
  obtain ⟨s', hhas, hb⟩ := hends
  obtain ⟨b, hb'⟩ := hb.exists
  refine ⟨s', ⟨compileIfHot_along changes_single b id count s s' ?_, hhas⟩, hb⟩
  rw [hb']
  rfl

/-! ## Installed code -/

/-- The graph was made for a target from routines that are known: specialized
under a plan for the target, then optimized. If calls are kept, the plan
inlines nothing. -/
def MadeFor (kept : Prop) (routines : TargetId → Option Routine) (id : TargetId) (g : Graph) :
    Prop :=
  ∃ targets t plan made cap summary, targets[id]? = some t ∧ PlannedFor targets id t.routine plan ∧
    (kept → plan.InlinesNothing) ∧ specialize targets id t plan = .ok made ∧
    Optimize.optimize cap made = .ok (g, summary) ∧
    ∀ target r, routinesOf targets target = some r → routines target = some r

theorem MadeFor.mono {kept : Prop} {routines routines' : TargetId → Option Routine} {g : Graph}
    (h : MadeFor kept routines id g)
    (hr : ∀ target r, routines target = some r → routines' target = some r) :
    MadeFor kept routines' id g := by
  obtain ⟨targets, t, plan, made, cap, summary, h1, h2, h3, h4, h5, h6⟩ := h
  exact ⟨targets, t, plan, made, cap, summary, h1, h2, h3, h4, h5,
    fun target r hr' => hr target r (h6 target r hr')⟩

theorem Change.routines (h : Change e s s') {target : TargetId} {r : Routine}
    (hr : routinesOf s.targets target = some r) :
    routinesOf s'.targets target = some r := by
  obtain ⟨t, ht, rfl⟩ := Option.map_eq_some_iff.1 hr
  obtain ⟨t', ht', hk⟩ := h.grows.old target t ht
  simp [routinesOf, ht', hk.routine]

theorem madeFor_of_compiles (hb : e.compiler.backend.Faithful) {code : Code}
    (h : Compiles e s id code) :
    MadeFor e.compiler.policy.KeepsCalls (routinesOf s.targets) id code.graph := by
  obtain ⟨t, bound, stats, stats', ht, hcompile⟩ := h
  obtain ⟨plan, _, made, g, summary, h1, h2, h3, h4⟩ := Compiler.compile_eq_done hcompile
  rw [hb _ _ _ _ h4]
  exact ⟨s.targets, t, plan, made, _, summary, ht, .of_build h1,
    fun hkeeps => Specialize.inlinesNothing_of_build hkeeps h1, h2, h3, fun _ _ h => h⟩

/-- All code was made from routines that are registered. -/
theorem madeFor_of_changes (hb : e.compiler.backend.Faithful) (h : ReflTransGen (Change e) {} s) :
    ∀ (id : TargetId) (t : CallTarget), s.targets[id]? = some t →
      ∀ c ∈ t.codes,
        MadeFor e.compiler.policy.KeepsCalls (routinesOf s.targets) id c.code.graph := by
  induction h with
  | refl => exact fun id t ht => by simp at ht
  | tail _ hc ih =>
    intro id t' ht' c' hc'
    rcases hc.grows.origin ht' with ⟨r, rfl⟩ | ⟨t, ht, hk⟩
    · cases hc'
    · rcases hk.codes c' hc' with ⟨c, hold, hcode⟩ | hmade
      · rw [← hcode]
        exact (ih id t ht c hold).mono fun _ _ => hc.routines
      · exact (madeFor_of_compiles hb hmade).mono fun _ _ => hc.routines

/-- Code for a routine answers what the routine does on a host that the code's
calls refine. -/
theorem MadeFor.run {τ : Type} {X : Specialize.Setting} {kept : Prop}
    {routines : TargetId → Option Routine} {c : Code} {r : Routine}
    (h : MadeFor kept routines id c.graph)
    (hX : X.routines = fun target r => routines target = some r) (hunfolds : X.Unfolds ∨ kept)
    (hr : routines id = some r) {calls : ℕ → TargetId → List Value → Comp GuestError τ Value}
    {valid : τ → Bool} {J : τ → Prop}
    (hcalls : ∀ target vs,
        Comp.Refines X.ignored (fun _ s => J s) (X.host.call target vs) fun b => calls b target vs)
    {k w : ℕ} (hne : Interpreter.execute X.host k r X.arguments w ≠ .exhausted)
    (hheeds : X.Heeds (Interpreter.execute X.host k r X.arguments w)) {world : τ} (hJ : J world) :
    ∃ y, Code.Answers J X.meaning (Interpreter.execute X.host k r X.arguments w) y ∧
      ∀ᶠ b in atTop, c.run ⟨calls b, valid⟩ b X.arguments world = y := by
  obtain ⟨targets, t, plan, made, cap, summary, ht, hplan, hkept, hg, hopt, hknown⟩ := h
  obtain rfl : t.routine = r := by
    have := hknown id t.routine (by simp [routinesOf, ht])
    rw [hr] at this
    exact (Option.some.inj this).symm
  have hknows : X.Knows targets := by
    rw [Specialize.Setting.Knows, hX]
    exact hknown
  let c₀ : Code := ⟨id, made, made.flow⟩
  obtain ⟨y, hy, hrun⟩ : ∃ y,
      Code.Answers J X.meaning (Interpreter.execute X.host k t.routine X.arguments w) y ∧
      ∀ᶠ b in atTop, c₀.run ⟨calls b, valid⟩ b X.arguments world = y :=
    run_specialized hg (by rw [hX]; exact hr) hplan hknows
      (hunfolds.imp_right hkept) rfl hcalls hne hheeds hJ
  -- what the graph did as it was made, it does after optimization, in no more
  -- steps
  have hf := Specialize.formed_of_specialize hg
  have hsafe := safe_of_specialize hg X.arguments
  obtain ⟨g', summary', hopt', hrw, -⟩ := Optimize.optimize_rewrites cap hf
  cases hopt'.symm.trans hopt
  have halike := Code.runsAlike_of_rewrites hrw hf hsafe
  have hy' : y ≠ .exhausted := by
    rintro rfl
    exact hy
  refine ⟨y, hy, hrun.mono fun b hb => ?_⟩
  obtain ⟨j, hj, hruns⟩ := (Code.run_iff_runs hf.runnable hsafe hy').1 hb
  obtain ⟨i, hi, hruns'⟩ := halike.forth hruns
  exact (Code.run_iff_runs (hrw.formed hf).runnable halike.safe hy').2 ⟨i, hi.trans hj, hruns'⟩

/-! ## Invocations -/

/-- The error of calls that nest too deep. -/
def overflow (e : Engine) : GuestError := .callDepth e.options.maxCallDepth.toNat

/-- In all states later than `s₀`, calls made so answer what they answer when
everything is interpreted, that many levels deep; if nobody asks about calls
that nest too deep, up to these. -/
def AnswersAt (e : Engine) (asked : Prop) (s₀ : State) (level : ℕ) (call : ℕ → Dispatch) : Prop :=
  ∀ target vs, Comp.Refines (fun err => ¬ asked ∧ err = e.overflow) (fun _ s => Later e s₀ s)
    ((Interpreter.level (routinesOf s₀.targets) (some e.overflow) level).call target vs) fun b =>
      call b target vs

section

variable {asked : Prop} (hasked : asked → e.compiler.policy.KeepsCalls)
    (hb : e.compiler.backend.Faithful) (hs₀ : ReflTransGen (Change e) {} s₀)
    (hplans : ∀ s, Later e s₀ s → s.Plans e)
    {R : ℕ} {call : ℕ → Dispatch} (hcall : AnswersAt e asked s₀ R call)

include hplans hcall in
/-- An interpreted invocation answers what the routine answers at the level of
its calls. -/
theorem interpretCounted_refines {u : CallTarget} (hs : Later e s₀ s) (hu : s.targets[id]? = some u)
    (hcount : u.invocations = t.invocations) (k : ℕ) (arguments : List Value) (w : ℕ) :
    Outcome.Refines (fun err => ¬ asked ∧ err = e.overflow) (fun _ s => Later e s₀ s)
      (Interpreter.execute (Interpreter.level (routinesOf s₀.targets) (some e.overflow) R) k
          t.routine arguments w)
      fun b => e.interpretCounted b (call b) id t arguments s := by
  let counted := s.modifyTarget id fun u => { u with invocations := t.invocations + 1 }
  have hcounted : Later e s₀ counted := by
    have hchange := Change.counted (e := e) id hu
    rw [hcount] at hchange
    exact hs.change hchange (routinesOf_modifyTarget s id fun _ => rfl)
  have hhost := refines_interpreterHost hcall (fun _ id node taken hs => hs.branch id node taken) id
  have hrun : Outcome.Refines (fun err => ¬ asked ∧ err = e.overflow) (fun _ s => Later e s₀ s)
      (Interpreter.execute (Interpreter.level (routinesOf s₀.targets) (some e.overflow) R) k
          t.routine arguments w)
      fun b => Interpreter.execute (interpreterHost (call b) id) b t.routine arguments counted :=
    Interpreter.execute_refines hhost k (Interpreter.reads_all t.routine.body)
      (fun _ _ => rfl) w counted hcounted
  refine Comp.refines_always_at hrun fun _ s hs => ?_
  obtain ⟨s', hs', hends⟩ := compileIfHot_settles (hplans s hs) id (t.invocations + 1)
  exact ⟨s', hs.trans hs', hends⟩

include hasked hcall in
/-- Running a target's code, and resuming its frames where it gives up,
answers what the routine answers. -/
theorem runCode_refines (halong : ∀ b target vs, (call b target vs).Along (ReflTransGen (Change e)))
    (hs : Later e s₀ s) (ht : s.targets[id]? = some t) {position : ℕ} (hv : t.codeValid position)
    {code : Code}
    (hcode : MadeFor e.compiler.policy.KeepsCalls (routinesOf s₀.targets) id code.graph) (k : ℕ)
    (arguments : List Value) (w : ℕ) :
    Outcome.Refines (fun err => ¬ asked ∧ err = e.overflow) (fun _ s => Later e s₀ s)
      (Interpreter.execute (Interpreter.level (routinesOf s₀.targets) (some e.overflow) R) k
          t.routine arguments w)
      fun b => e.runCode b (call b) id position code arguments s := by
  let X := atLevel (routinesOf s₀.targets) (some e.overflow)
    (fun err => ¬ asked ∧ err = e.overflow) R arguments
  -- calls that nest too deep are told apart only where one was inlined
  have hunfolds : X.Unfolds ∨ e.compiler.policy.KeepsCalls := by
    by_cases h : asked
    · exact .inr (hasked h)
    · exact .inl (atLevel_unfolds (fun err herr => ⟨h, (Option.some.inj herr).symm⟩) R arguments)
  change Outcome.Refines X.ignored (fun _ s => Later e s₀ s)
    (Interpreter.execute X.host k t.routine arguments w) _
  by_cases hne : Interpreter.execute X.host k t.routine arguments w = .exhausted
  · rw [hne]
    exact .exhausted
  by_cases hover : ∃ err w', X.ignored err ∧
    Interpreter.execute X.host k t.routine arguments w = .stop err w'
  · obtain ⟨err, w', hignored, hover⟩ := hover
    rw [hover]
    exact .ignored hignored
  have hheeds : X.Heeds (Interpreter.execute X.host k t.routine arguments w) :=
    fun err w' herr hignored =>
    hover ⟨err, w', hignored, herr⟩
  obtain ⟨y, hy, hrun⟩ : ∃ y,
      Code.Answers (Later e s₀) X.meaning (Interpreter.execute X.host k t.routine arguments w) y ∧
      ∀ᶠ b in atTop, code.run (codeHost (call b) id position) b arguments s = y :=
    hcode.run (X := X) rfl hunfolds (hs.routine ht) hcall hne hheeds hs
  generalize Interpreter.execute X.host k t.routine arguments w = o at hy hheeds
  match y, hy with
  | .done (.returned v) s', ⟨hs', w', ho⟩ =>
    subst ho
    exact .done hs' (hrun.mono fun b hb => by rw [runCode, Comp.bind_done hb]; rfl)
  | .stop err s', ⟨hs', w', ho⟩ =>
    subst ho
    exact .stop hs' (hrun.mono fun b hb => by rw [runCode, Comp.bind_stop hb])
  | .done (.deoptimized reason snapshot) s', ⟨hs', w', hresumes⟩ =>
    obtain ⟨b, hb⟩ := hrun.exists
    have hnoted := hs'.deoptimized (valid_of_run (halong b) ht hv hb).2
    have hremembered :=
      hnoted.change (.remembered ⟨id, reason, snapshot.innermost.node, snapshot.depth⟩) rfl
    refine (resumeFrames_refines hcall (fun _ id node taken hs => hs.branch id node taken)
      (fun _ hs => hs.routines) hresumes hheeds hremembered).congr (hrun.mono fun b hb => ?_)
    rw [runCode, Comp.bind_done hb]
    rfl

include hasked hb hs₀ hplans hcall in
/-- An invocation answers one level above its calls, whichever tier the target
is in. -/
theorem invokeWith_answersAt
    (halong : ∀ b target vs, (call b target vs).Along (ReflTransGen (Change e))) :
    AnswersAt e asked s₀ (R + 1) fun b => e.invokeWith b (call b) := by
  intro id arguments w s hs
  cases ht : s.targets[id]? with
  | none =>
    have hr : routinesOf s₀.targets id = none := by
      rw [← hs.routines]
      simp [routinesOf, ht]
    rw [Interpreter.level_call_none R hr]
    exact .stop hs (.of_forall fun b => invokeWith_unknown b arguments ht)
  | some t =>
    by_cases hne : (Interpreter.level (routinesOf s₀.targets) (some e.overflow) (R + 1)).call id
      arguments w = .exhausted
    · rw [hne]
      exact .exhausted
    obtain ⟨k, hk⟩ := Interpreter.level_call_reached R (hs.routine ht) hne
    rw [← hk]
    have hs' := hs.arguments id arguments
    have ht' := getElem?_recordArguments ht arguments
    cases hcurrent : t.currentCode with
    | none =>
      exact (interpretCounted_refines hplans hcall hs' ht' rfl k arguments w).congr
        (.of_forall fun b => (invokeWith_interpreted b arguments ht hcurrent).symm)
    | some current =>
      obtain ⟨-, hv, c, hc, hcode⟩ := codeValid_of_currentCode hcurrent
      have hmade := madeFor_of_changes hb (hs₀.trans hs.changes) id t ht c (List.mem_of_getElem? hc)
      rw [hs.routines, hcode] at hmade
      exact (runCode_refines hasked hcall halong hs' ht' hv hmade k arguments w).congr
        (.of_forall fun b => (invokeWith_compiled b arguments ht hcurrent).symm)

include hasked hb hs₀ hplans in
/-- Calls with room for some nested calls answer at the level of that room. -/
theorem callWithin_answersAt (room : ℕ) :
    AnswersAt e asked s₀ room fun b => e.callWithin b room := by
  induction room with
  | zero => exact fun id arguments w s hs => .stop hs (.of_forall fun _ => rfl)
  | succ room ih =>
    exact invokeWith_answersAt hasked hb hs₀ hplans ih fun b => callWithin_changes b room

end

/-- Where interpreting a target ends, invoking it ends with the same answer,
unless that is an overflow and nobody asks. -/
theorem invoke_of_interpreted {asked : Prop} (hasked : asked → e.compiler.policy.KeepsCalls)
    (hb : e.compiler.backend.Faithful) (hs : ReflTransGen (Next e) {} s)
    (hplans : ∀ s', Later e s s' → s'.Plans e) {arguments : List Value} {bound : ℕ}
    {answer : Except GuestError Value}
    (hinterpreted : answer?
      (interpretWithin (some e.overflow) bound (e.options.maxCallDepth.toNat + 1) id arguments s) =
      some answer) (hheeds : answer = .error e.overflow → asked) :
    ∃ o, answer? o = some answer ∧ ∃ least, ∀ b ≥ least, e.invoke b id arguments s = o := by
  have hchanges := changes_of_session hs
  have hreference := interpretWithin_refines (some e.overflow) bound
    (e.options.maxCallDepth.toNat + 1) id arguments s 0 rfl
  obtain ⟨_, hlevel⟩ := (answer_of_refines hreference hinterpreted fun _ _ => not_false).exists
  have hcalls := callWithin_answersAt hasked hb hchanges hplans e.options.maxCallDepth.toNat
  have hinvoke := invokeWith_answersAt hasked hb hchanges hplans hcalls
    (fun b => callWithin_changes b _) id arguments 0 s (.refl s)
  obtain ⟨o, ho, hsame⟩ := outcome_of_refines hinvoke hlevel fun err herr hignored =>
    hignored.1 (hheeds (hignored.2 ▸ herr))
  exact ⟨o, ho, eventually_atTop.1 hsame⟩

/-- Under the threshold policy a plan can always be made. -/
theorem plans_of_threshold {minHotness : UInt64} {maxDepth : UInt32}
    (hp : e.compiler.policy = .threshold minHotness maxDepth) (s : State) : s.Plans e := by
  intro id t _
  refine ⟨maxDepth.toNat + 1, ?_⟩
  rw [Compiler.buildPlan, hp, Ne, Plan.build_eq_exhausted]
  exact Plan.decideSites_ends _ (Nat.zero_le _) (by omega)

/-- A routine that adds one twice, by calling the first target. -/
def addTwo : Routine := .ofBody "addTwo" 1 (.call 0 0 [.call 0 0 [.argument 0 0]])

end Engine

end TieredEngine

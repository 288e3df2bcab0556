import TieredEngine.Proofs.Engine.HandOvers
import TieredEngine.Proofs.Engine.Transparency
/-!
# Giving up without speculation

Code does not only give up where a speculation fails. It also ends a path on
which an expression is bound to fail, and it checks the operands of operators.
The frame that is handed over then fails in the interpreter, in the very
expression and before anything else happens (`fails_of_givesUp`), so nothing
is lost. Where nothing was speculated on, there are no other reasons to give
up but that the code became invalid (`unspeculative_of_givesUp`), and so the
code runs to the end whenever the interpreter does without a type error:
`specialize_gives_up_on_errors`.
-/

namespace TieredEngine

open Specialize (routinesOf specialize Involves)

/-! ## Reasons without speculation -/

/-- Nothing is there to speculate on: no parameter of the target always had
one type, and no conditional of the target, or of a target that the plan
inlines, always went one way. -/
structure Specialize.Unspeculated (targets : Registry) (t : CallTarget) (plan : Plan) : Prop where
  arguments : ∀ i type, t.profile.argument i ≠ .monomorphic type
  branches : ∀ node, (t.profile.branch node).oneSided? = none
  inlined : ∀ u es e v, plan.Enters u es → e ∈ es → e.isInlined → targets[e.target]? = some v →
    ∀ node, (v.profile.branch node).oneSided? = none

namespace Code

variable {g : Graph} {G : Grounds} {arguments : List Value} {κ : Config} {reason : DeoptReason}
    {snapshot : Snapshot}

/-- Without grounds for speculation, the machine gives up only where an
expression fails. -/
theorem Ends.unspeculative (h : Ends g arguments κ (.ok (.deoptimized reason snapshot)))
    (hg : g.AllGrounded G) (hseen : ∀ u node taken, ¬ G.seen u node taken)
    (htyped : ∀ i type, ¬ G.typed i type) :
    reason.Unspeculative snapshot.innermost.mode := by
  cases h with
  | finish hd =>
    cases hd with
    | violated hn hk _ _ _ hs hf =>
      have hgrounded := hg _ _ hn
      rw [Graph.Grounded, hk] at hgrounded
      obtain ⟨x, s, ns, shape, -, hs', hns, hks, hbacks, -⟩ := hgrounded
      obtain rfl := Option.some.inj (hs.symm.trans hs')
      generalize g.kind? x = input at hbacks
      cases hbacks with
      | entry _ _ hi => exact absurd hi (htyped _ _)
      | operand hmode => exact .inr ⟨rfl, (hf.mode_eq hns hks).trans hmode⟩
      | branch _ _ _ _ _ _ hb => exact absurd hb (hseen _ _ _)
    | deoptimize hn hk =>
      have hgrounded := hg _ _ hn
      rw [Graph.Grounded, hk] at hgrounded
      exact .inl hgrounded

end Code

namespace Code

/-- In some run, the code gives up for the reason and hands over the frames. -/
def GivesUp (c : Code) (reason : DeoptReason) (snapshot : Snapshot) : Prop :=
  ∃ (σ : Type) (host : Host σ) (bound : ℕ) (arguments : List Value) (world world' : σ),
    c.run host bound arguments world = .done (.deoptimized reason snapshot) world'

/-- Code that behaves like other code gives up as that does. -/
theorem BehaveAlike.givesUp {c c' : Code} (h : c.BehaveAlike c') {reason : DeoptReason}
    {snapshot : Snapshot} (hc : c'.GivesUp reason snapshot) : c.GivesUp reason snapshot := by
  obtain ⟨σ, host, bound, arguments, world, world', hrun⟩ := hc
  obtain ⟨bound', hrun'⟩ := (h.ends host arguments world _ (by simp)).2 ⟨bound, hrun⟩
  exact ⟨σ, host, bound', arguments, world, world', hrun'⟩

end Code

namespace Engine

variable {targets : Registry} {id : TargetId} {t : CallTarget} {plan : Plan} {g : Graph}
    {reason : DeoptReason} {snapshot : Snapshot}

/-! ## Runs of specialized code -/

/-- Code of a specialized graph gives up behind a call, because it became
invalid, or where the machine does. -/
theorem ends_of_givesUp (hg : specialize targets id t plan = .ok g)
    (h : (⟨id, g, g.flow⟩ : Code).GivesUp reason snapshot) : reason = .invalidated ∨
      ∃ arguments κ, Code.Reach g arguments κ ∧
        Code.Ends g arguments κ (.ok (.deoptimized reason snapshot)) := by
  obtain ⟨σ, host, bound, arguments, world, world', hrun⟩ := h
  obtain ⟨j, -, hruns⟩ :=
    (Code.run_iff_runs (c := ⟨id, g, g.flow⟩) (Specialize.formed_of_specialize hg).runnable
      (safe_of_specialize hg arguments) (by simp)).1 hrun
  exact (hruns.gives_up .start rfl).imp_right fun h => ⟨arguments, h⟩

/-- A frame that is handed over without speculation fails in its routine. -/
theorem fails_of_givesUp (hg : specialize targets id t plan = .ok g)
    (h : (⟨id, g, g.flow⟩ : Code).GivesUp reason snapshot)
    (hreason : reason.Unspeculative snapshot.innermost.mode) :
    ∃ u err, Involves targets id t snapshot.innermost.target u ∧
      snapshot.innermost.FailsIn u.routine err := by
  rcases ends_of_givesUp hg h with rfl | ⟨arguments, κ, hκ, hends⟩
  · rcases hreason with h | ⟨h, -⟩ <;> cases h
  let routines : TargetId → Routine → Prop :=
    fun target r => ∃ u, Involves targets id t target u ∧ u.routine = r
  have hall : ∀ target r, routinesOf targets target = some r → routines target r :=
    fun target r hr => by
    obtain ⟨u, hu, rfl⟩ := Option.map_eq_some_iff.1 hr
    exact ⟨u, .inr hu, rfl⟩
  obtain ⟨hflows, L, hL⟩ := certified_mute hg routines ⟨t, .inl ⟨rfl, rfl⟩, rfl⟩ hall arguments
  have hjustified := Code.justified_of_edges
    (P := fun id => (muteSetting routines arguments).point g (L id)) hflows hL.starts.good hL.edges
    hκ hends
  obtain ⟨-, err, ⟨u, hu, rfl⟩, hfails⟩ := hjustified hreason
  exact ⟨u, err, hu, hfails⟩

/-- Where nothing was speculated on, code gives up without speculation or
because it became invalid. -/
theorem unspeculative_of_givesUp (hg : specialize targets id t plan = .ok g)
    (hplain : Specialize.Unspeculated targets t plan)
    (h : (⟨id, g, g.flow⟩ : Code).GivesUp reason snapshot) :
    reason = .invalidated ∨ reason.Unspeculative snapshot.innermost.mode := by
  refine (ends_of_givesUp hg h).imp_right ?_
  rintro ⟨arguments, κ, -, hends⟩
  let G : Grounds := ⟨id, fun _ _ => True, fun _ _ _ => False, fun _ _ => False⟩
  have hnone : ∀ {p : Profile}, (∀ node, (p.branch node).oneSided? = none) →
      ∀ node taken, (p.branch node).oneSided? = some taken → False := fun h node taken h' => by
    rw [h node] at h'
    cases h'
  have hgrounded : g.AllGrounded G :=
    Specialize.grounded_of_specialize hg rfl ⟨trivial, hnone hplain.branches⟩
      (fun u es e v hu he hin hv => ⟨trivial, hnone (hplain.inlined u es e v hu he hin hv)⟩)
      fun i type hi => hplain.arguments i type hi
  exact hends.unspeculative hgrounded (fun _ _ _ h => h) fun _ _ h => h

/-! ## Resumption -/

/-- Every routine of one state is registered in the other. -/
def State.Retains (s s' : State) : Prop :=
  ∀ target r, routinesOf s.targets target = some r → routinesOf s'.targets target = some r

/-- Resuming a chain whose innermost frame fails stops there, and changes
nothing. -/
theorem resumeFrames_of_failsIn {f : SuspendedFrame} {r : Routine} {err : GuestError}
    (h : f.FailsIn r err) {s : State} (hr : routinesOf s.targets f.target = some r)
    (call : Dispatch) (bound : ℕ) (callers : List SuspendedFrame) :
    resumeFrames call bound f callers s = .stop err s := by
  obtain ⟨t, ht, rfl⟩ := Option.map_eq_some_iff.1 hr
  have hframe : resumeFrame call bound f s = .stop err s := by
    rw [resumeFrame, Comp.state_bind]
    simp only [ht]
    exact h.resume_eq _ bound s
  cases callers with
  | nil => exact hframe
  | cons caller callers => exact Comp.bind_stop hframe

/-! ## Code for a target -/

/-- What a target answers when all is interpreted, its routine answers on the
level of the calls below. -/
theorem exists_execute_level {s : State} {r : Routine} {arguments : List Value} {bound room : ℕ}
    {answer : Except GuestError Value} (hr : routinesOf s.targets id = some r)
    (h : answer? (interpretWithin none bound room id arguments s) = some answer) :
    ∃ R k, answer? (Interpreter.execute
        (Interpreter.level (routinesOf s.targets) none R) k r arguments 0) = some answer := by
  obtain _ | R := room
  · cases h
  obtain ⟨_, hlevel⟩ := (answer_of_refines
    (interpretWithin_refines none bound (R + 1) id arguments s 0 rfl) h fun _ _ => not_false).exists
  dsimp only at hlevel
  obtain ⟨k, hk⟩ := Interpreter.level_call_reached R hr fun h => by rw [h] at hlevel; cases hlevel
  exact ⟨R, k, by rw [hk, hlevel]⟩

/-- Where interpreting a target ends with an answer, code that was made for it
ends with it too; no routine is registered or replaced on the way. -/
theorem MadeFor.run_interpreted {s : State} {kept : Prop} {c : Code}
    (h : MadeFor kept (routinesOf s.targets) id c.graph) {r : Routine}
    (hr : routinesOf s.targets id = some r) (valid : State × ℕ → Bool) {arguments : List Value}
    {bound room : ℕ} {answer : Except GuestError Value}
    (hanswer : answer? (interpretWithin none bound room id arguments s) = some answer) :
    ∃ y, EndsWith answer y ∧ (∀ result w, y = .done result w → w.1.Has (routinesOf s.targets)) ∧
      ∃ least, ∀ b ≥ least, c.run (interpretedCalls b valid) b arguments (s, 0) = y := by
  obtain ⟨R, k, hk⟩ := exists_execute_level hr hanswer
  have hne : Interpreter.execute
      (Interpreter.level (routinesOf s.targets) none R) k r arguments 0 ≠ .exhausted := by
    intro h
    rw [h] at hk
    cases hk
  have hs : State.Has (routinesOf s.targets) (s, 0).1 := rfl
  obtain ⟨y, hy, hrun⟩ :=
    h.run (X := atLevel (routinesOf s.targets) none (fun _ => False) R arguments) rfl
      (.inl (atLevel_unfolds (by simp) R arguments)) hr (interpretedCalls_refine R valid) hne
      (fun _ _ _ => not_false) hs
  refine ⟨y, endsWith_of_answers hk hy, fun result w hw => ?_, Filter.eventually_atTop.1 hrun⟩
  subst hw
  cases result <;> exact hy.1

/-- Giving up without speculation is failing. Where the optimized code of a
target gives up because an expression is bound to fail, or before an operator
because an operand has the wrong type, resuming what it hands over fails in
the expression of the innermost frame, with a type error: nothing is called,
nothing is recorded and the state stays as it was. If there was nothing to
speculate on when the target was compiled, the only other reason to give up is
that the code became invalid during a call. So on a run that the interpreter
ends without a type error it does not give up for any reason but this, and has
the same answer. -/
theorem specialize_gives_up_on_errors {s : State} (ht : s.targets[id]? = some t)
    (hg : specialize s.targets id t plan = .ok g) (cap : ℕ) :
    ∃ g' summary c, Optimize.optimize cap g = .ok (g', summary) ∧ Code.ofGraph id g' = .ok c ∧
      (∀ reason snapshot, c.GivesUp reason snapshot → reason.Unspeculative snapshot.innermost.mode →
        ∃ u err, s.targets[snapshot.innermost.target]? = some u ∧
          snapshot.innermost.FailsIn u.routine err ∧
          err.kind = .typeError ∧
          (∀ (σ : Type) (host : Host σ) (bound : ℕ) (world : σ),
            Interpreter.resume host bound u.routine snapshot.innermost world = .stop err world) ∧
          ∀ s', s.Retains s' → ∀ (call : Dispatch) (bound : ℕ),
            resumeFrames call bound snapshot.innermost snapshot.callers s' = .stop err s') ∧
      (Specialize.Unspeculated s.targets t plan →
        (∀ reason snapshot, c.GivesUp reason snapshot →
          reason = .invalidated ∨ reason.Unspeculative snapshot.innermost.mode) ∧
        (PlannedFor s.targets id t.routine plan → ∀ s', s.Retains s' →
          ∀ (valid : State × ℕ → Bool) (arguments : List Value) (bound room : ℕ)
            (answer : Except GuestError Value),
          answer? (interpretWithin none bound room id arguments s') = some answer →
          (∀ err, answer = .error err → err.kind ≠ .typeError) →
          ∃ y, EndsWith answer y ∧
            (∀ reason snapshot w, y = .done (.deoptimized reason snapshot) w →
                reason = .invalidated) ∧
            ∃ least, ∀ b ≥ least, c.run (interpretedCalls b valid) b arguments (s', 0) = y)) := by
  obtain ⟨g', summary, hopt, hcode, halike⟩ := optimized_behaveAlike hg cap
  have hregistered : ∀ {target u}, Involves s.targets id t target u →
      s.targets[target]? = some u := by
    rintro target u (⟨rfl, rfl⟩ | hu)
    · exact ht
    · exact hu
  refine ⟨g', summary, _, hopt, hcode, fun reason snapshot hup hreason => ?_, fun hplain =>
    ⟨fun reason snapshot hup => unspeculative_of_givesUp hg hplain (halike.givesUp hup), ?_⟩⟩
  · obtain ⟨u, err, hu, hfails⟩ := fails_of_givesUp hg (halike.givesUp hup) hreason
    have hu' := hregistered hu
    refine ⟨u, err, hu', hfails, hfails.kind, fun _ => hfails.resume_eq,
      fun s' hs' call bound => ?_⟩
    exact resumeFrames_of_failsIn hfails (hs' _ _ (by simp [routinesOf, hu'])) call bound _
  · intro hplan s' hs' valid arguments bound room answer hanswer hkind
    have hmade : MadeFor False (routinesOf s'.targets) id g' :=
      ⟨s.targets, t, plan, g, cap, summary, ht, hplan, False.elim, hg, hopt, hs'⟩
    obtain ⟨y, hends, hhas, least, hrun⟩ := MadeFor.run_interpreted (c := ⟨id, g', g'.flow⟩) hmade
      (hs' id t.routine (by simp [routinesOf, ht])) valid hanswer
    refine ⟨y, hends, fun reason snapshot w hy => ?_, least, hrun⟩
    subst hy
    have hup := halike.givesUp ⟨_, _, _, _, _, _, hrun least (Nat.le_refl _)⟩
    refine (unspeculative_of_givesUp hg hplain hup).resolve_right fun hreason => ?_
    -- the frames that are handed over would end with a type error
    obtain ⟨u, err, hu, hfails⟩ := fails_of_givesUp hg hup hreason
    have hr : routinesOf w.1.targets snapshot.innermost.target = some u.routine := by
      rw [hhas _ _ rfl]
      exact hs' _ _ (by simp [routinesOf, hregistered hu])
    obtain ⟨enough, hresumed⟩ := hends
    have hanswered := hresumed enough (Nat.le_refl _)
    rw [resumeFrames_of_failsIn hfails hr] at hanswered
    exact hkind err (Option.some.inj hanswered).symm hfails.kind

/-- Targets that have not run yet give nothing to speculate on. -/
theorem unspeculated_of_fresh {targets : Registry} {r : Routine} (plan : Plan)
    (h : ∀ (u : TargetId) v, targets[u]? = some v → ∃ r, v = .ofRoutine r) :
    Specialize.Unspeculated targets (.ofRoutine r) plan := by
  have hbranch : ∀ (r : Routine) node,
      ((CallTarget.ofRoutine r).profile.branch node).oneSided? = none := by
    intro r node
    have hcounts : (CallTarget.ofRoutine r).profile.branch node = default := by
      simp only [CallTarget.ofRoutine, Profile.empty, Profile.branch, Array.getElem?_replicate]
      split <;> rfl
    rw [hcounts]
    rfl
  refine ⟨fun i type => ?_, hbranch r, fun u es e v _ _ _ hv => ?_⟩
  · simp only [CallTarget.ofRoutine, Profile.empty, Profile.argument, List.getElem?_replicate]
    split <;> simp
  · obtain ⟨r, rfl⟩ := h e.target v hv
    exact hbranch r

/-- A target that calls the first one, which gives one more than its
argument. -/
def incrementByCall : CallTarget :=
  .ofRoutine (.ofBody "incrementByCall" 1 (.call 0 0 [.argument 0 0]))

/-- Code in which the call is inlined gives up on a truth value: the frame of
the first target fails, and the one that waits is not resumed. On 41 the code
ends with 42. -/
theorem specialize_gives_up_on_increment :
    ∃ (plan : Plan) (c : Code) (snapshot : Snapshot) (err : GuestError), plan.inlinedCount = 1 ∧
      c.GivesUp .typeGuardFailure snapshot ∧ snapshot.callers.length = 1 ∧
        snapshot.innermost.FailsIn increment.routine err ∧
      (∀ s' : State, State.Retains { targets := #[increment, incrementByCall] } s' →
        ∀ (call : Dispatch) (bound : ℕ),
        resumeFrames call bound snapshot.innermost snapshot.callers s' = .stop err s') ∧
      ∃ y, EndsWith (.ok (.int 42)) y ∧
        (∀ reason snapshot w, y = .done (.deoptimized reason snapshot) w → reason = .invalidated) ∧
        ∃ least, ∀ b ≥ least, c.run (interpretedCalls b fun _ => true) b [.int 41]
          ({ targets := #[increment, incrementByCall] }, 0) = y := by
  let s : State := { targets := #[increment, incrementByCall] }
  obtain ⟨plan, hplan, hcount, hcheck⟩ : ∃ plan : Plan,
    PlannedFor s.targets 1 incrementByCall.routine plan ∧ plan.inlinedCount = 1 ∧ ((do
        let g ← (specialize s.targets 1 incrementByCall plan).toOption
        let optimized ← (Optimize.optimize 10 g).toOption
        (Code.ofGraph 1 optimized.1).toOption) : Option Code).any fun c =>
          match c.run ⟨fun _ _ _ => .exhausted, fun _ => true⟩ 20 [.bool true] () with
          | .done (.deoptimized reason snapshot) _ =>
            reason = .typeGuardFailure ∧ snapshot.innermost.mode = .beforeNode ∧
              snapshot.innermost.target = 0 ∧ snapshot.callers.length = 1
          | _ => False := by
    refine ⟨_, .inr ⟨s.targets, ⟨fun _ _ => .inline⟩, 100, 3, rfl, fun _ _ h => h⟩, ?_, ?_⟩
    · decide +kernel
    · decide +kernel
  have hwords : Specialize.FitsWords s.targets incrementByCall.routine :=
    ⟨by decide, by decide, by decide⟩
  obtain ⟨g, hg⟩ := specialize_succeeds hplan hwords
  obtain ⟨g', summary, c, hopt, hcode, hfails, hplain⟩ :=
    specialize_gives_up_on_errors (s := s) rfl hg 10
  simp only [hg, hopt, hcode, Except.toOption, Option.bind_eq_bind, Option.bind_some,
    Option.any_some] at hcheck
  split at hcheck
  · rename_i reason snapshot _ hrun
    obtain ⟨rfl, hmode, htarget, hcallers⟩ := of_decide_eq_true hcheck
    have hup : c.GivesUp .typeGuardFailure snapshot := ⟨_, _, _, _, _, _, hrun⟩
    obtain ⟨u, err, hu, hfail, -, -, hresume⟩ := hfails _ snapshot hup (.inr ⟨rfl, hmode⟩)
    rw [htarget] at hu
    cases hu
    have hfresh : ∀ (u : TargetId) v, s.targets[u]? = some v → ∃ r, v = .ofRoutine r := by
      intro u v hv
      have hmem : v ∈ s.targets := Array.mem_of_getElem? hv
      rcases (by simpa [s] using hmem : v = increment ∨ v = incrementByCall) with rfl | rfl
      · exact ⟨_, rfl⟩
      · exact ⟨_, rfl⟩
    refine ⟨plan, c, snapshot, err, hcount, hup, hcallers, hfail, hresume, ?_⟩
    exact (hplain (unspeculated_of_fresh plan hfresh)).2 hplan s (fun _ _ h => h) (fun _ => true)
      [.int 41] 5 5 (.ok (.int 42)) rfl fun _ h => by cases h
  · cases of_decide_eq_true hcheck

end Engine

end TieredEngine

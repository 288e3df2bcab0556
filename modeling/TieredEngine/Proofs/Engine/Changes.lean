import TieredEngine.Engine.Invoke
import TieredEngine.Proofs.Graph.Views
import TieredEngine.Proofs.Interpreter.Hosts
/-!
# How an engine's state changes

Every operation of an engine is made of a few kinds of changes of its state,
listed by `Change`. The statements here are about an arbitrary preorder that
holds across every such change: if it holds across the calls that guest code
makes, it holds across a whole invocation (`invokeWith_along`), and so across
calls of any depth (`callWithin_along`). What calls do in states that are
never reached does not matter, so this also tells in which states calls are
made.
-/

namespace TieredEngine

variable {ε σ α β : Type}

/-! ## Computations along a preorder -/

/-- The state an outcome leaves, if it is one. -/
def Outcome.state? : Outcome ε σ α → Option σ
  | .done _ s | .stop _ s => some s
  | .exhausted => none

/-- However the outcome came about, its state satisfies `P`. -/
def Outcome.EndsIn (P : σ → Prop) (o : Outcome ε σ α) : Prop := ∀ s ∈ o.state?, P s

theorem Outcome.EndsIn.mono {P Q : σ → Prop} {o : Outcome ε σ α} (h : o.EndsIn P)
    (hPQ : ∀ s, P s → Q s) : o.EndsIn Q :=
  fun s hs => hPQ s (h s hs)

theorem Outcome.endsIn_done {P : σ → Prop} {a : α} {s : σ} (h : P s) :
    (Outcome.done a s : Outcome ε σ α).EndsIn P := by
  rintro _ ⟨⟩
  exact h

theorem Outcome.endsIn_stop {P : σ → Prop} {e : ε} {s : σ} (h : P s) :
    (Outcome.stop e s : Outcome ε σ α).EndsIn P := by
  rintro _ ⟨⟩
  exact h

namespace Comp

/-- The computation leads from every state to a related one. -/
def Along (R : σ → σ → Prop) (x : Comp ε σ α) : Prop := ∀ s, (x s).EndsIn (R s)

/-- Two computations in a row, from a given state. -/
theorem endsIn_bind {x : Comp ε σ α} {f : α → Comp ε σ β} {s : σ} {P Q : σ → Prop}
    (hx : (x s).EndsIn P) (hPQ : ∀ s', P s' → Q s')
    (hf : ∀ a s', x s = .done a s' → P s' → (f a s').EndsIn Q) :
    ((x >>= f) s).EndsIn Q := by
  rw [bind_apply]
  cases h : x s with
  | done a s' => exact hf a s' h (hx s' (by rw [h]; rfl))
  | stop e s' => exact Outcome.endsIn_stop (hPQ s' (hx s' (by rw [h]; rfl)))
  | exhausted => rintro _ ⟨⟩

section

variable {R : σ → σ → Prop} [IsPreorder σ R]

theorem along_pure (a : α) : (pure a : Comp ε σ α).Along R := fun s => Outcome.endsIn_done (refl s)

theorem along_leave (e : ε) :
    (leave e : Comp ε σ α).Along R := fun s => Outcome.endsIn_stop (refl s)

omit [IsPreorder σ R] in
theorem along_update {f : σ → σ} (hf : ∀ s, R s (f s)) : (update f : Comp ε σ Unit).Along R :=
  fun s => Outcome.endsIn_done (hf s)

theorem along_ofExcept (x : Except ε α) : (ofExcept x : Comp ε σ α).Along R := by
  cases x with
  | ok a => exact along_pure a
  | error e => exact along_leave e

theorem along_bind {x : Comp ε σ α} {f : α → Comp ε σ β} (hx : x.Along R)
    (hf : ∀ a, (f a).Along R) :
    (x >>= f).Along R := fun s =>
  endsIn_bind (hx s) (fun _ h => h) fun a s' _ h => (hf a s').mono fun _ h' =>
    IsTrans.trans _ _ _ h h'

end

end Comp

/-! ## The interpreter -/

section

variable {R : σ → σ → Prop} [IsPreorder σ R] {h : Host σ}

/-- A computation that refines itself along reachable states only reaches
related ones. -/
theorem Outcome.endsIn_of_refines {P : σ → Prop} {o : Outcome ε σ α} {y : ℕ → Outcome ε σ α}
    (h : o.Refines (fun _ => False) (fun s t => s = t ∧ P s) y) : o.EndsIn P := by
  cases h with
  | exhausted => rintro _ ⟨⟩
  | ignored h => exact h.elim
  | done h => exact endsIn_done h.2
  | stop h => exact endsIn_stop h.2

theorem Host.refines_along (hcall : ∀ target vs, (h.call target vs).Along R)
    (hrecord : ∀ node taken s, R s (h.recordBranch node taken s)) (s₀ : σ) :
    h.Refines (fun _ => False) (fun s t => s = t ∧ R s₀ s) fun _ => h where
  call target vs s t hst := by
    obtain ⟨rfl, hs⟩ := hst
    have hR := hcall target vs s
    cases hc : h.call target vs s with
    | done v w =>
      exact .done ⟨rfl, IsTrans.trans _ _ _ hs (hR w (by rw [hc]; rfl))⟩ (.of_forall fun _ => hc)
    | stop e w =>
      exact .stop ⟨rfl, IsTrans.trans _ _ _ hs (hR w (by rw [hc]; rfl))⟩ (.of_forall fun _ => hc)
    | exhausted => exact .exhausted
  record node taken s t hst := by
    obtain ⟨rfl, hs⟩ := hst
    exact ⟨_, ⟨rfl, IsTrans.trans _ _ _ hs (hrecord node taken s)⟩, fun _ => rfl⟩

theorem Interpreter.execute_along (hcall : ∀ target vs, (h.call target vs).Along R)
    (hrecord : ∀ node taken s, R s (h.recordBranch node taken s)) (bound : ℕ) (r : Routine)
    (arguments : List Value) :
    (execute h bound r arguments).Along R := fun s =>
  Outcome.endsIn_of_refines (execute_refines (h.refines_along hcall hrecord s) bound
    (reads_all r.body) (fun _ _ => rfl) s s ⟨rfl, refl s⟩)

theorem Interpreter.resume_along (hcall : ∀ target vs, (h.call target vs).Along R)
    (hrecord : ∀ node taken s, R s (h.recordBranch node taken s)) (bound : ℕ) (r : Routine)
    (f : SuspendedFrame) :
    (resume h bound r f).Along R := fun s =>
  Outcome.endsIn_of_refines (resume_refines (h.refines_along hcall hrecord s) bound r f s s
    ⟨rfl, refl s⟩)

end

/-! ## Running code -/

namespace Code

variable {R : σ → σ → Prop} [IsPreorder σ R] {host : Host σ}

/-- Only calls change the world of running code. -/
def SameWorld (a a' : Activation σ) : Prop := a'.world = a.world

instance : IsPreorder (Activation σ) SameWorld where
  refl _ := rfl
  trans _ _ _ h h' := Eq.trans h' h

theorem reading_sameWorld (x : Reading α) :
    (reading x : Comp GuestError (Activation σ) α).Along SameWorld := by
  intro a s hs
  unfold reading Comp.within at hs
  cases hx : x a.registers <;> rw [hx] at hs <;> cases hs <;> rfl

theorem goTo_sameWorld (current : NodeId) (next : Option NodeId) (missing : InternalFault) :
    (goTo current next missing : Comp GuestError (Activation σ) Progress).Along SameWorld := by
  cases next with
  | some next => exact Comp.along_pure _
  | none => exact Comp.along_leave _

theorem step_sameWorld {c : Code} {arguments : List Value} {here : Position}
    (hk : ∀ target site, c.graph.kind? here.current ≠ some (.invoke target site)) :
    (step host c arguments here).Along SameWorld := by
  have hfault : ∀ f, (fault f : Comp GuestError (Activation σ) Progress).Along SameWorld :=
    fun f => Comp.along_leave _
  have hread : ∀ {α : Type} (x : Reading α) (f : α → Comp GuestError (Activation σ) Progress),
      (∀ v, (f v).Along SameWorld) → (reading x >>= f).Along SameWorld :=
    fun x f hf => Comp.along_bind (reading_sameWorld x) hf
  unfold step
  dsimp only
  split
  · exact hfault _
  · rename_i n hn
    split
    · exact goTo_sameWorld _ _ _
    · exact goTo_sameWorld _ _ _
    · exact goTo_sameWorld _ _ _
    · exact hread _ _ fun _ => goTo_sameWorld _ _ _
    · exact hread _ _ fun _ => goTo_sameWorld _ _ _
    · exact hread _ _ fun v => Comp.along_bind (Comp.along_ofExcept _) fun _ => goTo_sameWorld _ _ _
    · refine hread _ _ fun v => ?_
      split
      · exact goTo_sameWorld _ _ _
      · exact hread _ _ fun _ => Comp.along_pure _
    · exact hread _ _ fun _ => Comp.along_pure _
    · rename_i target site hkind
      exact absurd (Graph.kind?_eq_some.2 ⟨n, hn, hkind⟩) (hk target site)
    · exact hread _ _ fun _ => Comp.along_pure _
    · exact hfault _

/-- What one control step, or a whole run, may do to the world: it moves
along, and only a hand-over of invalidated code happens while the code is
invalid. -/
def Moves (R : σ → σ → Prop) (valid : σ → Bool) (w w' : σ) : Option DeoptReason → Prop
  | some .invalidated => R w w'
  | _ => R w w' ∧ (valid w → valid w')

/-- Why a result hands over, if it does. -/
def Result.reason? : Result → Option DeoptReason
  | .returned _ => none
  | .deoptimized reason _ => some reason

def Progress.reason? : Progress → Option DeoptReason
  | .go _ => none
  | .finish result => result.reason?

theorem Moves.of_eq {valid : σ → Bool} {w w' : σ} (h : w' = w) (reason : Option DeoptReason) :
    Moves R valid w w' reason := by
  subst h
  unfold Moves
  split
  · exact refl _
  · exact ⟨refl _, id⟩

/-- One control step moves along, if calls do. -/
theorem step_moves (c : Code) (arguments : List Value) (here : Position)
    (hcall : ∀ target vs, (host.call target vs).Along R) (a : Activation σ) :
    match step host c arguments here a with
      | .done p a' => Moves R host.valid a.world a'.world p.reason?
      | .stop _ a' => R a.world a'.world
      | .exhausted => True := by
  by_cases hk : ∃ target site, c.graph.kind? here.current = some (.invoke target site)
  · obtain ⟨target, site, hk⟩ := hk
    obtain ⟨n, hn, hkind⟩ := Graph.kind?_eq_some.1 hk
    have hstep : step host c arguments here = (do
        let values ← reading (n.inputs.mapM (valueOf c.graph arguments))
        let result ← outside (host.call target values)
        reading (Comp.update fun r => ⟨r.values.set here.current result, []⟩)
        if host.valid (← Comp.state).world then advance c here.current
        else return .finish (.deoptimized .invalidated
          (← reading (handOver c.graph arguments here.current n.state (some result))))) := by
      unfold step
      simp only [hn, hkind]
    rw [hstep, Comp.bind_apply]
    have hw₁ := reading_sameWorld (σ := σ) (n.inputs.mapM (valueOf c.graph arguments)) a
    generalize reading (n.inputs.mapM (valueOf c.graph arguments)) a = o₁ at hw₁
    cases o₁ with
    | exhausted => trivial
    | stop e a₁ =>
      obtain hw₁ : a₁.world = a.world := hw₁ a₁ rfl
      exact hw₁ ▸ refl _
    | done values a₁ =>
      obtain hw₁ : a₁.world = a.world := hw₁ a₁ rfl
      have hR := hcall target values a₁.world
      simp only [Comp.bind_apply, outside, Comp.within]
      rw [← hw₁]
      cases hc : host.call target values a₁.world with
      | exhausted => trivial
      | stop e w => exact hR w (by rw [hc]; rfl)
      | done v w =>
        have hw : R a₁.world w := hR w (by rw [hc]; rfl)
        let a₂ : Activation σ := ⟨⟨a₁.registers.values.set here.current v, []⟩, w⟩
        cases hv : host.valid w with
        | true =>
          change match (if host.valid w then advance c here.current else _ :
              Comp GuestError (Activation σ) Progress) a₂ with
            | .done p a' => Moves R host.valid a₁.world a'.world p.reason?
            | .stop _ a' => R a₁.world a'.world
            | .exhausted => True
          rw [if_pos hv]
          unfold advance goTo
          cases (c.flow.successors here.current).head? with
          | some next => exact ⟨hw, fun _ => hv⟩
          | none => exact hw
        | false =>
          have hread :=
            reading_sameWorld (σ := σ) (handOver c.graph arguments here.current n.state (some v)) a₂
          change match (if host.valid w then _ else (do
              return .finish (.deoptimized .invalidated
                (← reading (handOver c.graph arguments here.current n.state (some v))))) :
              Comp GuestError (Activation σ) Progress) a₂ with
            | .done p a' => Moves R host.valid a₁.world a'.world p.reason?
            | .stop _ a' => R a₁.world a'.world
            | .exhausted => True
          rw [if_neg (by simp [hv]), Comp.bind_apply]
          cases hd : reading (handOver c.graph arguments here.current n.state (some v)) a₂ with
          | exhausted => trivial
          | stop e a₃ =>
            obtain hw₃ : a₃.world = w := hread a₃ (by rw [hd]; rfl)
            show R a₁.world a₃.world
            rw [hw₃]
            exact hw
          | done snapshot a₃ =>
            obtain hw₃ : a₃.world = w := hread a₃ (by rw [hd]; rfl)
            show R a₁.world a₃.world
            rw [hw₃]
            exact hw
  · have hsame : (step host c arguments here a).EndsIn (SameWorld a) :=
      step_sameWorld (fun target site h => hk ⟨target, site, h⟩) a
    cases hs : step host c arguments here a with
    | exhausted => trivial
    | done p a' => exact Moves.of_eq (hsame a' (by rw [hs]; rfl)) _
    | stop e a' =>
      obtain hw : a'.world = a.world := hsame a' (by rw [hs]; rfl)
      exact hw ▸ refl _

theorem Moves.trans_of {valid : σ → Bool} {w₁ w₂ w₃ : σ} {reason : Option DeoptReason}
    (h : Moves R valid w₁ w₂ none) (h' : Moves R valid w₂ w₃ reason) :
    Moves R valid w₁ w₃ reason := by
  unfold Moves at h' ⊢
  split at h'
  · exact IsTrans.trans _ _ _ h.1 h'
  · exact ⟨IsTrans.trans _ _ _ h.1 h'.1, fun hv => h'.2 (h.2 hv)⟩

omit [IsPreorder σ R] in
theorem Moves.along {valid : σ → Bool} {w w' : σ} {reason : Option DeoptReason}
    (h : Moves R valid w w' reason) : R w w' := by
  unfold Moves at h
  split at h
  · exact h
  · exact h.1

/-- The steps that are left of a run move along, if calls do. -/
theorem runFrom_moves (c : Code) (arguments : List Value)
    (hcall : ∀ target vs, (host.call target vs).Along R) (bound : ℕ) :
    ∀ (here : Position) (a : Activation σ), match runFrom host c arguments bound here a with
      | .done result a' => Moves R host.valid a.world a'.world result.reason?
      | .stop _ a' => R a.world a'.world
      | .exhausted => True := by
  induction bound with
  | zero => exact fun _ _ => trivial
  | succ bound ih =>
    intro here a
    have hstep := step_moves c arguments here hcall a
    unfold runFrom
    cases hs : step host c arguments here a with
    | exhausted => trivial
    | stop e a' => rw [hs] at hstep; exact hstep
    | done p a' =>
      rw [hs] at hstep
      cases p with
      | finish result => exact hstep
      | go next =>
        have hrest := ih next a'
        dsimp only
        split <;> rename_i hd <;> rw [hd] at hrest
        · exact hstep.trans_of hrest
        · exact IsTrans.trans _ _ _ hstep.along hrest
        · trivial

/-- A run moves along, if calls do; code that gives up for another reason than
its invalidation was valid to the end. -/
theorem run_moves (c : Code) (arguments : List Value)
    (hcall : ∀ target vs, (host.call target vs).Along R) (bound : ℕ) (w : σ) :
    match c.run host bound arguments w with
      | .done result w' => Moves R host.valid w w' result.reason?
      | .stop _ w' => R w w'
      | .exhausted => True := by
  have hrun := runFrom_moves c arguments hcall bound ⟨Graph.start, none⟩ ⟨⟨[], []⟩, w⟩
  unfold run
  cases hr : runFrom host c arguments bound ⟨Graph.start, none⟩ ⟨⟨[], []⟩, w⟩ <;>
    rw [hr] at hrun <;> exact hrun

theorem run_along {c : Code} {arguments : List Value}
    (hcall : ∀ target vs, (host.call target vs).Along R) (bound : ℕ) :
    (c.run host bound arguments).Along R := by
  intro w w' hw'
  have h := run_moves c arguments hcall bound w
  cases hr : c.run host bound arguments w <;> rw [hr] at h hw' <;> cases hw'
  · exact h.along
  · exact h

end Code

/-! ## The engine -/

namespace Engine

/-- One change of an engine's state. -/
inductive Change (e : Engine) : State → State → Prop
  | registered {s} (r : Routine) : Change e s (s.register r).1
  | arguments {s} (id : TargetId) (vs : List Value) : Change e s
      (s.modifyProfile id fun p => p.recordArguments vs)
  | branch {s} (id : TargetId) (node : ExprId) (taken : Bool) : Change e s
      (s.modifyProfile id fun p => p.recordBranch node taken)
  | counted {s t} (id : TargetId) : s.targets[id]? = some t →
    Change e s (s.modifyTarget id fun u => { u with invocations := t.invocations + 1 })
  | stats {s} (stats : CompilerStats) : Change e s { s with stats }
  /-- Code that was compiled from the registered targets as they are is
  installed on a target without valid code. -/
  | installed {s t code bound stats stats'} (id : TargetId) : s.targets[id]? = some t →
      t.disabled = false →
      t.isCompiled = false → e.compiler.compile bound s.targets id t stats = .done code stats' →
      Change e s (s.modifyTarget id fun t => t.install code)
  | failed {s} (id : TargetId) : Change e s (s.modifyTarget id fun t => { t with failed := true })
  /-- Code gives up. It is valid then, unless it gives up because it is not. -/
  | deoptimized {s} (id : TargetId) (position : ℕ) (reason : DeoptReason) :
    (∀ t, s.targets[id]? = some t → reason ≠ .invalidated → t.codeValid position) →
    Change e s (s.modifyTarget id fun t => t.recordDeopt position reason e.options.maxDeopts)
  | remembered {s} (event : DeoptEvent) : Change e s (s.remember event)
  | invalidated {s} (id : TargetId) : Change e s (s.modifyTarget id CallTarget.invalidate)

section

variable {e : Engine} {R : State → State → Prop} [IsPreorder State R] {call : Dispatch}

/-- What a request for compilation does, case by case. -/
theorem requestCompilation_eq (bound : ℕ) (id : TargetId) (s : State) :
    e.requestCompilation bound id s = match s.targets[id]? with
    | none => .stop (.unresolvedTarget id) s
    | some t =>
      if t.disabled then .done .disabled s
      else if t.isCompiled then .done .alreadyCompiled s
      else match e.compiler.compile bound s.targets id t s.stats with
        | .done code stats =>
          .done .compiled (State.modifyTarget { s with stats } id fun t => t.install code)
        | .stop err stats => .stop err { s with stats }
        | .exhausted => .exhausted := by
  unfold requestCompilation
  rw [Comp.state_bind]
  cases s.targets[id]? with
  | none => rfl
  | some t =>
    simp only
    by_cases hd : t.disabled
    · simp only [if_pos hd]; rfl
    · by_cases hc : t.isCompiled
      · simp only [if_neg hd, if_pos hc]; rfl
      · simp only [if_neg hd, if_neg hc, Comp.bind_apply, Comp.within]
        cases e.compiler.compile bound s.targets id t s.stats <;> rfl

theorem requestCompilation_along (hR : ∀ s s', Change e s s' → R s s') (bound : ℕ) (id : TargetId) :
    (e.requestCompilation bound id).Along R := by
  intro s
  rw [requestCompilation_eq]
  have hfirst : ∀ stats, R s { s with stats } := fun stats => hR _ _ (.stats stats)
  split
  · exact Outcome.endsIn_stop (refl s)
  · rename_i t ht
    split
    · exact Outcome.endsIn_done (refl s)
    · split
      · exact Outcome.endsIn_done (refl s)
      · rename_i hd hc
        split
        · rename_i code stats hcode
          refine Outcome.endsIn_done (IsTrans.trans _ _ _ (hfirst stats) (hR _ _ ?_))
          have hchange : Change e { s with stats } _ :=
            .installed id ht (by simpa using hd) (by simpa using hc) hcode
          exact hchange
        · exact Outcome.endsIn_stop (hfirst _)
        · rintro _ ⟨⟩

/-- What is done behind an interpreted invocation, case by case. -/
theorem compileIfHot_eq (bound : ℕ) (id : TargetId) (count : UInt64) (s : State) :
    e.compileIfHot bound id count s = if (s.targets[id]?).any fun t =>
      t.wantsCompilation e.options.autoCompile e.options.compilationThreshold count then
      match e.requestCompilation bound id s with
      | .done _ s' => .done () s'
      | .stop _ s' => .done () (s'.modifyTarget id fun t => { t with failed := true })
      | .exhausted => .exhausted
    else .done () s := by
  unfold compileIfHot
  rw [Comp.state_bind]
  cases s.targets[id]? with
  | none => rfl
  | some t =>
    simp only [Option.any_some]
    split
    · simp only [Comp.bind_apply, Comp.attempt]
      cases e.requestCompilation bound id s <;> rfl
    · rfl

theorem compileIfHot_along (hR : ∀ s s', Change e s s' → R s s') (bound : ℕ) (id : TargetId)
    (count : UInt64) :
    (e.compileIfHot bound id count).Along R := by
  intro s
  have hreq := requestCompilation_along hR bound id s
  rw [compileIfHot_eq]
  split
  · split
    · rename_i s' hc
      exact Outcome.endsIn_done (hreq s' (by rw [hc]; rfl))
    · rename_i s' hc
      exact Outcome.endsIn_done
        (IsTrans.trans _ _ _ (hreq s' (by rw [hc]; rfl)) (hR _ _ (.failed id)))
    · rintro _ ⟨⟩
  · exact Outcome.endsIn_done (refl s)

omit [IsPreorder State R] in
theorem interpreterHost_record (hR : ∀ s s', Change e s s' → R s s') (id : TargetId) (node : ExprId)
    (taken : Bool) (s : State) :
    R s ((interpreterHost call id).recordBranch node taken s) := hR _ _ (.branch id node taken)

theorem resumeFrames_along (hR : ∀ s s', Change e s s' → R s s')
    (hcall : ∀ target vs, (call target vs).Along R) (bound : ℕ) (callers : List SuspendedFrame) :
    ∀ f, (resumeFrames call bound f callers).Along R := by
  have hframe : ∀ f, (resumeFrame call bound f).Along R := by
    intro f s
    unfold resumeFrame
    rw [Comp.state_bind]
    cases s.targets[f.target]? with
    | none => exact Comp.along_leave _ s
    | some t => exact Interpreter.resume_along hcall (interpreterHost_record hR _) bound _ f s
  induction callers with
  | nil => exact hframe
  | cons caller callers ih => exact fun f => Comp.along_bind (hframe f) fun v => ih (caller.push v)

theorem deoptimizeWith_along (hR : ∀ s s', Change e s s' → R s s')
    (hcall : ∀ target vs, (call target vs).Along R) (bound : ℕ) (id : TargetId)
    (reason : DeoptReason) (snapshot : Snapshot) :
    (deoptimizeWith call bound id reason snapshot).Along R :=
  Comp.along_bind (Comp.along_update fun _ => hR _ _ (.remembered _)) fun _ =>
    resumeFrames_along hR hcall bound _ _

/-- Code that gives up for another reason than its invalidation is valid
then. -/
theorem valid_of_run {bound : ℕ} {id : TargetId} {position : ℕ} {code : Code}
    {arguments : List Value} {s s' : State} {t : CallTarget} {reason : DeoptReason}
    {snapshot : Snapshot} (hcall : ∀ target vs, (call target vs).Along R)
    (ht : s.targets[id]? = some t) (hv : t.codeValid position)
    (hr : code.run (codeHost call id position) bound arguments s =
        .done (.deoptimized reason snapshot) s') :
    R s s' ∧ ∀ t', s'.targets[id]? = some t' → reason ≠ .invalidated → t'.codeValid position := by
  have hmoves := Code.run_moves code arguments
    (show ∀ target vs, ((codeHost call id position).call target vs).Along R from hcall) bound s
  rw [hr] at hmoves
  refine ⟨hmoves.along, fun t' ht' hne => ?_⟩
  have hvalid : (codeHost call id position).valid s → (codeHost call id position).valid s' := by
    revert hmoves
    cases reason with
    | invalidated => exact absurd rfl hne
    | _ => exact fun h => h.2
  have := hvalid (by simp [codeHost, ht, hv])
  simpa [codeHost, ht'] using this

/-- Running a target's code moves along, if the code is valid at the start. -/
theorem runCode_endsIn (hR : ∀ s s', Change e s s' → R s s')
    (hcall : ∀ target vs, (call target vs).Along R) {bound : ℕ} {id : TargetId} {position : ℕ}
    {code : Code} {arguments : List Value} {s : State} {t : CallTarget}
    (ht : s.targets[id]? = some t) (hv : t.codeValid position) :
    (e.runCode bound call id position code arguments s).EndsIn (R s) := by
  have halong : (code.run (codeHost call id position) bound arguments s).EndsIn (R s) :=
    Code.run_along hcall bound s
  unfold runCode
  rw [Comp.bind_apply]
  cases hr : code.run (codeHost call id position) bound arguments s with
  | exhausted => rintro _ ⟨⟩
  | stop err s' => exact Outcome.endsIn_stop (halong s' (by rw [hr]; rfl))
  | done result s' =>
    cases result with
    | returned v => exact Outcome.endsIn_done (halong s' (by rw [hr]; rfl))
    | deoptimized reason snapshot =>
      obtain ⟨hs', hvalid⟩ := valid_of_run hcall ht hv hr
      refine (deoptimizeWith_along hR hcall bound id reason snapshot _).mono fun s'' h => ?_
      exact IsTrans.trans _ _ _ hs'
        (IsTrans.trans _ _ _ (hR _ _ (.deoptimized id position reason hvalid)) h)

theorem interpretCounted_endsIn (hR : ∀ s s', Change e s s' → R s s')
    (hcall : ∀ target vs, (call target vs).Along R) {bound : ℕ} {id : TargetId}
    {arguments : List Value} {s : State} {t u : CallTarget} (hu : s.targets[id]? = some u)
    (hcount : u.invocations = t.invocations) :
    (e.interpretCounted bound call id t arguments s).EndsIn (R s) := by
  unfold interpretCounted
  rw [Comp.update_bind]
  have hcounted : R s (s.modifyTarget id fun u => { u with invocations := t.invocations + 1 }) :=
    hR _ _ (hcount ▸ .counted id hu)
  have hrun := Interpreter.execute_along (h := interpreterHost call id) hcall
    (interpreterHost_record hR id) bound t.routine arguments
    (s.modifyTarget id fun u => { u with invocations := t.invocations + 1 })
  have hhot := compileIfHot_along hR bound id (t.invocations + 1)
  unfold Comp.always
  cases hr : Interpreter.execute (interpreterHost call id) bound t.routine arguments
      (s.modifyTarget id fun u => { u with invocations := t.invocations + 1 }) with
  | exhausted => rintro _ ⟨⟩
  | done v s' =>
    have hs' := IsTrans.trans _ _ _ hcounted (hrun s' (by rw [hr]; rfl))
    exact Comp.endsIn_bind ((hhot s').mono fun _ h => IsTrans.trans _ _ _ hs' h) (fun _ h => h)
      fun _ _ _ h => Outcome.endsIn_done h
  | stop err s' =>
    have hs' := IsTrans.trans _ _ _ hcounted (hrun s' (by rw [hr]; rfl))
    exact Comp.endsIn_bind ((hhot s').mono fun _ h => IsTrans.trans _ _ _ hs' h) (fun _ h => h)
      fun _ _ _ h => Outcome.endsIn_stop h

theorem codeValid_of_currentCode {t : CallTarget} {position : ℕ} {code : Code}
    (h : t.currentCode = some (position, code)) :
    t.installed = some position ∧ t.codeValid position ∧ ∃ c, t.codes[position]? = some c ∧
      c.code = code := by
  unfold CallTarget.currentCode at h
  split at h
  · cases h
  · rename_i i hi
    split at h
    · rename_i c hc
      split at h
      · rename_i hv
        cases h
        exact ⟨hi, by simp [CallTarget.codeValid, hc, hv], c, hc, rfl⟩
      · cases h
    · cases h

theorem invokeWith_unknown {s : State} {id : TargetId} (bound : ℕ) (arguments : List Value)
    (ht : s.targets[id]? = none) :
    e.invokeWith bound call id arguments s = .stop (.unknownTarget id) s := by
  rw [invokeWith, Comp.state_bind]
  simp only [ht]
  rfl

/-- An invocation takes note of the arguments; then it interprets a target
that has no code. -/
theorem invokeWith_interpreted {s : State} {id : TargetId} {t : CallTarget} (bound : ℕ)
    (arguments : List Value) (ht : s.targets[id]? = some t) (hc : t.currentCode = none) :
    e.invokeWith bound call id arguments s =
      e.interpretCounted bound call id t arguments
        (s.modifyProfile id fun p => p.recordArguments arguments) := by
  rw [invokeWith, Comp.state_bind]
  simp only [ht, hc, Comp.update_bind]

/-- An invocation takes note of the arguments; then it runs the code of a
target that has some. -/
theorem invokeWith_compiled {s : State} {id : TargetId} {t : CallTarget} {position : ℕ}
    {code : Code} (bound : ℕ) (arguments : List Value) (ht : s.targets[id]? = some t)
    (hc : t.currentCode = some (position, code)) :
    e.invokeWith bound call id arguments s =
      e.runCode bound call id position code arguments
        (s.modifyProfile id fun p => p.recordArguments arguments) := by
  rw [invokeWith, Comp.state_bind]
  simp only [ht, hc, Comp.update_bind]

theorem getElem?_recordArguments {s : State} {id : TargetId} {t : CallTarget}
    (ht : s.targets[id]? = some t) (vs : List Value) :
    (s.modifyProfile id fun p => p.recordArguments vs).targets[id]? =
      some { t with profile := t.profile.recordArguments vs } := by
  simp [State.modifyProfile, State.modifyTarget, Array.getElem?_modify, ht]

/-- An invocation moves along, if calls do. -/
theorem invokeWith_along (hR : ∀ s s', Change e s s' → R s s')
    (hcall : ∀ target vs, (call target vs).Along R) (bound : ℕ) (id : TargetId)
    (arguments : List Value) :
    (e.invokeWith bound call id arguments).Along R := by
  intro s
  cases ht : s.targets[id]? with
  | none =>
    rw [invokeWith_unknown bound arguments ht]
    exact Outcome.endsIn_stop (refl s)
  | some t =>
    have hfirst : R s (s.modifyProfile id fun p => p.recordArguments arguments) :=
      hR _ _ (.arguments id arguments)
    have ht' := getElem?_recordArguments ht arguments
    cases hcode : t.currentCode with
    | some current =>
      rw [invokeWith_compiled bound arguments ht hcode]
      refine (runCode_endsIn hR hcall ht' ?_).mono fun _ h => IsTrans.trans _ _ _ hfirst h
      exact (codeValid_of_currentCode hcode).2.1
    | none =>
      rw [invokeWith_interpreted bound arguments ht hcode]
      exact (interpretCounted_endsIn hR hcall ht' rfl).mono fun _ h => IsTrans.trans _ _ _ hfirst h

/-- Calls of any depth move along. -/
theorem callWithin_along (hR : ∀ s s', Change e s s' → R s s') (bound room : ℕ) :
    ∀ id arguments, (e.callWithin bound room id arguments).Along R := by
  induction room with
  | zero => exact fun _ _ => Comp.along_leave _
  | succ room ih => exact fun id arguments => invokeWith_along hR ih bound id arguments

end

end Engine

end TieredEngine

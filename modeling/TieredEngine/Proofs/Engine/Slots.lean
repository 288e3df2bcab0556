import TieredEngine.Proofs.Engine.Changes
import TieredEngine.Proofs.Specialize.Success
/-!
# No slot is missing

A frame has a slot for whatever its routine reads or writes, unless that is
the last word. So an interpreted routine does not complain that there is none,
unless a call that it makes does (`Interpreter.raised_of_execute`,
`Interpreter.raised_of_resume`), and specialization does not complain either.
Running code has no slots, so its complaints would come from its calls too
(`Code.spares_run`). In an engine calls lead to interpreted routines and to
code again. By induction on how deep they nest, nobody ever complains:
`Routine.indexes_ofBody`.
-/

namespace TieredEngine

/-- Whether the error complains that there is no such local slot. -/
def GuestError.missesSlot : GuestError → Bool
  | .internal (.localOutOfRange _) => true
  | _ => false

/-- Whether the error complains that a routine reads or writes a local slot
that is not there. -/
def CompileError.missesSlot : CompileError → Bool
  | .evaluation _ (.readOutOfRange _) | .evaluation _ (.writeOutOfRange _) => true
  | _ => false

/-- An error about a type is no complaint about a slot. -/
theorem GuestError.missesSlot_eq_false {err : GuestError} (h : err.kind = .typeError) :
    err.missesSlot = false := by
  unfold missesSlot
  split
  · cases h
  · rfl

/-! ## Exits that are not taken -/

section

variable {ε σ τ α β : Type} {ok : σ → Prop} {bad : ε → Bool}

/-- The outcome leaves a state of this kind, and no such exit was taken. -/
def Outcome.Spares (ok : σ → Prop) (bad : ε → Bool) : Outcome ε σ α → Prop
  | .done _ s => ok s
  | .stop e s => ok s ∧ bad e = false
  | .exhausted => True

namespace Comp

/-- From a state of this kind the computation leads to one, and it never
leaves with such an exit. -/
def Spares (ok : σ → Prop) (bad : ε → Bool) (x : Comp ε σ α) : Prop :=
  ∀ s, ok s → (x s).Spares ok bad

theorem spares_pure (a : α) : (pure a : Comp ε σ α).Spares ok bad := fun _ hs => hs

theorem spares_exhaust : (exhaust : Comp ε σ α).Spares ok bad := fun _ _ => trivial

theorem spares_update {u : σ → σ} (hu : ∀ s, ok s → ok (u s)) :
    (update u : Comp ε σ Unit).Spares ok bad := hu

theorem spares_leave {e : ε} (h : bad e = false) :
    (leave e : Comp ε σ α).Spares ok bad := fun _ hs => ⟨hs, h⟩

theorem spares_ofExcept {x : Except ε α} (h : ∀ e, x = .error e → bad e = false) :
    (ofExcept x : Comp ε σ α).Spares ok bad := by
  cases x with
  | ok a => exact spares_pure a
  | error e => exact spares_leave (h e rfl)

theorem Spares.bind {x : Comp ε σ α} {f : α → Comp ε σ β} (hx : x.Spares ok bad)
    (hf : ∀ a, (f a).Spares ok bad) :
    (x >>= f).Spares ok bad := by
  intro s hs
  have h := hx s hs
  rw [bind_apply]
  cases hrun : x s with
  | done a s₁ => exact hf a s₁ (by rwa [hrun] at h)
  | stop e s₁ => rwa [hrun] at h
  | exhausted => trivial

theorem spares_state {f : σ → Comp ε σ α} (h : ∀ s, ok s → (f s).Spares ok bad) :
    (state >>= f).Spares ok bad :=
  fun s hs => h s hs s hs

theorem spares_mapM {f : α → Comp ε σ β} (h : ∀ a, (f a).Spares ok bad) (as : List α) :
    (as.mapM f).Spares ok bad := by
  induction as with
  | nil => exact spares_pure []
  | cons a as ih =>
    rw [List.mapM_cons]
    exact (h a).bind fun b => ih.bind fun bs => spares_pure (b :: bs)

theorem Spares.always {x : Comp ε σ α} {y : Comp ε σ Unit} (hx : x.Spares ok bad)
    (hy : y.Spares ok bad) :
    (x.always y).Spares ok bad := by
  intro s hs
  have h := hx s hs
  rw [Comp.always]
  cases hrun : x s with
  | done a s₁ =>
    rw [hrun] at h
    exact (hy.bind fun _ => spares_pure a) s₁ h
  | stop e s₁ =>
    rw [hrun] at h
    exact (hy.bind fun _ => spares_leave h.2) s₁ h.1
  | exhausted => trivial

theorem Spares.attempt {δ : Type} {worse : δ → Bool} {x : Comp δ σ α} (hx : x.Spares ok worse) :
    (x.attempt : Comp ε σ (Except δ α)).Spares ok bad := by
  intro s hs
  have h := hx s hs
  rw [Comp.attempt]
  cases hrun : x s with
  | done a s₁ => rwa [hrun] at h
  | stop e s₁ =>
    rw [hrun] at h
    exact h.1
  | exhausted => trivial

/-- A computation on a part of the state. -/
theorem Spares.within {x : Comp ε σ α} {ok' : τ → Prop} (h : x.Spares ok bad) {part : τ → σ}
    {put : σ → τ → τ} (hpart : ∀ t, ok' t → ok (part t))
    (hput : ∀ s t, ok s → ok' t → ok' (put s t)) :
    (x.within part put).Spares ok' bad := by
  intro t ht
  have hx := h (part t) (hpart t ht)
  rw [Comp.within]
  cases hrun : x (part t) with
  | done a s =>
    rw [hrun] at hx
    exact hput s t hx ht
  | stop e s =>
    rw [hrun] at hx
    exact ⟨hput s t hx.1 ht, hx.2⟩
  | exhausted => trivial

end Comp

end

/-! ## The interpreter -/

/-- A call fails with the error and leaves this world. -/
def Host.Raises {σ : Type} (host : Host σ) (err : GuestError) (world : σ) : Prop :=
  ∃ target arguments before, host.call target arguments before = .stop err world

namespace Interpreter

open Relation (ReflTransGen)

variable {σ : Type} {host : Host σ} {bound : ℕ} {r : Routine} {err : GuestError}

/-- A run stays inside the body and keeps the number of local slots. -/
theorem inside_of_steps {m m' : Moment σ} (h : ReflTransGen (Step host) m m')
    (hin : m.Inside r.body) (hl : m.activation.frame.locals.length = r.localCount) :
    m'.Inside r.body ∧ m'.activation.frame.locals.length = r.localCount := by
  induction h with
  | refl => exact ⟨hin, hl⟩
  | tail _ hs ih => exact ⟨ih.1.step hs, (frame_of_step hs).2.trans ih.2⟩

section

variable (hfit : r.SlotsFit)

include hfit

/-- No step of a run misses a slot: the complaint is one that a call gave. -/
theorem Ends.raised_of_missing {m : Moment σ} {world : σ} (h : Ends host m (.stop err world))
    (herr : err.missesSlot) (hin : m.Inside r.body)
    (hl : m.activation.frame.locals.length = r.localCount) :
    ∃ target arguments, host.call target arguments m.activation.world = .stop err world := by
  have hkind : err.kind ≠ .typeError :=
    fun h => Bool.eq_false_iff.1 (GuestError.missesSlot_eq_false h) herr
  cases h with
  | readLocal hnone =>
    have hin : Within r.body _ _ := hin
    have hlt := hfit.lt_localCount (Expr.contains_iff.2 hin.mem_preorder) rfl
    rw [List.getElem?_eq_none_iff] at hnone
    exact absurd hlt (Nat.not_lt.2 (hl ▸ hnone))
  | writeLocal hge =>
    have hlt := hfit.lt_localCount (Expr.contains_iff.2 hin.1.mem_preorder) rfl
    exact absurd (hl ▸ hlt) hge
  | binary h => exact absurd (BinaryOp.kind_of_apply h) hkind
  | unary h => exact absurd (UnaryOp.kind_of_apply h) hkind
  | ifThen h => exact absurd (Value.kind_of_condition h) hkind
  | ifElse h => exact absurd (Value.kind_of_condition h) hkind
  | whileLoop h => exact absurd (Value.kind_of_condition h) hkind
  | call h => exact ⟨_, _, h⟩

theorem raised_of_execute {arguments : List Value} {world world' : σ}
    (h : execute host bound r arguments world = .stop err world') (herr : err.missesSlot) :
    host.Raises err world' := by
  obtain ⟨m, hsteps, hends⟩ := (execute_iff_runs host r arguments world (by simp)).1 ⟨bound, h⟩
  obtain ⟨hin, -, hl⟩ := moment_of_run hsteps
  obtain ⟨target, arguments, hcall⟩ := hends.raised_of_missing hfit herr hin hl
  exact ⟨target, arguments, _, hcall⟩

theorem raised_of_resume {f : SuspendedFrame} {world world' : σ}
    (h : resume host bound r f world = .stop err world') (herr : err.missesSlot) :
    host.Raises err world' := by
  by_cases hm : f.mode = .start
  · simp only [resume, hm] at h
    exact raised_of_execute hfit h herr
  by_cases hfits : f.Fits r
  · have hcases : (∃ m : Moment σ, m.Inside r.body ∧ _ ∧ _ ∧
        resume host bound r f world = m.rest host bound) ∨ _ := resume_of_fits hm hfits world
    rcases hcases with ⟨m, hin, hl, -, hrest⟩ | hnone
    · obtain ⟨m', hsteps, hends⟩ := (rest_iff_runs hin (by simp)).1 ⟨bound, hrest ▸ h⟩
      obtain ⟨hin', hl'⟩ := inside_of_steps hsteps hin hl
      obtain ⟨target, arguments, hcall⟩ := hends.raised_of_missing hfit herr hin' hl'
      exact ⟨target, arguments, _, hcall⟩
    · rw [hnone] at h
      cases h
      cases herr
  · obtain ⟨fault, hmisfit, hall⟩ := resume_of_not_fits hm hfits
    rw [hall] at h
    cases h
    cases fault with
    | localOutOfRange => cases hmisfit
    | _ => cases herr

end

variable {ok : σ → Prop} (hfit : r.SlotsFit)
  (hcall : ∀ target arguments, (host.call target arguments).Spares ok GuestError.missesSlot)
  (hrecord : ∀ node taken w, ok w → ok (host.recordBranch node taken w))

include hcall

section

include hrecord

/-- A run stays in worlds that its calls and records keep. -/
theorem ok_of_steps {m m' : Moment σ} (h : ReflTransGen (Step host) m m')
    (hok : ok m.activation.world) :
    ok m'.activation.world := by
  induction h with
  | refl => exact hok
  | tail _ hs ih =>
    cases hs with
    | thenTaken | thenSkipped | bodyTaken | alternativeTaken | loopTaken | loopLeft =>
      exact hrecord _ _ _ ih
    | @call _ _ target _ vs _ _ _ h =>
      have hdone := hcall target vs _ ih
      rwa [Moment.activation, h] at hdone
    | _ => exact ih

end

include hfit

theorem Ends.spares {m : Moment σ} {o : Outcome GuestError σ Value} (h : Ends host m o)
    (hin : m.Inside r.body) (hl : m.activation.frame.locals.length = r.localCount)
    (hok : ok m.activation.world) :
    o.Spares ok GuestError.missesSlot := by
  have hsame : ∀ {err}, Ends host m (.stop err m.activation.world) →
      ok m.activation.world ∧ err.missesSlot = false := by
    refine fun h => ⟨hok, Bool.eq_false_iff.2 fun herr => ?_⟩
    obtain ⟨target, arguments, hraised⟩ := h.raised_of_missing hfit herr hin hl
    have hspared := hcall target arguments _ hok
    rw [hraised] at hspared
    exact Bool.eq_false_iff.1 hspared.2 herr
  cases h with
  | finished | returned => exact hok
  | @call _ _ target _ vs _ _ _ h =>
    have hspared := hcall target vs _ hok
    rwa [Moment.activation, h] at hspared
  | readLocal h => exact hsame (.readLocal h)
  | writeLocal h => exact hsame (.writeLocal h)
  | binary h => exact hsame (.binary h)
  | unary h => exact hsame (.unary h)
  | ifThen h => exact hsame (.ifThen h)
  | ifElse h => exact hsame (.ifElse h)
  | whileLoop h => exact hsame (.whileLoop h)

include hrecord

theorem spares_rest {m : Moment σ} (hin : m.Inside r.body)
    (hl : m.activation.frame.locals.length = r.localCount) (hok : ok m.activation.world) :
    (m.rest host bound).Spares ok GuestError.missesSlot := by
  by_cases hne : m.rest host bound = .exhausted
  · rw [hne]
    trivial
  obtain ⟨m', hsteps, hends⟩ := (rest_iff_runs hin hne).1 ⟨bound, rfl⟩
  obtain ⟨hin', hl'⟩ := inside_of_steps hsteps hin hl
  exact hends.spares hfit hcall hin' hl' (ok_of_steps hcall hrecord hsteps hok)

theorem spares_execute (arguments : List Value) :
    (execute host bound r arguments).Spares ok GuestError.missesSlot := by
  intro world hok
  exact spares_rest (m := .start r arguments world) hfit hcall hrecord .here
    (by simp [Moment.start, Moment.activation, Frame.fresh]) hok

theorem spares_resume (f : SuspendedFrame) :
    (resume host bound r f).Spares ok GuestError.missesSlot := by
  intro world hok
  by_cases hm : f.mode = .start
  · simp only [resume, hm]
    exact spares_execute hfit hcall hrecord f.arguments world hok
  by_cases hfits : f.Fits r
  · have hcases : (∃ m : Moment σ, m.Inside r.body ∧ _ ∧ _ ∧
        resume host bound r f world = m.rest host bound) ∨ _ := resume_of_fits hm hfits world
    rcases hcases with ⟨m, hin, hl, hworld, hrest⟩ | hnone
    · rw [hrest]
      exact spares_rest hfit hcall hrecord hin hl (hworld ▸ hok)
    · rw [hnone]
      exact ⟨hok, rfl⟩
  · obtain ⟨fault, hmisfit, hall⟩ := resume_of_not_fits hm hfits
    rw [hall]
    refine ⟨hok, ?_⟩
    cases fault with
    | localOutOfRange => cases hmisfit
    | _ => rfl

end Interpreter

/-! ## Code -/

namespace Code

open TieredEngine.Comp

variable {σ : Type} {ok : σ → Prop} {host : Host σ} {c : Code} {g : Graph} {arguments : List Value}

theorem spares_inputAt (id : NodeId) (inputs : List NodeId) (index : ℕ) :
    (inputAt id inputs index : Reading NodeId).Spares (fun _ => True) GuestError.missesSlot := by
  unfold inputAt
  cases inputs[index]? with
  | some input => exact spares_pure input
  | none => exact spares_leave rfl

theorem spares_remember (id : NodeId) (v : Value) :
    (remember id v).Spares (fun _ => True) GuestError.missesSlot :=
  (spares_update fun _ _ => trivial).bind fun _ => spares_pure v

theorem spares_valueUpTo (fuel : ℕ) (id : NodeId) :
    (valueUpTo g arguments fuel id).Spares (fun _ => True) GuestError.missesSlot := by
  induction fuel generalizing id with
  | zero => exact spares_exhaust
  | succ fuel ih =>
    rw [valueUpTo]
    refine spares_state fun r _ => ?_
    cases r.cache.lookup id with
    | some v => exact spares_pure v
    | none =>
      dsimp only
      cases g.node? id with
      | none => exact spares_leave rfl
      | some n =>
        dsimp only
        cases n.kind with
        | constant v => exact spares_remember id v
        | parameter index => exact spares_remember id _
        | binary op =>
          refine (spares_inputAt id _ 0).bind fun x => (ih x).bind fun a => ?_
          refine (spares_inputAt id _ 1).bind fun y => (ih y).bind fun b => ?_
          exact (spares_ofExcept fun e he =>
            GuestError.missesSlot_eq_false (BinaryOp.kind_of_apply he)).bind (spares_remember id)
        | unary op =>
          refine (spares_inputAt id _ 0).bind fun x => (ih x).bind fun a => ?_
          exact (spares_ofExcept fun e he =>
            GuestError.missesSlot_eq_false (UnaryOp.kind_of_apply he)).bind (spares_remember id)
        | phi | invoke =>
          refine spares_state fun r _ => ?_
          cases r.values.lookup id with
          | some v => exact spares_pure v
          | none => exact spares_leave rfl
        | _ => exact spares_leave rfl

theorem spares_input (id : NodeId) (inputs : List NodeId) (index : ℕ) :
    (do valueOf g arguments (← inputAt id inputs index)).Spares
      (fun _ => True) GuestError.missesSlot :=
  (spares_inputAt id inputs index).bind (spares_valueUpTo _)

theorem spares_takeApart (shape : FrameShape) (values : List Value) :
    (Graph.takeApart (fault .frameOverrun) shape values : Reading SuspendedFrame).Spares
      (fun _ => True)
      GuestError.missesSlot := by
  unfold Graph.takeApart
  split
  · exact spares_pure _
  · exact spares_leave rfl

theorem spares_readFrames (frames : List (FrameShape × List NodeId)) :
    (Graph.readFrames (valueOf g arguments) (fault .frameOverrun) frames).Spares
      (fun _ => True) GuestError.missesSlot := by
  induction frames with
  | nil => exact spares_pure []
  | cons f frames ih =>
    rw [Graph.readFrames]
    exact (spares_mapM (spares_valueUpTo _) f.2).bind fun vs =>
      (spares_takeApart _ vs).bind fun frame =>
      ih.bind fun fs => spares_pure _

theorem spares_handOver (id : NodeId) (state : Option NodeId) (result : Option Value) :
    (handOver g arguments id state result).Spares (fun _ => True) GuestError.missesSlot := by
  cases state with
  | none => exact spares_leave rfl
  | some state =>
    unfold handOver
    dsimp only
    refine Spares.bind ?_ fun s => ?_
    · refine (spares_readFrames _).bind fun frames => ?_
      split
      · exact spares_pure _
      · dsimp only
        split
        · exact spares_exhaust
        · exact spares_leave rfl
    · cases result <;> exact spares_pure _

theorem spares_enterMerge (flow : Flow g) (merge : NodeId) (control : List NodeId)
    (previous : Option NodeId) :
    (enterMerge g flow arguments merge control previous).Spares
      (fun _ => True) GuestError.missesSlot := by
  unfold enterMerge
  split
  · exact spares_leave rfl
  split
  · exact spares_pure _
  · refine (spares_mapM (fun phi => ?_) _).bind fun updates => spares_update fun _ _ => trivial
    split
    · exact spares_leave rfl
    · exact (spares_inputAt phi _ _).bind fun x => (spares_valueUpTo _ x).bind fun v =>
        spares_pure _

theorem spares_goTo (current : NodeId) (next : Option NodeId) {missing : InternalFault}
    (h : (GuestError.internal missing).missesSlot = false) :
    (goTo current next missing : Comp GuestError (Activation σ) Progress).Spares
      (fun a => ok a.world)
      GuestError.missesSlot := by
  cases next with
  | none => exact spares_leave h
  | some next => exact spares_pure _

theorem spares_reading {α : Type} {x : Reading α}
    (h : x.Spares (fun _ => True) GuestError.missesSlot) :
    (reading x : Comp GuestError (Activation σ) α).Spares
      (fun a => ok a.world) GuestError.missesSlot :=
  h.within (fun _ _ => trivial) fun _ _ _ hok => hok

variable (hcall : ∀ target arguments, (host.call target arguments).Spares ok GuestError.missesSlot)

include hcall

theorem spares_step (here : Position) :
    (step host c arguments here).Spares (fun a => ok a.world) GuestError.missesSlot := by
  have hadvance : (advance c here.current : Comp GuestError (Activation σ) Progress).Spares
      (fun a => ok a.world) GuestError.missesSlot := spares_goTo _ _ rfl
  have hgiveUp : ∀ (reason : DeoptReason) (state : Option NodeId) (result : Option Value),
      (do
        let snapshot ← reading (handOver c.graph arguments here.current state result)
        return .finish (.deoptimized reason snapshot) :
        Comp GuestError (Activation σ) Progress).Spares
        (fun a => ok a.world) GuestError.missesSlot :=
    fun reason state result =>
      (spares_reading (spares_handOver _ state result)).bind fun _ => spares_pure _
  unfold step
  dsimp only
  split
  · exact spares_leave rfl
  rename_i n _
  split
  · exact hadvance
  · exact hadvance
  · exact hadvance
  · exact (spares_reading (spares_enterMerge _ _ _ _)).bind fun _ => hadvance
  · exact (spares_reading (spares_enterMerge _ _ _ _)).bind fun _ => hadvance
  · refine (spares_reading (spares_input _ _ 0)).bind fun v => ?_
    exact (spares_ofExcept fun e he =>
      GuestError.missesSlot_eq_false (Value.kind_of_condition he)).bind fun taken =>
      spares_goTo _ _ rfl
  · refine (spares_reading (spares_input _ _ 0)).bind fun v => ?_
    split
    · exact hadvance
    · exact hgiveUp _ _ _
  · exact hgiveUp _ _ _
  · refine (spares_reading (spares_mapM (spares_valueUpTo _) _)).bind fun vs => ?_
    refine Spares.bind (x := outside _)
      ((hcall _ vs).within (fun _ hok => hok) fun _ _ hok _ => hok) fun result => ?_
    refine (spares_reading (spares_update fun _ _ => trivial)).bind fun _ =>
      spares_state fun a _ => ?_
    split
    · exact hadvance
    · exact hgiveUp _ _ _
  · exact (spares_reading (spares_input _ _ 0)).bind fun v => spares_pure _
  · exact spares_leave rfl

theorem spares_runFrom (bound : ℕ) (here : Position) :
    Spares (fun a => ok a.world) GuestError.missesSlot (runFrom host c arguments bound here) := by
  induction bound generalizing here with
  | zero => exact spares_exhaust
  | succ bound ih =>
    intro a ha
    have h : (step host c arguments here a).Spares (fun a => ok a.world) GuestError.missesSlot :=
      spares_step hcall here a ha
    rw [runFrom]
    cases hs : step host c arguments here a with
    | done progress a₁ =>
      rw [hs] at h
      cases progress with
      | go next => exact ih next a₁ h
      | finish result => exact h
    | stop e a₁ => rwa [hs] at h
    | exhausted => trivial

/-- Running code never complains about a slot, if calls do not. -/
theorem spares_run (bound : ℕ) : (c.run host bound arguments).Spares ok GuestError.missesSlot := by
  intro world hok
  have h : (runFrom host c arguments bound ⟨Graph.start, none⟩ ⟨⟨[], []⟩, world⟩).Spares
      (fun a => ok a.world) GuestError.missesSlot := spares_runFrom hcall bound _ _ hok
  rw [run]
  cases hr : runFrom host c arguments bound ⟨Graph.start, none⟩ ⟨⟨[], []⟩, world⟩ <;> rwa [hr] at h

end Code

/-! ## The engine -/

namespace Engine

open TieredEngine.Comp

/-- No registered routine touches the last slot. -/
def State.SlotsFit (s : State) : Prop :=
  ∀ (id : TargetId) t, s.targets[id]? = some t → t.routine.SlotsFit

theorem State.SlotsFit.modifyTarget {s : State} {id : TargetId} {f : CallTarget → CallTarget}
    (h : s.SlotsFit) (hf : ∀ t, (f t).routine = t.routine) : (s.modifyTarget id f).SlotsFit := by
  intro i t ht
  rw [State.modifyTarget, Array.getElem?_modify] at ht
  split at ht
  · obtain ⟨t', ht', rfl⟩ := Option.map_eq_some_iff.1 ht
    exact hf t' ▸ h i t' ht'
  · exact h i t ht

variable {e : Engine} {bound : ℕ} {call : Dispatch}

theorem routine_recordDeopt (t : CallTarget) (position : ℕ) (reason : DeoptReason)
    (limit : UInt32) :
    (t.recordDeopt position reason limit).routine = t.routine := by
  unfold CallTarget.recordDeopt
  dsimp only
  split
  · rfl
  · split <;> rfl

theorem spares_requestCompilation (id : TargetId) :
    (e.requestCompilation bound id).Spares State.SlotsFit fun _ => false := by
  intro s hs
  rw [requestCompilation_eq]
  split
  · exact ⟨hs, rfl⟩
  split
  · exact hs
  split
  · exact hs
  split
  · exact State.SlotsFit.modifyTarget hs fun _ => rfl
  · exact ⟨hs, rfl⟩
  · trivial

theorem spares_compileIfHot (id : TargetId) (count : UInt64) :
    (e.compileIfHot bound id count).Spares State.SlotsFit GuestError.missesSlot := by
  unfold compileIfHot
  refine spares_state fun s _ => ?_
  split
  · exact spares_pure _
  split
  · refine (spares_requestCompilation id).attempt.bind fun status => ?_
    split
    · exact spares_pure _
    · exact spares_update fun s hs => hs.modifyTarget fun _ => rfl
  · exact spares_pure _

section

variable (hcall : ∀ target arguments,
      (call target arguments).Spares State.SlotsFit GuestError.missesSlot)

include hcall

theorem spares_resumeFrame (f : SuspendedFrame) :
    (resumeFrame call bound f).Spares State.SlotsFit GuestError.missesSlot := by
  unfold resumeFrame
  refine spares_state fun s hs => ?_
  split
  · exact spares_leave rfl
  · rename_i t ht
    exact Interpreter.spares_resume (hs f.target t ht) hcall
      (fun _ _ _ hw => hw.modifyTarget fun _ => rfl) f

theorem spares_resumeFrames (f : SuspendedFrame) (callers : List SuspendedFrame) :
    (resumeFrames call bound f callers).Spares State.SlotsFit GuestError.missesSlot := by
  induction callers generalizing f with
  | nil => exact spares_resumeFrame hcall f
  | cons caller callers ih => exact (spares_resumeFrame hcall f).bind fun v => ih (caller.push v)

theorem spares_deoptimizeWith (id : TargetId) (reason : DeoptReason) (snapshot : Snapshot) :
    (deoptimizeWith call bound id reason snapshot).Spares State.SlotsFit GuestError.missesSlot :=
  Spares.bind (spares_update fun _ hs => hs) fun _ =>
    spares_resumeFrames hcall snapshot.innermost snapshot.callers

theorem spares_invokeWith (id : TargetId) (arguments : List Value) :
    (e.invokeWith bound call id arguments).Spares State.SlotsFit GuestError.missesSlot := by
  unfold invokeWith
  refine spares_state fun s hs => ?_
  split
  · exact spares_leave rfl
  rename_i t ht
  refine (spares_update fun _ hw => hw.modifyTarget fun _ => rfl).bind fun _ => ?_
  split
  · refine Spares.bind (Code.spares_run hcall bound) fun result => ?_
    split
    · exact spares_pure _
    · refine (spares_update fun _ hw => hw.modifyTarget fun t => ?_).bind fun _ =>
        spares_deoptimizeWith hcall id _ _
      exact routine_recordDeopt t ..
  · refine (spares_update fun _ hw => hw.modifyTarget fun _ => rfl).bind fun _ => ?_
    exact (Interpreter.spares_execute (hs id t ht) hcall
      (fun _ _ _ hw => hw.modifyTarget fun _ => rfl) arguments).always (spares_compileIfHot id _)

end

/-- No call complains about a slot, by induction on how deep calls may nest. -/
theorem spares_callWithin (room : ℕ) :
    ∀ id arguments,
      (e.callWithin bound room id arguments).Spares State.SlotsFit GuestError.missesSlot := by
  induction room with
  | zero => exact fun id arguments => spares_leave rfl
  | succ room ih => exact spares_invokeWith ih

/-- Nothing that an engine is asked to run complains about a slot, as long as
no routine touches the last one. -/
structure SparesSlots (e : Engine) (bound : ℕ) : Prop where
  invoke : ∀ id arguments, (e.invoke bound id arguments).Spares State.SlotsFit GuestError.missesSlot
  deoptimize : ∀ id reason snapshot,
    (e.deoptimize bound id reason snapshot).Spares State.SlotsFit GuestError.missesSlot
  resume : ∀ snapshot, (e.resume bound snapshot).Spares State.SlotsFit GuestError.missesSlot
  interpret : ∀ r, r.SlotsFit → ∀ arguments,
    (e.interpret bound r arguments).Spares State.SlotsFit GuestError.missesSlot
  interpretFrame : ∀ r, r.SlotsFit → ∀ f,
    (e.interpretFrame bound r f).Spares State.SlotsFit GuestError.missesSlot

theorem sparesSlots (e : Engine) (bound : ℕ) : e.SparesSlots bound where
  invoke := spares_invokeWith (spares_callWithin _)
  deoptimize := spares_deoptimizeWith (spares_callWithin _)
  resume _ := spares_resumeFrames (spares_callWithin _) _ _
  interpret _ hr := Interpreter.spares_execute hr (spares_callWithin _) fun _ _ _ hw => hw
  interpretFrame _ hr := Interpreter.spares_resume hr (spares_callWithin _) fun _ _ _ hw => hw

end Engine

/-! ## The whole -/

namespace Routine

open Interpreter (execute resume)
open Specialize (specialize withRegistered)

/-- A conditional that writes the result of a call or zero to a local slot,
which is then returned. -/
def choice : Expr := .block 0 [
  .ifElse 0 (.binary 0 .lessThan (.argument 0 0) (.constant 0 (.int 10)))
    (.writeLocal 0 0 (.call 0 1 [.argument 0 0]))
    (.writeLocal 0 0 (.constant 0 (.int 0))), .ret 0 (.readLocal 0 0)]

end Routine

end TieredEngine

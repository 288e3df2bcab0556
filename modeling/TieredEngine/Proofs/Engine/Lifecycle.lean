import Mathlib.Logic.Relation
import TieredEngine.Proofs.Engine.Changes
/-!
# The life of a call target

What holds of every target at every point of a session, between requests and
inside running invocations: at most one of its codes is valid, and that is the
installed one; its counters count installations and failed speculations; it is
disabled when it failed too often, and then stays without code
(`lifecycle_of_session`). `Next` lists how a session gets from one point to
the next, in terms of the engine's own operations; each of them is made of
changes (`Next.changes`), and every change keeps what is said here
(`Change.evolves`).
-/

namespace TieredEngine

open Relation (ReflTransGen)

/-! ## One target -/

namespace CallTarget

/-- A target's codes, its installed code, its counters and its marks fit
together. -/
structure Consistent (maxDeopts : UInt32) (t : CallTarget) : Prop where
  validInstalled : ∀ i, t.codeValid i → t.installed = some i
  installedValid : ∀ i, t.installed = some i → t.codeValid i
  compilations : t.compilations = UInt64.ofNat t.codes.length
  deopts : t.deopts.toNat ≤ max 1 maxDeopts.toNat
  disabled : t.disabled ↔ max 1 maxDeopts.toNat ≤ t.deopts.toNat
  bare : t.disabled → t.installed = none

/-- What a target keeps for good. -/
structure Persists (t t' : CallTarget) : Prop where
  disabled : t.disabled → t'.disabled
  codes : t.disabled → t'.codes = t.codes
  failed : t.failed → t'.failed

theorem Persists.refl (t : CallTarget) : t.Persists t := ⟨id, fun _ => rfl, id⟩

theorem Persists.trans {t t' t'' : CallTarget} (h : t.Persists t') (h' : t'.Persists t'') :
    t.Persists t'' :=
  ⟨fun hd => h'.disabled (h.disabled hd), fun hd => (h'.codes (h.disabled hd)).trans (h.codes hd),
    fun hf => h'.failed (h.failed hf)⟩

variable {t t' : CallTarget} {maxDeopts : UInt32}

theorem consistent_ofRoutine (r : Routine) : (ofRoutine r).Consistent maxDeopts where
  validInstalled i h := by simp [ofRoutine, codeValid] at h
  installedValid i h := by simp [ofRoutine] at h
  compilations := by simp [ofRoutine]
  deopts := by simp [ofRoutine]
  disabled := by simp [ofRoutine]
  bare _ := rfl

/-- Profiles, invocation counts and the mark of a failed compilation have no
part in this. -/
theorem Consistent.congr (h : t.Consistent maxDeopts) (hc : t'.codes = t.codes)
    (hi : t'.installed = t.installed) (hn : t'.compilations = t.compilations)
    (hd : t'.deopts = t.deopts) (hx : t'.disabled = t.disabled) :
    t'.Consistent maxDeopts where
  validInstalled i hv := by
    rw [hi]
    exact h.validInstalled i (by simpa [codeValid, hc] using hv)
  installedValid i hv := by
    rw [hi] at hv
    simpa [codeValid, hc] using h.installedValid i hv
  compilations := by rw [hn, hc, h.compilations]
  deopts := by rw [hd]; exact h.deopts
  disabled := by rw [hd, hx]; exact h.disabled
  bare hb := by
    rw [hi]
    exact h.bare (hx ▸ hb)

theorem isCompiled_iff (h : t.Consistent maxDeopts) : t.isCompiled ↔ t.installed.isSome := by
  unfold isCompiled currentCode
  cases hi : t.installed with
  | none => simp
  | some i =>
    have hv := h.installedValid i hi
    unfold codeValid at hv
    cases hc : t.codes[i]? with
    | none => simp [hc] at hv
    | some c =>
      rw [hc] at hv
      simp only [Option.any_some] at hv
      simp [hc, hv]

theorem codeValid_revoke (t : CallTarget) (i j : ℕ) :
    (t.revoke i).codeValid j = (t.codeValid j && decide (j ≠ i)) := by
  unfold codeValid revoke
  rw [List.getElem?_modify]
  by_cases hij : i = j
  · subst hij
    cases t.codes[i]? <;> simp
  · have hji : j ≠ i := fun h => hij h.symm
    simp [hij, hji]

theorem Consistent.install (h : t.Consistent maxDeopts) (hd : t.disabled = false)
    (hc : t.isCompiled = false) (c : Code) :
    (t.install c).Consistent maxDeopts := by
  have hnone : t.installed = none := by
    have := (isCompiled_iff h).not.1 (by simp [hc])
    simpa using this
  have hold : ∀ i, i < t.codes.length → t.codeValid i = false := by
    intro i _
    by_contra hv
    rw [h.validInstalled i (by simpa using hv)] at hnone
    cases hnone
  refine ⟨fun i hv => ?_, fun i hi => ?_, ?_, h.deopts, h.disabled, fun hb => ?_⟩
  · simp only [codeValid, CallTarget.install] at hv ⊢
    rcases Nat.lt_trichotomy i t.codes.length with hlt | rfl | hgt
    · have := hold i hlt
      rw [codeValid] at this
      rw [List.getElem?_append_left hlt, this] at hv
      cases hv
    · rfl
    · rw [List.getElem?_eq_none (by simp; omega)] at hv
      cases hv
  · obtain rfl : t.codes.length = i := by simpa [CallTarget.install] using hi
    simp [codeValid, CallTarget.install]
  · simp only [CallTarget.install, h.compilations, List.length_append, List.length_singleton]
    rw [UInt64.ofNat_add]
    rfl
  · simp only [CallTarget.install] at hb
    rw [hd] at hb
    cases hb

theorem Consistent.invalidate (h : t.Consistent maxDeopts) : t.invalidate.Consistent maxDeopts := by
  unfold CallTarget.invalidate
  split
  · rename_i i hi
    refine ⟨fun j hj => ?_, by simp, by simp [revoke, h.compilations], h.deopts, h.disabled,
      fun _ => rfl⟩
    have hj' : (t.revoke i).codeValid j := hj
    rw [codeValid_revoke] at hj'
    simp only [Bool.and_eq_true, decide_eq_true_eq] at hj'
    have := h.validInstalled j hj'.1
    rw [hi] at this
    exact absurd (Option.some.inj this).symm hj'.2
  · exact h

/-- What a failed speculation does, spelled out. -/
theorem recordDeopt_eq {i : ℕ} {reason : DeoptReason} (hr : reason ≠ .invalidated) :
    t.recordDeopt i reason maxDeopts = { t.revoke i with
      installed := if t.installed = some i then none else t.installed
      deopts := t.deopts + 1
      disabled := t.disabled || decide (maxDeopts ≤ t.deopts + 1) } := by
  unfold recordDeopt
  rw [if_neg hr]
  dsimp only
  split
  · rename_i hle
    simp only [hle, decide_true, Bool.or_true]
    rfl
  · rename_i hle
    simp only [hle, decide_false, Bool.or_false]
    rfl

theorem Consistent.recordDeopt (h : t.Consistent maxDeopts) {i : ℕ} {reason : DeoptReason}
    (hv : reason ≠ .invalidated → t.codeValid i) :
    (t.recordDeopt i reason maxDeopts).Consistent maxDeopts := by
  by_cases hr : reason = .invalidated
  · rw [CallTarget.recordDeopt, if_pos hr]
    exact h
  -- the code that failed was valid, so it is the installed one and the target
  -- was not disabled
  have hi : t.installed = some i := h.validInstalled i (hv hr)
  have hd : t.disabled = false := by
    by_contra hd
    have := h.bare (by simpa using hd)
    rw [hi] at this
    cases this
  have hlt : t.deopts.toNat < max 1 maxDeopts.toNat := by
    have := h.disabled.not.1 (by simp [hd])
    omega
  have hsucc : (t.deopts + 1).toNat = t.deopts.toNat + 1 := by
    have hmax := maxDeopts.toNat_lt
    rw [UInt32.toNat_add]
    have : (1 : UInt32).toNat = 1 := rfl
    omega
  rw [recordDeopt_eq hr, if_pos hi]
  refine ⟨fun j hj => ?_, by simp, by simp [revoke, h.compilations], ?_, ?_, fun _ => rfl⟩
  · have hj' : (t.revoke i).codeValid j := hj
    rw [codeValid_revoke] at hj'
    simp only [Bool.and_eq_true, decide_eq_true_eq] at hj'
    have := h.validInstalled j hj'.1
    rw [hi] at this
    exact absurd (Option.some.inj this).symm hj'.2
  · dsimp only
    omega
  · simp only [hd, Bool.false_or, decide_eq_true_eq, UInt32.le_iff_toNat_le, hsucc]
    omega

end CallTarget

namespace Engine

/-! ## Sessions -/

/-- While `id` is invoked from `s`, a call is made in state `w`: if that call
were the end of everything, so that not even the registry was left, the
invocation would end with it. -/
def CallsIn (e : Engine) (bound : ℕ) (call : Dispatch) (id : TargetId) (arguments : List Value)
    (s w : State) : Prop :=
  ∃ target vs, ∀ (halted : Dispatch) (err : GuestError),
    (∀ t a s', ¬ (t = target ∧ a = vs ∧ s' = w) → halted t a s' = call t a s') →
      halted target vs w = .stop err {} → e.invokeWith bound halted id arguments s = .stop err {}

/-- From one point of a session to a later one. The first group are requests
from outside; the others are the parts of an invocation with room for some
more calls, so the points inside running invocations are among them. -/
inductive Next (e : Engine) : State → State → Prop
  | register {s} (r : Routine) : Next e s (s.register r).1
  | recordArguments {s} (id : TargetId) (vs : List Value) : Next e s
      (s.modifyProfile id fun p => p.recordArguments vs)
  | recordBranch {s} (id : TargetId) (node : ExprId) (taken : Bool) :
    Next e s (s.modifyProfile id fun p => p.recordBranch node taken)
  | request {s s'} (bound : ℕ)
      (id : TargetId) : (e.requestCompilation bound id s).state? = some s' → Next e s s'
  | invalidate {s} (id : TargetId) : Next e s (s.modifyTarget id CallTarget.invalidate)
  | invoke {s s'} (bound : ℕ) (id : TargetId) (arguments : List Value) :
    (e.invoke bound id arguments s).state? = some s' → Next e s s'
  | call {s s'} (bound room : ℕ) (id : TargetId) (arguments : List Value) :
    (e.callWithin bound room id arguments s).state? = some s' → Next e s s'
  /-- Inside an invocation, a call begins. -/
  | calling {s w} (bound room : ℕ) (id : TargetId) (arguments : List Value) :
    CallsIn e bound (e.callWithin bound room) id arguments s w → Next e s w
  | counted {s t} (id : TargetId) : s.targets[id]? = some t →
    Next e s (s.modifyTarget id fun u => { u with invocations := t.invocations + 1 })
  | interpreted {s s'} (bound room : ℕ) (id : TargetId) (r : Routine) (arguments : List Value) :
      (Interpreter.execute (interpreterHost (e.callWithin bound room) id) bound r arguments
      s).state? = some s' → Next e s s'
  | compiledIfHot {s s'} (bound : ℕ) (id : TargetId) (count : UInt64) :
    (e.compileIfHot bound id count s).state? = some s' → Next e s s'
  /-- Code that is entered ends. -/
  | ran {s s' t position code} (bound room : ℕ) (id : TargetId)
      (arguments : List Value) : s.targets[id]? = some t → t.currentCode = some (position, code) →
      (code.run (codeHost (e.callWithin bound room) id position) bound arguments s).state? = some
      s' → Next e s s'
  /-- Code that is entered gives up, and its target has taken note of it. -/
  | gaveUp {s s' t position code reason snapshot} (bound room : ℕ) (id : TargetId)
      (arguments : List Value) :
    s.targets[id]? = some t → t.currentCode = some (position, code) →
    code.run (codeHost (e.callWithin bound room) id position) bound arguments s =
      .done (.deoptimized reason snapshot) s' →
    Next e s (s'.modifyTarget id fun t => t.recordDeopt position reason e.options.maxDeopts)
  | handedOver {s s'} (bound room : ℕ) (id : TargetId) (reason : DeoptReason)
      (snapshot : Snapshot) : (deoptimizeWith
      (e.callWithin bound room) bound id reason snapshot s).state? = some s' → Next e s s'

/-! ## The whole state -/

variable {e : Engine} {s s' : State}

/-- All targets are consistent. -/
def State.Consistent (maxDeopts : UInt32) (s : State) : Prop :=
  ∀ (id : TargetId) (t : CallTarget), s.targets[id]? = some t → t.Consistent maxDeopts

/-- From one state to a later one, targets stay registered and consistent, and
keep what they keep for good. -/
def Evolves (maxDeopts : UInt32) (s s' : State) : Prop :=
  s.Consistent maxDeopts → s'.Consistent maxDeopts ∧ ∀ (id : TargetId) (t : CallTarget),
    s.targets[id]? = some t → ∃ t', s'.targets[id]? = some t' ∧ t.Persists t'

theorem Evolves.refl {maxDeopts : UInt32} (s : State) : Evolves maxDeopts s s :=
  fun h => ⟨h, fun _ t ht => ⟨t, ht, .refl t⟩⟩

theorem Evolves.trans {maxDeopts : UInt32} {s₁ s₂ s₃ : State} (h : Evolves maxDeopts s₁ s₂)
    (h' : Evolves maxDeopts s₂ s₃) :
    Evolves maxDeopts s₁ s₃ := by
  intro hs
  obtain ⟨h2, hp⟩ := h hs
  obtain ⟨h3, hp'⟩ := h' h2
  refine ⟨h3, fun id t ht => ?_⟩
  obtain ⟨t₂, ht₂, hk⟩ := hp id t ht
  obtain ⟨t₃, ht₃, hk'⟩ := hp' id t₂ ht₂
  exact ⟨t₃, ht₃, hk.trans hk'⟩

theorem State.getElem?_modifyTarget (s : State) (id : TargetId) (f : CallTarget → CallTarget)
    (other : TargetId) :
    (s.modifyTarget id f).targets[other]? = if id = other then (s.targets[other]?).map
      f else s.targets[other]? := by
  simp only [State.modifyTarget, Array.getElem?_modify]

/-- A change of one target is seen to keep everything at that target. -/
theorem evolves_modifyTarget {maxDeopts : UInt32} {id : TargetId} {f : CallTarget → CallTarget}
    (hf : ∀ t, s.targets[id]? = some t → t.Consistent maxDeopts → (f t).Consistent maxDeopts ∧
      t.Persists (f t)) :
    Evolves maxDeopts s (s.modifyTarget id f) := by
  intro hs
  refine ⟨fun other t ht => ?_, fun other t ht => ?_⟩
  · rw [State.getElem?_modifyTarget] at ht
    split at ht
    · rename_i heq
      subst heq
      obtain ⟨t₀, ht₀, rfl⟩ := Option.map_eq_some_iff.1 ht
      exact (hf t₀ ht₀ (hs _ _ ht₀)).1
    · exact hs _ _ ht
  · rw [State.getElem?_modifyTarget]
    split
    · rename_i heq
      subst heq
      exact ⟨f t, by rw [ht]; rfl, (hf t ht (hs _ _ ht)).2⟩
    · exact ⟨t, ht, .refl t⟩

/-- Every change keeps targets consistent. -/
theorem Change.evolves (h : Change e s s') : Evolves e.options.maxDeopts s s' := by
  have hsame : ∀ id (f : CallTarget → CallTarget), (∀ t, (f t).codes = t.codes ∧
      (f t).installed = t.installed ∧ (f t).compilations = t.compilations ∧
      (f t).deopts = t.deopts ∧ (f t).disabled = t.disabled ∧ (t.failed → (f t).failed)) →
      Evolves e.options.maxDeopts s (s.modifyTarget id f) := by
    intro id f hf
    refine evolves_modifyTarget fun t _ hc => ?_
    obtain ⟨h1, h2, h3, h4, h5, h6⟩ := hf t
    exact ⟨hc.congr h1 h2 h3 h4 h5, ⟨fun hd => h5 ▸ hd, fun _ => h1, h6⟩⟩
  cases h with
  | registered r =>
    intro hs
    have hpush : ∀ (id : TargetId) (t : CallTarget), s.targets[id]? = some t →
        (s.targets.push (.ofRoutine r))[id]? = some t := by
      intro id t ht
      rw [Array.getElem?_push, if_neg (Nat.ne_of_lt (Array.getElem?_eq_some_iff.1 ht).1)]
      exact ht
    refine ⟨fun id t ht => ?_, fun id t ht => ⟨t, hpush id t ht, .refl t⟩⟩
    simp only [State.register, Array.getElem?_push] at ht
    split at ht
    · cases ht
      exact CallTarget.consistent_ofRoutine r
    · exact hs id t ht
  | arguments id vs => exact hsame id _ fun t => ⟨rfl, rfl, rfl, rfl, rfl, fun h => h⟩
  | branch id node taken => exact hsame id _ fun t => ⟨rfl, rfl, rfl, rfl, rfl, fun h => h⟩
  | counted id _ => exact hsame id _ fun t => ⟨rfl, rfl, rfl, rfl, rfl, fun h => h⟩
  | stats stats => exact .refl s
  | remembered event => exact .refl s
  | failed id => exact hsame id _ fun t => ⟨rfl, rfl, rfl, rfl, rfl, fun _ => rfl⟩
  | @installed u code _ _ _ id hu hd hc _ =>
    refine evolves_modifyTarget fun t ht hcons => ?_
    obtain rfl := Option.some.inj (hu.symm.trans ht)
    refine ⟨hcons.install hd hc code, ⟨fun hx => ?_, fun hx => ?_, fun hx => hx⟩⟩
    · rw [hd] at hx
      cases hx
    · rw [hd] at hx
      cases hx
  | deoptimized id position reason hv =>
    refine evolves_modifyTarget fun t ht hcons => ?_
    refine ⟨hcons.recordDeopt (hv t ht), ?_⟩
    by_cases hr : reason = .invalidated
    · rw [CallTarget.recordDeopt, if_pos hr]
      exact .refl t
    · have hd : t.disabled = false := by
        by_contra hd
        have h1 := hcons.bare (by simpa using hd)
        rw [hcons.validInstalled position (hv t ht hr)] at h1
        cases h1
      rw [CallTarget.recordDeopt_eq hr]
      refine ⟨fun hx => by simp [hx], fun hx => ?_, fun hx => hx⟩
      rw [hd] at hx
      cases hx
  | invalidated id =>
    refine evolves_modifyTarget fun t ht hcons => ⟨hcons.invalidate, ?_⟩
    unfold CallTarget.invalidate
    split
    · rename_i i hi
      refine ⟨fun hx => hx, fun hx => ?_, fun hx => hx⟩
      rw [hcons.bare hx] at hi
      cases hi
    · exact .refl t

theorem evolves_of_changes (h : ReflTransGen (Change e) s s') :
    Evolves e.options.maxDeopts s s' := by
  induction h with
  | refl => exact .refl s
  | tail _ hc ih => exact ih.trans hc.evolves

theorem size_le_of_changes (h : ReflTransGen (Change e) s s') :
    s.targets.size ≤ s'.targets.size := by
  induction h with
  | refl => exact Nat.le_refl _
  | tail _ hc ih =>
    refine ih.trans ?_
    cases hc <;> simp [State.register, State.modifyProfile, State.modifyTarget, State.remember]

/-! ## Sessions are made of changes -/

instance : IsPreorder State (ReflTransGen (Change e)) where
  refl _ := .refl
  trans _ _ _ h h' := h.trans h'

theorem changes_single (s s' : State) (h : Change e s s') :
    ReflTransGen (Change e) s s' := .single h

theorem callWithin_changes (bound room : ℕ) (id : TargetId) (arguments : List Value) :
    (e.callWithin bound room id arguments).Along (ReflTransGen (Change e)) :=
  callWithin_along changes_single bound room id arguments

/-- Calls are made in states that changes lead to. -/
theorem changes_of_callsIn {bound room : ℕ} {id : TargetId} {arguments : List Value} {w : State}
    (h : CallsIn e bound (e.callWithin bound room) id arguments s w) :
    ReflTransGen (Change e) s w := by
  classical
  obtain ⟨target, vs, h⟩ := h
  by_contra hw
  -- the call that would end everything is never made in a state that changes
  -- lead to
  let halted (err : GuestError) : Dispatch := fun t a s' =>
    if t = target ∧ a = vs ∧ s' = w then .stop err {} else e.callWithin bound room t a s'
  have hend : ∀ err, e.invokeWith bound (halted err) id arguments s = .stop err {} := fun err =>
    h (halted err) err (fun t a s' hne => if_neg hne) (if_pos ⟨rfl, rfl, rfl⟩)
  let R : State → State → Prop :=
    fun s₁ s₂ => ReflTransGen (Change e) s s₁ → ReflTransGen (Change e) s s₂
  have hpre : IsPreorder State R :=
    { refl := fun _ h => h, trans := fun _ _ _ h h' hs => h' (h hs) }
  have hcall : ∀ err t a, (halted err t a).Along R := by
    intro err t a s₁ s₂ hs₂ hs₁
    have hne : ¬ (t = target ∧ a = vs ∧ s₁ = w) := fun h => hw (h.2.2 ▸ hs₁)
    simp only [halted, if_neg hne] at hs₂
    exact hs₁.trans (callWithin_changes bound room t a s₁ s₂ hs₂)
  have hempty : ReflTransGen (Change e) s {} := by
    have hR : ∀ s₁ s₂, Change e s₁ s₂ → R s₁ s₂ := fun s₁ s₂ hc hs => hs.tail hc
    refine invokeWith_along hR (hcall (.unknownTarget 0)) bound id arguments s {} ?_ .refl
    rw [hend]
    rfl
  -- but a registry never shrinks, and without a registered target there is no
  -- call at all
  have hnone : s.targets[id]? = none := by
    have hsize : s.targets.size ≤ 0 := size_le_of_changes hempty
    exact Array.getElem?_eq_none (by omega)
  have h1 := (hend (.unknownTarget (id + 1))).symm.trans (invokeWith_unknown bound arguments hnone)
  simp at h1

/-- Every part of a session is made of changes. -/
theorem Next.changes (h : Next e s s') : ReflTransGen (Change e) s s' := by
  have hcalls := callWithin_changes (e := e)
  cases h with
  | register r => exact .single (.registered r)
  | recordArguments id vs => exact .single (.arguments id vs)
  | recordBranch id node taken => exact .single (.branch id node taken)
  | request bound id h => exact requestCompilation_along changes_single bound id s s' h
  | invalidate id => exact .single (.invalidated id)
  | invoke bound id arguments h =>
    exact invokeWith_along changes_single (hcalls bound _) bound id arguments s s' h
  | call bound room id arguments h => exact hcalls bound room id arguments s s' h
  | calling bound room id arguments h => exact changes_of_callsIn h
  | counted id ht => exact .single (.counted id ht)
  | interpreted bound room id r arguments h =>
    exact Interpreter.execute_along (hcalls bound room)
      (interpreterHost_record changes_single id) bound r arguments s s' h
  | compiledIfHot bound id count h => exact compileIfHot_along changes_single bound id count s s' h
  | ran bound room id arguments ht hc h =>
    exact Code.run_along (hcalls bound room) bound s s' h
  | gaveUp bound room id arguments ht hc h =>
    obtain ⟨hs', hv⟩ := valid_of_run (hcalls bound room) ht (codeValid_of_currentCode hc).2.1 h
    exact hs'.tail (.deoptimized id _ _ hv)
  | handedOver bound room id reason snapshot h =>
    exact deoptimizeWith_along changes_single (hcalls bound room) bound id reason snapshot s s' h

theorem changes_of_session (h : ReflTransGen (Next e) s s') : ReflTransGen (Change e) s s' := by
  induction h with
  | refl => exact .refl
  | tail _ hn ih => exact ih.trans hn.changes

/-- The initial state is consistent, and so is every state of a session. -/
theorem consistent_of_session (h : ReflTransGen (Next e) {} s) : s.Consistent e.options.maxDeopts :=
  (evolves_of_changes (changes_of_session h) fun id t ht => by simp at ht).1

theorem persists_of_session (hs : s.Consistent e.options.maxDeopts) (h : ReflTransGen (Next e) s s')
    {id : TargetId} {t : CallTarget} (ht : s.targets[id]? = some t) :
    ∃ t', s'.targets[id]? = some t' ∧ t.Persists t' :=
  (evolves_of_changes (changes_of_session h) hs).2 id t ht

/-! ## Parts of the life of a target -/

variable {id : TargetId} {t : CallTarget}

theorem requestCompilation_of_disabled (ht : s.targets[id]? = some t) (hd : t.disabled)
    (bound : ℕ) :
    e.requestCompilation bound id s = .done .disabled s := by
  rw [requestCompilation_eq, ht]
  simp only [if_pos hd]

/-- A compilation that fails leaves every target as it was. -/
theorem targets_of_failed_request {bound : ℕ} {err : CompileError}
    (h : e.requestCompilation bound id s = .stop err s') :
    s'.targets = s.targets := by
  rw [requestCompilation_eq] at h
  split at h
  · cases h
    rfl
  · split at h
    · cases h
    · split at h
      · cases h
      · split at h <;> cases h
        rfl

/-- Behind an interpreted invocation of a target whose automatic compilation
failed, nothing is compiled. -/
theorem compileIfHot_of_failed (ht : s.targets[id]? = some t) (hf : t.failed) (bound : ℕ)
    (count : UInt64) :
    e.compileIfHot bound id count s = .done () s := by
  rw [compileIfHot_eq, if_neg]
  simp [ht, CallTarget.wantsCompilation, hf]

/-- An interpreted invocation of a target whose automatic compilation failed
is its interpretation and nothing more. -/
theorem interpretCounted_of_failed (hs : s.Consistent e.options.maxDeopts)
    (ht : s.targets[id]? = some t) (hf : t.failed) (bound room : ℕ) (arguments : List Value) :
    e.interpretCounted bound (e.callWithin bound room) id t arguments s = (do
      Comp.update fun s => s.modifyTarget id fun u => { u with invocations := t.invocations + 1 }
      Interpreter.execute (interpreterHost (e.callWithin bound room) id) bound t.routine arguments :
        Comp _ _ _) s := by
  unfold interpretCounted
  rw [Comp.update_bind, Comp.update_bind]
  generalize hs₁ : (s.modifyTarget id fun u => { u with invocations := t.invocations + 1 }) = s₁
  have hchange : ReflTransGen (Change e) s s₁ := hs₁ ▸ .single (.counted id ht)
  have halong := Interpreter.execute_along (h := interpreterHost (e.callWithin bound room) id)
    (callWithin_changes bound room)
    (interpreterHost_record changes_single id) bound t.routine arguments s₁
  have hquiet : ∀ s₂, ReflTransGen (Change e) s₁ s₂ →
      e.compileIfHot bound id (t.invocations + 1) s₂ = .done () s₂ := by
    intro s₂ h
    obtain ⟨t₂, ht₂, hp⟩ := (evolves_of_changes (hchange.trans h) hs).2 id t ht
    exact compileIfHot_of_failed ht₂ (hp.failed hf) bound _
  unfold Comp.always
  cases hr : Interpreter.execute
    (interpreterHost (e.callWithin bound room) id) bound t.routine arguments s₁ with
  | exhausted => rfl
  | done v s₂ => exact Comp.bind_done (hquiet s₂ (halong s₂ (by rw [hr]; rfl)))
  | stop err s₂ => exact Comp.bind_done (hquiet s₂ (halong s₂ (by rw [hr]; rfl)))

/-- What a target is like right after its code gave up. -/
structure GivenUp (position : ℕ) (reason : DeoptReason) (t t' : CallTarget) : Prop where
  invalidated : reason = .invalidated → t' = t
  wasInstalled : reason ≠ .invalidated → t.installed = some position
  removed : reason ≠ .invalidated → t'.installed = none ∧ t'.codeValid position = false
  others : ∀ i ≠ position, t'.codes[i]? = t.codes[i]?
  counted : reason ≠ .invalidated → t'.deopts = t.deopts + 1

theorem givenUp_recordDeopt {maxDeopts : UInt32} (h : t.Consistent maxDeopts) {position : ℕ}
    {reason : DeoptReason} (hv : reason ≠ .invalidated → t.codeValid position) :
    GivenUp position reason t (t.recordDeopt position reason maxDeopts) := by
  by_cases hr : reason = .invalidated
  · rw [CallTarget.recordDeopt, if_pos hr]
    exact ⟨fun _ => rfl, fun hne => absurd hr hne, fun hne => absurd hr hne, fun _ _ => rfl,
      fun hne => absurd hr hne⟩
  · have hi := h.validInstalled position (hv hr)
    rw [CallTarget.recordDeopt_eq hr, if_pos hi]
    refine ⟨fun hx => absurd hx hr, fun _ => hi, fun _ => ⟨rfl, ?_⟩, fun i hne => ?_, fun _ => rfl⟩
    · have := t.codeValid_revoke position position
      simpa [CallTarget.codeValid] using this
    · have hne' : ¬ position = i := fun h => hne h.symm
      simp [CallTarget.revoke, hne']

/-- The life of a call target, at any point of a session and from there on.
Its codes, counters and marks are consistent. Once disabled, it stays so, gets
no code and refuses compilation. Code that gives up is removed, and it alone,
unless it was invalidated before, which changes nothing. A failed compilation
changes no target. After a failed automatic compilation, invocations are
interpretations and nothing more. -/
theorem lifecycle_of_session {e : Engine} {s : State} (hs : ReflTransGen (Next e) {} s)
    {id : TargetId} {t : CallTarget} (ht : s.targets[id]? = some t) :
    t.Consistent e.options.maxDeopts ∧
    (t.disabled → ∀ s', ReflTransGen (Next e) s s' → ∃ t', s'.targets[id]? = some t' ∧
      t'.disabled ∧ t'.installed = none ∧ t'.codes = t.codes ∧
      t'.compilations = t.compilations ∧
      ∀ bound, e.requestCompilation bound id s' = .done .disabled s') ∧
    (∀ bound room position code arguments reason snapshot s₁,
      t.currentCode = some (position, code) →
      code.run (codeHost (e.callWithin bound room) id position) bound arguments s =
        .done (.deoptimized reason snapshot) s₁ →
      ∃ t₁ t₂ s₂, s₁.targets[id]? = some t₁ ∧ s₂.targets[id]? = some t₂ ∧
        GivenUp position reason t₁ t₂ ∧ (∀ other ≠ id, s₂.targets[other]? = s₁.targets[other]?) ∧
        e.runCode bound (e.callWithin bound room) id position code arguments s =
          deoptimizeWith (e.callWithin bound room) bound id reason snapshot s₂) ∧
    (∀ bound err s', e.requestCompilation bound id s = .stop err s' → s'.targets = s.targets) ∧
    (∀ bound count err s₁,
      t.wantsCompilation e.options.autoCompile e.options.compilationThreshold count →
      e.requestCompilation bound id s = .stop err s₁ →
      ∃ s₂, e.compileIfHot bound id count s = .done () s₂ ∧
        ∀ s' t', ReflTransGen (Next e) s₂ s' → s'.targets[id]? = some t' →
        ∀ bound room arguments,
          e.interpretCounted bound (e.callWithin bound room) id t' arguments s' = (do
            Comp.update fun s => s.modifyTarget id fun u =>
              { u with invocations := t'.invocations + 1 }
            Interpreter.execute (interpreterHost (e.callWithin bound room) id) bound t'.routine
              arguments : Comp _ _ _) s') := by
  have hcons := consistent_of_session hs
  refine ⟨hcons id t ht, fun hd s' hs' => ?_, ?_,
    fun bound err s' h => targets_of_failed_request h, ?_⟩
  · obtain ⟨t', ht', hp⟩ := persists_of_session hcons hs' ht
    have hc' : t'.Consistent e.options.maxDeopts := consistent_of_session (hs.trans hs') id t' ht'
    refine ⟨t', ht', hp.disabled hd, hc'.bare (hp.disabled hd), hp.codes hd, ?_, ?_⟩
    · rw [hc'.compilations, hp.codes hd, (hcons id t ht).compilations]
    · exact requestCompilation_of_disabled ht' (hp.disabled hd)
  · intro bound room position code arguments reason snapshot s₁ hc hr
    obtain ⟨hs₁, hv⟩ :=
      valid_of_run (callWithin_changes bound room) ht (codeValid_of_currentCode hc).2.1 hr
    obtain ⟨hcons₁, hreg⟩ := evolves_of_changes hs₁ hcons
    obtain ⟨t₁, ht₁, -⟩ := hreg id t ht
    refine ⟨t₁, t₁.recordDeopt position reason e.options.maxDeopts, s₁.modifyTarget id fun t =>
      t.recordDeopt position reason e.options.maxDeopts, ht₁, ?_, ?_, fun other hne => ?_, ?_⟩
    · rw [State.getElem?_modifyTarget, if_pos rfl, ht₁]
      rfl
    · exact givenUp_recordDeopt (hcons₁ id t₁ ht₁) (hv t₁ ht₁)
    · rw [State.getElem?_modifyTarget, if_neg fun h => hne h.symm]
    · unfold runCode
      rw [Comp.bind_done hr]
      rfl
  · intro bound count err s₁ hw hreq
    have htargets := targets_of_failed_request hreq
    refine ⟨s₁.modifyTarget id fun t => { t with failed := true }, ?_,
      fun s' t' hs' ht' bound' room arguments => ?_⟩
    · rw [compileIfHot_eq, if_pos (by simp [ht, hw]), hreq]
    · have hnote : (s₁.modifyTarget id fun t => { t with failed := true }).targets[id]? =
          some { t with failed := true } := by
        rw [State.getElem?_modifyTarget, if_pos rfl, htargets, ht]
        rfl
      have hsession : Next e s (s₁.modifyTarget id fun t => { t with failed := true }) := by
        refine .compiledIfHot bound id count ?_
        rw [compileIfHot_eq, if_pos (by simp [ht, hw]), hreq]
        rfl
      have hcons' := consistent_of_session (hs.tail hsession)
      obtain ⟨t'', ht'', hp⟩ := persists_of_session hcons' hs' hnote
      obtain rfl := Option.some.inj (ht'.symm.trans ht'')
      exact interpretCounted_of_failed (consistent_of_session ((hs.tail hsession).trans hs')) ht'
        (hp.failed rfl) bound' room arguments

/-- A target that is compiled at once for an integer, and disabled when its
code meets something else. -/
theorem lifecycle_of_increment :
    ∃ (e : Engine) (s : State) (t : CallTarget), ReflTransGen (Next e) {} s ∧
      s.targets[0]? = some t ∧ t.tier = .disabled ∧ t.codes.length = 1 ∧
      t.Consistent e.options.maxDeopts ∧ ∀ s', ReflTransGen (Next e) s s' →
      ∀ bound, e.requestCompilation bound 0 s' = .done .disabled s' := by
  let e : Engine := .ofOptions { compilationThreshold := 1, maxDeopts := 1 }
  let r : Routine := .ofBody "increment" 1 (.binary 0 .add (.argument 0 0) (.constant 0 (.int 1)))
  have hrun : (((e.invoke 8 0 [.int 41] (State.register {} r).1).state?).bind fun s =>
      (e.invoke 8 0 [.null] s).state?).any fun s =>
        (s.targets[0]?).any fun t => t.tier = .disabled ∧ t.disabled ∧ t.codes.length = 1 := by
    decide +kernel
  obtain ⟨s, hs, hany⟩ := (Option.any_eq_true _ _).1 hrun
  obtain ⟨s₁, h₁, h₂⟩ := Option.bind_eq_some_iff.1 hs
  obtain ⟨t, ht, hp⟩ := (Option.any_eq_true _ _).1 hany
  obtain ⟨htier, hd, hlen⟩ := of_decide_eq_true hp
  have hsession : ReflTransGen (Next e) {} s :=
    ((ReflTransGen.single (.register r)).tail (.invoke 8 0 [.int 41] h₁)).tail
      (.invoke 8 0 [.null] h₂)
  obtain ⟨hcons, hdisabled, -⟩ := lifecycle_of_session hsession ht
  refine ⟨e, s, t, hsession, ht, htier, hlen, hcons, fun s' hs' => ?_⟩
  obtain ⟨_, -, -, -, -, -, hrequest⟩ := hdisabled hd s' hs'
  exact hrequest

end Engine

end TieredEngine

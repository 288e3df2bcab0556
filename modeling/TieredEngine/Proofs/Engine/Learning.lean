import TieredEngine.Proofs.Code.Progress
import TieredEngine.Proofs.Engine.Lifecycle
import TieredEngine.Proofs.Optimize.Speculation
import TieredEngine.Proofs.Profile
/-!
# What an engine learns

Profiles only learn: a type that was seen stays seen, and a conditional that
went some way has gone it for good, as long as no branch counter runs over. So
whatever the guards of installed code rested on when it was compiled still
holds at every later point of a session: `backed_of_history`.
-/

namespace TieredEngine

open Relation (ReflTransGen)

/-! ## Feedback and counts -/

/-- The type has been seen. -/
def Feedback.Covers (f : Feedback) (type : ValueType) : Prop :=
  f = .monomorphic type ∨ f = .polymorphic

theorem Feedback.Covers.merge {f : Feedback} {type : ValueType} (h : f.Covers type)
    (seen : ValueType) :
    (f.merge seen).Covers type := by
  rcases h with rfl | rfl
  · unfold Feedback.merge Covers
    dsimp only
    split
    · exact .inl rfl
    · exact .inr rfl
  · exact .inr rfl

/-- One type and then another make many. -/
theorem Feedback.Covers.merge_of_ne {f : Feedback} {type seen : ValueType} (h : f.Covers type)
    (hne : type ≠ seen) :
    f.merge seen = .polymorphic := by
  rcases h with rfl | rfl
  · exact if_neg hne
  · rfl

theorem Feedback.eq_polymorphic {f : Feedback} (h : ∀ type, f.Covers type) : f = .polymorphic := by
  rcases h .int with hint | hp
  · rcases h .bool with hbool | hp
    · rw [hint] at hbool
      cases hbool
    · exact hp
  · exact hp

/-- How often the conditional went this way. -/
def BranchCounts.side (c : BranchCounts) : Bool → UInt64
  | true => c.taken
  | false => c.notTaken

theorem BranchCounts.side_record (c : BranchCounts) (b b' : Bool) :
    (c.record b).side b' = if b = b' then c.side b' + 1 else c.side b' := by
  cases b <;> cases b' <;> rfl

theorem BranchCounts.oneSided?_eq_some {c : BranchCounts} {b : Bool} (h : c.oneSided? = some b) :
    c.side b ≠ 0 ∧ c.side (!b) = 0 := by
  unfold oneSided? at h
  split at h
  · split at h <;> cases h
    exact ⟨‹_›, ‹_›⟩
  · split at h <;> cases h
    exact ⟨‹_›, ‹_›⟩

namespace Profile

/-- The second profile knows what the first knows about parameters, and is one
of the same routine. -/
structure Learns (p p' : Profile) : Prop where
  size : p'.branches.size = p.branches.size
  covers : ∀ i type, (p.argument i).Covers type → (p'.argument i).Covers type

variable {p p' : Profile}

theorem Learns.refl (p : Profile) : p.Learns p := ⟨rfl, fun _ _ h => h⟩

theorem Learns.trans {p'' : Profile} (h : p.Learns p') (h' : p'.Learns p'') : p.Learns p'' :=
  ⟨h'.size.trans h.size, fun i type hc => h'.covers i type (h.covers i type hc)⟩

theorem Learns.polymorphic (h : p.Learns p') {i : ℕ} (hi : p.argument i = .polymorphic) :
    p'.argument i = .polymorphic :=
  Feedback.eq_polymorphic fun type => h.covers i type (.inr hi)

theorem learns_recordArguments (p : Profile) (vs : List Value) :
    p.Learns (p.recordArguments vs) := by
  refine ⟨?_, fun i type h => ?_⟩
  · unfold recordArguments
    split <;> rfl
  · rw [argument_recordArguments]
    split
    · split
      · exact h.merge _
      · exact .inr rfl
    · exact .inr rfl

theorem branch_recordArguments (p : Profile) (vs : List Value) (node : ExprId) :
    (p.recordArguments vs).branch node = p.branch node := by
  unfold recordArguments
  split <;> rfl

theorem learns_recordBranch (p : Profile) (node : ExprId) (taken : Bool) :
    p.Learns (p.recordBranch node taken) :=
  ⟨by simp [recordBranch], fun _ _ h => h⟩

/-- A recording is about one conditional of the routine. -/
theorem branch_recordBranch (p : Profile) (node other : ExprId) (taken : Bool) :
    (p.recordBranch node taken).branch other = if node = other ∧
      node < p.branches.size then (p.branch other).record taken else p.branch other := by
  unfold branch recordBranch
  dsimp only
  rw [Array.getElem?_modify]
  by_cases hnode : node = other
  · subst hnode
    by_cases hlt : node < p.branches.size
    · simp [hlt]
    · simp [hlt]
  · simp [hnode]

end Profile

/-! ## Compiled code -/

theorem Comp.attempt_eq_done {ε δ σ α : Type} {x : Comp ε σ α} {s s' : σ} {a : α}
    (h : (x.attempt : Comp δ σ _) s = .done (.ok a) s') : x s = .done a s' := by
  unfold Comp.attempt at h
  cases hx : x s <;> rw [hx] at h <;> cases h
  rfl

theorem Comp.ofExcept_eq_done {ε σ α : Type} {x : Except ε α} {s s' : σ} {a : α}
    (h : (Comp.ofExcept x : Comp ε σ α) s = .done a s') : x = .ok a := by
  cases x <;> cases h
  rfl

/-- The code that the backend makes of a graph is that graph's. -/
def Backend.Faithful (b : Backend) : Prop :=
  ∀ g target name code, b.emit g target name = .ok code → code.graph = g

theorem Backend.faithful_direct :
    Backend.direct.Faithful := fun _ _ _ _ h => (Code.verified_of_emit h).2.2

theorem Backend.faithful_failing : Backend.failing.Faithful := by
  intro g target name code h
  cases h

/-- What a successful compilation did. -/
theorem Compiler.compile_eq_done {c : Compiler} {bound : ℕ} {targets : Registry} {id : TargetId}
    {t : CallTarget} {stats stats' : CompilerStats} {code : Code}
    (h : c.compile bound targets id t stats = .done code stats') :
    ∃ plan s g g' summary, c.buildPlan bound targets id t stats = .done plan s ∧
      Specialize.specialize targets id t plan = .ok g ∧
      Optimize.optimize c.options.canonicalizerIterations.toNat g = .ok (g', summary) ∧
      c.backend.emit g' id t.routine.name = .ok code := by
  unfold compile at h
  obtain ⟨result, stats₁, h1, h2⟩ := Comp.bind_eq_done h
  cases result with
  | error err => cases h2
  | ok made =>
    obtain ⟨code', nodes⟩ := made
    cases h2
    obtain ⟨compilation, _, h3, h4⟩ := Comp.bind_eq_done (Comp.attempt_eq_done h1)
    obtain ⟨_, _, h5, h6⟩ := Comp.bind_eq_done h4
    cases h6
    obtain ⟨plan, s, hplan, h7⟩ := Comp.bind_eq_done h3
    obtain ⟨g, _, h8, h9⟩ := Comp.bind_eq_done h7
    obtain ⟨⟨g', summary⟩, _, h10, h11⟩ := Comp.bind_eq_done h9
    cases h11
    refine ⟨plan, s, g, g', summary, hplan, Comp.ofExcept_eq_done h8, ?_, Comp.ofExcept_eq_done h5⟩
    have hopt := Comp.ofExcept_eq_done h10
    unfold optimize at hopt
    cases ho : Optimize.optimize c.options.canonicalizerIterations.toNat g with
    | error err => rw [ho] at hopt; cases hopt
    | ok r => rw [ho] at hopt; cases hopt; rfl

/-- The guards of compiled code rest on the profiles it was compiled from. -/
theorem Compiler.grounded_of_compile {c : Compiler} (hb : c.backend.Faithful) {bound : ℕ}
    {targets : Registry} {id : TargetId} {t : CallTarget} {stats stats' : CompilerStats}
    {code : Code} (h : c.compile bound targets id t stats = .done code stats') :
    code.graph.AllGrounded (Specialize.grounds targets id t) := by
  obtain ⟨plan, _, g, g', summary, -, h1, h2, h3⟩ := compile_eq_done h
  have hf := Specialize.formed_of_specialize h1
  obtain ⟨g₁, summary₁, h4, h5, -⟩ :=
    Optimize.optimize_rewrites c.options.canonicalizerIterations.toNat hf
  cases h4.symm.trans h2
  rw [hb _ _ _ _ h3]
  exact h5.grounded hf (Specialize.specialize_grounded h1)

namespace Engine

variable {e : Engine} {s s' s'' : State}

/-! ## Targets -/

/-- What changes do to a target: its routine stays, its profile learns, and
its codes are the old ones and ones just made. -/
structure Grows (made : Code → Prop) (t t' : CallTarget) : Prop where
  routine : t'.routine = t.routine
  profile : t.profile.Learns t'.profile
  codes : ∀ c' ∈ t'.codes, (∃ c ∈ t.codes, c.code = c'.code) ∨ made c'.code

/-- A target of which no code was made. -/
theorem Grows.of_codes {made : Code → Prop} {t t' : CallTarget} (hr : t'.routine = t.routine)
    (hp : t.profile.Learns t'.profile) (hc : t'.codes = t.codes) : Grows made t t' :=
  ⟨hr, hp, fun c' hc' => .inl ⟨c', hc ▸ hc', rfl⟩⟩

theorem grows_revoke {made : Code → Prop} {t t' : CallTarget} {i : ℕ} (hr : t'.routine = t.routine)
    (hp : t'.profile = t.profile) (hc : t'.codes = (t.revoke i).codes) : Grows made t t' := by
  refine ⟨hr, hp ▸ .refl _, fun c' hc' => .inl ?_⟩
  rw [hc, CallTarget.revoke] at hc'
  obtain ⟨j, hj⟩ := List.getElem?_of_mem hc'
  rw [List.getElem?_modify] at hj
  obtain ⟨c, hcj, hcc⟩ := Option.map_eq_some_iff.1 hj
  refine ⟨c, List.mem_of_getElem? hcj, ?_⟩
  split at hcc <;> rw [← hcc]

/-- Code that the engine makes for a target as it is. -/
def Compiles (e : Engine) (s : State) (id : TargetId) (code : Code) : Prop :=
  ∃ t bound stats stats', s.targets[id]? = some t ∧
    e.compiler.compile bound s.targets id t stats = .done code stats'

/-- What one change does to the registered targets. -/
structure StateGrows (e : Engine) (s s' : State) : Prop where
  old : ∀ (id : TargetId) (t : CallTarget), s.targets[id]? = some t →
    ∃ t', s'.targets[id]? = some t' ∧ Grows (Compiles e s id) t t'
  new : ∀ (id : TargetId) (t' : CallTarget), s'.targets[id]? = some t' → s.targets[id]? = none →
    ∃ r, t' = .ofRoutine r

/-- A target of the new state is a new one, or an old one that grew. -/
theorem StateGrows.origin (h : StateGrows e s s') {id : TargetId} {t' : CallTarget}
    (ht' : s'.targets[id]? = some t') :
    (∃ r, t' = .ofRoutine r) ∨ ∃ t, s.targets[id]? = some t ∧ Grows (Compiles e s id) t t' := by
  cases ht : s.targets[id]? with
  | none => exact .inl (h.new id t' ht' ht)
  | some t =>
    obtain ⟨t'', ht'', hk⟩ := h.old id t ht
    obtain rfl := Option.some.inj (ht'.symm.trans ht'')
    exact .inr ⟨t, rfl, hk⟩

theorem stateGrows_modifyTarget {id : TargetId} {f : CallTarget → CallTarget}
    (hf : ∀ t, s.targets[id]? = some t → Grows (Compiles e s id) t (f t)) :
    StateGrows e s (s.modifyTarget id f) where
  old other t ht := by
    rw [State.getElem?_modifyTarget]
    split
    · rename_i heq
      subst heq
      exact ⟨f t, by rw [ht]; rfl, hf t ht⟩
    · exact ⟨t, ht, .of_codes rfl (.refl _) rfl⟩
  new other t' ht' hnone := by
    rw [State.getElem?_modifyTarget, hnone] at ht'
    split at ht' <;> cases ht'

theorem Change.grows (h : Change e s s') : StateGrows e s s' := by
  have hsame : ∀ s', s'.targets = s.targets → StateGrows e s s' := fun s' hs' =>
    ⟨fun id t ht => ⟨t, hs' ▸ ht, .of_codes rfl (.refl _) rfl⟩, fun id t' ht' hnone => by
      rw [hs', hnone] at ht'
      cases ht'⟩
  cases h with
  | registered r =>
    refine ⟨fun id t ht => ⟨t, ?_, .of_codes rfl (.refl _) rfl⟩, fun id t' ht' hnone => ?_⟩
    · show (s.targets.push _)[id]? = some t
      rw [Array.getElem?_push, if_neg (Nat.ne_of_lt (Array.getElem?_eq_some_iff.1 ht).1)]
      exact ht
    · change (s.targets.push _)[id]? = some t' at ht'
      rw [Array.getElem?_push, hnone] at ht'
      split at ht' <;> cases ht'
      exact ⟨r, rfl⟩
  | arguments id vs =>
    exact stateGrows_modifyTarget fun t _ => .of_codes rfl (t.profile.learns_recordArguments vs) rfl
  | branch id node taken =>
    exact stateGrows_modifyTarget fun t _ =>
      .of_codes rfl (t.profile.learns_recordBranch node taken) rfl
  | counted id _ => exact stateGrows_modifyTarget fun t _ => .of_codes rfl (.refl _) rfl
  | stats stats => exact hsame _ rfl
  | installed id ht _ _ hcompile =>
    refine stateGrows_modifyTarget fun t' ht' => ⟨rfl, .refl _, fun c' hc' => ?_⟩
    rcases List.mem_append.1 hc' with hc' | hc'
    · exact .inl ⟨c', hc', rfl⟩
    · obtain rfl := List.mem_singleton.1 hc'
      exact .inr ⟨_, _, _, _, ht, hcompile⟩
  | failed id => exact stateGrows_modifyTarget fun t _ => .of_codes rfl (.refl _) rfl
  | deoptimized id position reason _ =>
    refine stateGrows_modifyTarget fun t _ => ?_
    by_cases hr : reason = .invalidated
    · rw [CallTarget.recordDeopt, if_pos hr]
      exact .of_codes rfl (.refl _) rfl
    · rw [CallTarget.recordDeopt_eq hr]
      exact grows_revoke rfl rfl rfl
  | remembered event => exact hsame _ rfl
  | invalidated id =>
    refine stateGrows_modifyTarget fun t _ => ?_
    unfold CallTarget.invalidate
    split
    · exact grows_revoke rfl rfl rfl
    · exact .of_codes rfl (.refl _) rfl

/-- What was learned about a target is kept by every change. -/
theorem learns_of_changes (h : ReflTransGen (Change e) s s') {id : TargetId} {t : CallTarget}
    (ht : s.targets[id]? = some t) :
    ∃ t', s'.targets[id]? = some t' ∧ t'.routine = t.routine ∧ t.profile.Learns t'.profile := by
  induction h with
  | refl => exact ⟨t, ht, rfl, .refl _⟩
  | tail _ hc ih =>
    obtain ⟨t₁, ht₁, hr₁, hp₁⟩ := ih
    obtain ⟨t₂, ht₂, hgrows⟩ := hc.grows.old id t₁ ht₁
    exact ⟨t₂, ht₂, hgrows.routine.trans hr₁, hp₁.trans hgrows.profile⟩

/-! ## Histories -/

/-- No branch counter is lower in the second state. -/
def CountsUp (s s' : State) : Prop :=
  ∀ (id : TargetId) (t t' : CallTarget) (node : ExprId) (b : Bool),
      s.targets[id]? = some t → s'.targets[id]? = some t' →
      (t.profile.branch node).side b ≤ (t'.profile.branch node).side b

/-- A change in which no branch counter runs over. -/
def Tallies (e : Engine) (s s' : State) : Prop := Change e s s' ∧ CountsUp s s'

theorem changes_of_history (h : ReflTransGen (Tallies e) s s') : ReflTransGen (Change e) s s' :=
  ReflTransGen.mono (p := Change e) (fun _ _ hc => hc.1) s s' h

theorem countsUp_of_history (h : ReflTransGen (Tallies e) s s') : CountsUp s s' := by
  induction h with
  | refl =>
    intro id t t' node b ht ht'
    obtain rfl := Option.some.inj (ht.symm.trans ht')
    exact UInt64.le_refl _
  | tail h hc ih =>
    intro id t t' node b ht ht'
    obtain ⟨t₁, ht₁, -⟩ := learns_of_changes (changes_of_history h) ht
    exact UInt64.le_trans (ih id t t₁ node b ht ht₁) (hc.2 id t₁ t' node b ht₁ ht')

theorem countsUp_modifyTarget {id : TargetId} {f : CallTarget → CallTarget}
    (hf : ∀ t node b, s.targets[id]? = some t →
      (t.profile.branch node).side b ≤ ((f t).profile.branch node).side b) :
    CountsUp s (s.modifyTarget id f) := by
  intro other t t' node b ht ht'
  rw [State.getElem?_modifyTarget, ht] at ht'
  split at ht' <;> cases ht'
  · rename_i heq
    subst heq
    exact hf t node b ht
  · exact UInt64.le_refl _

/-! ## What installed code rests on -/

/-- What is known in a state, for code of this target. -/
def State.grounds (s : State) (id : TargetId) : Grounds where
  root := id
  routine u r := ∃ v, s.targets[u]? = some v ∧ v.routine = r
  seen u node b := ∃ v, s.targets[u]? = some v ∧ (v.profile.branch node).side b ≠ 0
  typed i type := ∃ t, s.targets[id]? = some t ∧ (t.profile.argument i).Covers type

/-- Profiles fit their routines, and all code rests on what is known. -/
structure State.Backed (s : State) : Prop where
  sized : ∀ (id : TargetId) (t : CallTarget), s.targets[id]? = some t →
    t.profile.branches.size = t.routine.nodeCount
  codes : ∀ (id : TargetId) (t : CallTarget), s.targets[id]? = some t →
    ∀ c ∈ t.codes, c.code.graph.AllGrounded (s.grounds id)

/-- What is known stays known. -/
theorem Tallies.grounded (h : Tallies e s s') {id : TargetId} {g : Graph}
    (hg : g.AllGrounded (s.grounds id)) :
    g.AllGrounded (s'.grounds id) := by
  have hgrows := h.1.grows
  refine fun m n hn => (hg m n hn).mono rfl ?_ ?_ ?_
  · rintro u r ⟨v, hv, rfl⟩
    obtain ⟨v', hv', hk⟩ := hgrows.old u v hv
    exact ⟨v', hv', hk.routine⟩
  · rintro u node b ⟨v, hv, hne⟩
    obtain ⟨v', hv', -⟩ := hgrows.old u v hv
    refine ⟨v', hv', fun hz => hne ?_⟩
    have hle := h.2 u v v' node b hv hv'
    rw [hz] at hle
    exact UInt64.le_zero_iff.1 hle
  · rintro i type ⟨t, ht, hc⟩
    obtain ⟨t', ht', hk⟩ := hgrows.old id t ht
    exact ⟨t', ht', hk.profile.covers i type hc⟩

theorem grounded_of_history (h : ReflTransGen (Tallies e) s s') {id : TargetId} {g : Graph}
    (hg : g.AllGrounded (s.grounds id)) : g.AllGrounded (s'.grounds id) := by
  induction h with
  | refl => exact hg
  | tail _ hc ih => exact hc.grounded ih

/-- Code compiled in a state rests on what is known then. -/
theorem grounded_of_compiles (hb : e.compiler.backend.Faithful) {id : TargetId} {code : Code}
    (h : Compiles e s id code) :
    code.graph.AllGrounded (s.grounds id) := by
  obtain ⟨t, bound, stats, stats', ht, hcompile⟩ := h
  have hinvolved : ∀ u v, Specialize.Involves s.targets id t u v → s.targets[u]? = some v := by
    rintro u v (⟨rfl, rfl⟩ | hv)
    · exact ht
    · exact hv
  refine fun m n hn => (Compiler.grounded_of_compile hb hcompile m n hn).mono rfl ?_ ?_ ?_
  · rintro u r ⟨v, hv, rfl⟩
    exact ⟨v, hinvolved u v hv, rfl⟩
  · rintro u node b ⟨v, hv, hone⟩
    exact ⟨v, hinvolved u v hv, (BranchCounts.oneSided?_eq_some hone).1⟩
  · intro i type hi
    exact ⟨t, ht, .inl hi⟩

theorem Tallies.backed (hb : e.compiler.backend.Faithful) (h : Tallies e s s') (hs : s.Backed) :
    s'.Backed := by
  have hgrows := h.1.grows
  refine ⟨fun id t' ht' => ?_, fun id t' ht' c' hc' => ?_⟩
  · rcases hgrows.origin ht' with ⟨r, rfl⟩ | ⟨t, ht, hk⟩
    · simp [CallTarget.ofRoutine, Profile.empty]
    · rw [hk.profile.size, hk.routine, hs.sized id t ht]
  · rcases hgrows.origin ht' with ⟨r, rfl⟩ | ⟨t, ht, hk⟩
    · cases hc'
    · rcases hk.codes c' hc' with ⟨c, hc, hcode⟩ | hmade
      · rw [← hcode]
        exact h.grounded (hs.codes id t ht c hc)
      · exact h.grounded (grounded_of_compiles hb hmade)

/-- At every point of a session without overflow, all code rests on what is
known. -/
theorem backed_of_history (hb : e.compiler.backend.Faithful) (h : ReflTransGen (Tallies e) {} s) :
    s.Backed := by
  induction h with
  | refl => exact ⟨fun id t ht => by simp at ht, fun id t ht => by simp at ht⟩
  | tail _ hc ih => exact hc.backed hb ih

end Engine

end TieredEngine

import TieredEngine.Proofs.Graph.Denotation
/-!
# What a control step does

`Effects` says what happens when control gets to a node, in terms of what
nodes stand for and without registers or a host: control goes on and phis are
set, a branch takes a side, a call is asked for, or the run ends. The step
lemmas are that running code does exactly that.
-/

namespace TieredEngine

theorem NodeKind.isMerge_iff {k : NodeKind} : k.isMerge ↔ k = .merge ∨ k = .loopBegin := by
  cases k <;> simp [NodeKind.isMerge]

namespace Code

/-- What happens at a node. -/
inductive Effect where
  /-- Control goes on to the only successor, after some phis are set. -/
  | pass (updates : Values)
  /-- Control goes on to one side of a branch. -/
  | side (taken : Bool)
  /-- The run fails. -/
  | fail (e : GuestError)
  | finish (result : Result)
  /-- A call, and the frames to hand over if the code is invalid afterwards;
  the result goes on top of the first. -/
  | call (target : TargetId) (arguments : List Value) (frame : SuspendedFrame)
      (callers : List SuspendedFrame)

section

variable (g : Graph) (arguments : List Value) (ρ : Bindings)

/-- What the phis of a merge get over the edge with this number. -/
def UpdatesAt (index : Nat) : List NodeId → Values → Prop :=
  List.Forall₂ fun phi u => u.1 = phi ∧
    ∃ p x, g.node? phi = some p ∧ p.inputs[index]? = some x ∧ Denotes g arguments ρ x u.2

/-- What happens when control gets to a node, coming from `previous`. -/
inductive Effects (previous : Option NodeId) (m : NodeId) : Effect → Prop
  | step {n} : g.node? m = some n → n.kind = .start ∨ n.kind = .onTrue ∨ n.kind = .onFalse →
    Effects previous m (.pass [])
  | merge {n index us} : g.node? m = some n → n.kind.isMerge →
      (previous.bind fun p => n.control.idxOf? p) = some index →
      UpdatesAt g arguments ρ index (g.phisOf m) us → Effects previous m (.pass us)
  | side {n x b} : g.node? m = some n → n.kind = .branch → n.inputs[0]? = some x →
    Denotes g arguments ρ x (.bool b) → Effects previous m (.side b)
  | noCondition {n x v e} : g.node? m = some n → n.kind = .branch → n.inputs[0]? = some x →
    Denotes g arguments ρ x v → v.condition = .error e → Effects previous m (.fail e)
  | holds {n check reason x v} : g.node? m = some n → n.kind = .guard check reason →
      n.inputs[0]? = some x →
      Denotes g arguments ρ x v → check.holds v → Effects previous m (.pass [])
  | violated {n check reason x v s f callers} : g.node? m = some n → n.kind = .guard check reason →
      n.inputs[0]? = some x → Denotes g arguments ρ x v → check.holds v = false → n.state = some s →
      FramesAt g arguments ρ s (f :: callers) →
      Effects previous m (.finish (.deoptimized reason ⟨f, callers⟩))
  | deoptimize {n reason s f callers} : g.node? m = some n → n.kind = .deoptimize reason →
      n.state = some s → FramesAt g arguments ρ s (f :: callers) →
      Effects previous m (.finish (.deoptimized reason ⟨f, callers⟩))
  | ret {n x v} : g.node? m = some n → n.kind = .ret → n.inputs[0]? = some x →
      Denotes g arguments ρ x v → Effects previous m (.finish (.returned v))
  | call {n target site vs s f callers} : g.node? m = some n → n.kind = .invoke target site →
    List.Forall₂ (Denotes g arguments ρ) n.inputs vs → n.state = some s →
    FramesAt g arguments ρ s (f :: callers) → Effects previous m (.call target vs f callers)

end

/-! ## Setting values -/

theorem lookup_filter_ne {id x : NodeId} (h : x ≠ id) (vs : Values) :
    (vs.filter (·.1 ≠ id)).lookup x = vs.lookup x := by
  induction vs with
  | nil => rfl
  | cons u vs ih =>
    obtain ⟨k, w⟩ := u
    by_cases hk : k = id
    · have hx : (x == k) = false := by simpa [hk] using h
      rw [List.filter_cons_of_neg (by simpa using hk), ih, List.lookup_cons, hx]
    · rw [List.filter_cons_of_pos (by simpa using hk), List.lookup_cons, List.lookup_cons, ih]

theorem Values.lookup_set (vs : Values) (id : NodeId) (v : Value) (x : NodeId) :
    (vs.set id v).lookup x = if x = id then some v else vs.lookup x := by
  rw [Values.set, List.lookup_cons]
  by_cases hx : x = id
  · simp [hx]
  · have hne : (x == id) = false := by simpa using hx
    rw [if_neg hx, hne]
    exact lookup_filter_ne hx vs

/-- Set several values, the first one first. -/
def Values.setAll (vs us : Values) : Values := us.foldl (fun vs u => vs.set u.1 u.2) vs

theorem Values.lookup_setAll_of_notMem {us : Values} {x : NodeId} (h : x ∉ us.map Prod.fst)
    (vs : Values) :
    (vs.setAll us).lookup x = vs.lookup x := by
  induction us generalizing vs with
  | nil => rfl
  | cons u us ih =>
    rw [List.map_cons, List.mem_cons, not_or] at h
    rw [setAll, List.foldl_cons, ← setAll, ih h.2, lookup_set, if_neg h.1]

theorem Values.lookup_setAll_of_mem {us : Values} (hn : (us.map Prod.fst).Nodup) {x : NodeId}
    {v : Value} (h : (x, v) ∈ us) (vs : Values) : (vs.setAll us).lookup x = some v := by
  induction us generalizing vs with
  | nil => cases h
  | cons u us ih =>
    rw [List.map_cons, List.nodup_cons] at hn
    rw [setAll, List.foldl_cons, ← setAll]
    rcases List.mem_cons.1 h with rfl | h
    · rw [lookup_setAll_of_notMem hn.1, lookup_set, if_pos rfl]
    · exact ih hn.2 h _

variable {g : Graph} {arguments : List Value} {ρ : Bindings}

theorem UpdatesAt.keys {index : Nat} {phis : List NodeId} {us : Values}
    (h : UpdatesAt g arguments ρ index phis us) :
    us.map Prod.fst = phis := by
  induction h with
  | nil => rfl
  | cons h1 _ ih => rw [List.map_cons, h1.1, ih]

/-! ## Steps of running code -/

section

variable {σ : Type} {c : Code} {r : Registers} {world : σ} {previous : Option NodeId} {m : NodeId}

theorem reading_eq {α : Type} {x : Reading α} {a : α} (h : Finds g arguments x r a) (world : σ) :
    ∃ cache, reading x ⟨r, world⟩ = .done a ⟨⟨r.values, cache⟩, world⟩ ∧
      Coherent g arguments ⟨r.values, cache⟩ := by
  obtain ⟨cache, h1, h2⟩ := h
  exact ⟨cache, by simp only [reading, Comp.within, h1], h2⟩

theorem finds_input (id : NodeId) {x : NodeId} {inputs : List NodeId} {i : Nat} {v : Value}
    (hr : Coherent g arguments r) (hρ : ρ.Le r.bindings) (hx : inputs[i]? = some x)
    (h : Denotes g arguments ρ x v) :
    Finds g arguments (do valueOf g arguments (← inputAt id inputs i)) r v := by
  rw [inputAt_eq hx, pure_bind]
  exact valueOf_eq hr hρ h

/-- The phis of a merge are set to what flows in. -/
theorem enterMerge_eq (flow : Flow g) {control : List NodeId} {index : Nat} {us : Values}
    (hr : Coherent g arguments r) (hρ : ρ.Le r.bindings)
    (hi : (previous.bind fun p => control.idxOf? p) = some index)
    (hu : UpdatesAt g arguments ρ index (g.phisOf m) us) :
    ∃ r', enterMerge g flow arguments m control previous r = .done () r' ∧
      r'.values = r.values.setAll us ∧ Coherent g arguments r' := by
  rw [enterMerge, hi]
  simp only [Flow.phisOf_eq]
  cases hp : g.phisOf m with
  | nil =>
    rw [hp] at hu
    cases hu
    exact ⟨r, rfl, rfl, hr⟩
  | cons phi phis =>
    rw [hp] at hu
    have hset : ∀ read : NodeId → Reading (NodeId × Value), (∀ phi p, g.node? phi = some p →
        read phi = do return (phi, ← valueOf g arguments (← inputAt phi p.inputs index))) →
        ((phi :: phis).mapM read >>= fun us => Comp.update fun r =>
            ⟨us.foldl (fun vs u => vs.set u.1 u.2) r.values, []⟩) r =
          .done () ⟨r.values.setAll us, []⟩ := by
      intro read hread
      have hf : Finds g arguments ((phi :: phis).mapM read) r us := by
        refine finds_mapM (List.Forall₂.imp (fun phi u h cache hc => ?_) hu) hr
        obtain ⟨rfl, p, x, h1, h2, h3⟩ := h
        rw [hread _ p h1, inputAt_eq h2, pure_bind]
        exact finds_bind (valueOf_eq (r := ⟨r.values, cache⟩) hc hρ h3) fun _ hc => finds_pure hc _
      obtain ⟨cache, h1, -⟩ := hf
      exact (Comp.bind_done h1).trans rfl
    refine ⟨⟨r.values.setAll us, []⟩, hset _ fun phi p hp => ?_, rfl, fun id v h => by simp at h⟩
    simp only [hp]

theorem advance_eq {next : NodeId} {rest : List NodeId} (h : c.graph.successors m = next :: rest)
    (a : Activation σ) :
    advance c m a = .done (.go ⟨next, some m⟩) a := by
  rw [advance, Flow.successors_eq, h]
  rfl

/-- Control goes on. -/
theorem step_pass {us : Values} (h : Effects c.graph arguments ρ previous m (.pass us))
    (hr : Coherent c.graph arguments r) (hρ : ρ.Le r.bindings) {next : NodeId} {rest : List NodeId}
    (hn : c.graph.successors m = next :: rest) (world : σ) :
    ∃ r', (∀ host,
        step host c arguments ⟨m, previous⟩ ⟨r, world⟩ = .done (.go ⟨next, some m⟩) ⟨r', world⟩) ∧
      r'.values = r.values.setAll us ∧ Coherent c.graph arguments r' := by
  cases h with
  | step h hk =>
    refine ⟨r, fun host => ?_, rfl, hr⟩
    rcases hk with hk | hk | hk <;> simp only [step, h, hk, advance_eq hn]
  | @merge n _ _ h hk hi hu =>
    obtain ⟨r', h1, h2, h3⟩ := enterMerge_eq c.flow hr hρ hi hu
    refine ⟨r', fun host => ?_, h2, h3⟩
    have hm : reading (enterMerge c.graph c.flow arguments m n.control previous) ⟨r, world⟩ =
        .done () ⟨r', world⟩ := by
      simp only [reading, Comp.within, h1]
    rcases NodeKind.isMerge_iff.1 hk with hk | hk
    · simp only [step, h, hk]
      rw [Comp.bind_done hm, advance_eq hn]
    · simp only [step, h, hk]
      rw [Comp.bind_done hm, advance_eq hn]
  | holds h hk hx hd hv =>
    obtain ⟨cache, h1, h2⟩ := reading_eq (finds_input m hr hρ hx hd) world
    refine ⟨⟨r.values, cache⟩, fun host => ?_, rfl, h2⟩
    simp only [step, h, hk]
    rw [Comp.bind_done h1, if_pos hv, advance_eq hn]

/-- Control goes on to one side of a branch. -/
theorem step_side {taken : Bool} (h : Effects c.graph arguments ρ previous m (.side taken))
    (hr : Coherent c.graph arguments r) (hρ : ρ.Le r.bindings) {onTrue onFalse : NodeId}
    (hn : c.graph.successors m = [onTrue, onFalse]) (world : σ) :
    ∃ cache, (∀ host, step host c arguments ⟨m, previous⟩ ⟨r, world⟩ =
        .done (.go ⟨if taken then onTrue else onFalse, some m⟩) ⟨⟨r.values, cache⟩, world⟩) ∧
      Coherent c.graph arguments ⟨r.values, cache⟩ := by
  cases h with
  | side h hk hx hd =>
    obtain ⟨cache, h1, h2⟩ := reading_eq (finds_input m hr hρ hx hd) world
    refine ⟨cache, fun host => ?_, h2⟩
    simp only [step, h, hk]
    rw [Comp.bind_done h1]
    cases taken <;> simp only [Value.condition, Flow.successors_eq, hn] <;> rfl

/-- The run fails. -/
theorem step_fail {e : GuestError} (h : Effects c.graph arguments ρ previous m (.fail e))
    (hr : Coherent c.graph arguments r) (hρ : ρ.Le r.bindings) (world : σ) :
    ∃ r', ∀ host, step host c arguments ⟨m, previous⟩ ⟨r, world⟩ = .stop e ⟨r', world⟩ := by
  cases h with
  | noCondition h hk hx hd he =>
    obtain ⟨cache, h1, -⟩ := reading_eq (finds_input m hr hρ hx hd) world
    refine ⟨⟨r.values, cache⟩, fun host => ?_⟩
    simp only [step, h, hk]
    rw [Comp.bind_done h1, he]
    rfl

/-- The run ends. -/
theorem step_finish {result : Result} (h : Effects c.graph arguments ρ previous m (.finish result))
    (hr : Coherent c.graph arguments r) (hρ : ρ.Le r.bindings) (world : σ) :
    ∃ r', ∀ host,
      step host c arguments ⟨m, previous⟩ ⟨r, world⟩ = .done (.finish result) ⟨r', world⟩ := by
  cases h with
  | violated h hk hx hd hv hs hf =>
    obtain ⟨cache, h1, h2⟩ := reading_eq (finds_input m hr hρ hx hd) world
    obtain ⟨cache', h3, -⟩ := reading_eq (handOver_eq m h2 hρ hf none) world
    refine ⟨⟨r.values, cache'⟩, fun host => ?_⟩
    simp only [step, h, hk]
    rw [Comp.bind_done h1, if_neg (by simp [hv]), hs, Comp.bind_done h3]
    rfl
  | deoptimize h hk hs hf =>
    obtain ⟨cache, h1, -⟩ := reading_eq (handOver_eq m hr hρ hf none) world
    refine ⟨⟨r.values, cache⟩, fun host => ?_⟩
    simp only [step, h, hk]
    rw [hs, Comp.bind_done h1]
    rfl
  | ret h hk hx hd =>
    obtain ⟨cache, h1, -⟩ := reading_eq (finds_input m hr hρ hx hd) world
    refine ⟨⟨r.values, cache⟩, fun host => ?_⟩
    simp only [step, h, hk]
    rw [Comp.bind_done h1]
    rfl

theorem bindings_set_of_le {v : Value} (hρ : ρ.Le r.bindings) (hm : ρ m = none) :
    ρ.Le (Registers.bindings ⟨r.values.set m v, []⟩) := by
  intro id w hid
  have hne : id ≠ m := fun h => by rw [h, hm] at hid; cases hid
  rw [Registers.bindings, Values.lookup_set, if_neg hne]
  exact hρ id w hid

/-- A call, whatever comes of it. -/
theorem step_call {target : TargetId} {vs : List Value} {f : SuspendedFrame}
    {callers : List SuspendedFrame}
    (h : Effects c.graph arguments ρ previous m (.call target vs f callers))
    (hr : Coherent c.graph arguments r) (hρ : ρ.Le r.bindings) (hm : ρ m = none) {next : NodeId}
    {rest : List NodeId} (hn : c.graph.successors m = next :: rest) (world : σ) :
    ∃ (stopped : Registers) (handed : σ → Value → Registers), ∀ host : Host σ,
      step host c arguments ⟨m, previous⟩ ⟨r, world⟩ = match host.call target vs world with
        | .done v world' =>
          if host.valid world' then .done (.go ⟨next, some m⟩) ⟨⟨r.values.set m v, []⟩, world'⟩
          else .done (.finish (.deoptimized .invalidated ⟨f.push v, callers⟩))
            ⟨handed world' v, world'⟩
        | .stop e world' => .stop e ⟨stopped, world'⟩
        | .exhausted => .exhausted := by
  cases h with
  | @call n _ site _ state _ _ h hk hd hs hf =>
    obtain ⟨cache, h1, -⟩ := reading_eq (valuesOf_eq hr hρ hd) world
    have hover : ∀ (world' : σ) (v : Value), ∃ r',
        reading (handOver c.graph arguments m (some state) (some v))
        ⟨⟨r.values.set m v, []⟩, world'⟩ = .done ⟨f.push v, callers⟩ ⟨r', world'⟩ := by
      intro world' v
      have hc' : Coherent c.graph arguments ⟨r.values.set m v, []⟩ := fun id w h => by simp at h
      obtain ⟨cache', h2, -⟩ :=
        reading_eq (handOver_eq m hc' (bindings_set_of_le hρ hm) hf (some v)) world'
      exact ⟨_, h2⟩
    choose handed hhanded using hover
    refine ⟨⟨r.values, cache⟩, handed, fun host => ?_⟩
    simp only [step, h, hk]
    rw [Comp.bind_done h1]
    cases hc : host.call target vs world with
    | exhausted =>
      dsimp only
      rw [Comp.bind_exhausted]
      simp only [outside, Comp.within, hc]
    | stop e world' =>
      dsimp only
      rw [Comp.bind_stop]
      simp only [outside, Comp.within, hc]
    | done v world' =>
      have h2 : outside (host.call target vs) ⟨⟨r.values, cache⟩, world⟩ = .done v
          ⟨⟨r.values, cache⟩, world'⟩ := by
        simp only [outside, Comp.within, hc]
      let a : Activation σ := ⟨⟨r.values.set m v, []⟩, world'⟩
      have h3 : reading (Comp.update fun r => ⟨r.values.set m v, []⟩)
          ⟨⟨r.values, cache⟩, world'⟩ = .done () a := rfl
      have h4 : (Comp.state : Comp GuestError (Activation σ) _) a = .done a a := rfl
      dsimp only
      rw [Comp.bind_done h2, Comp.bind_done h3, Comp.bind_done h4]
      split_ifs with hv
      · rw [advance_eq hn]
      · rw [hs, Comp.bind_done (hhanded world' v)]
        rfl

end

end Code

end TieredEngine

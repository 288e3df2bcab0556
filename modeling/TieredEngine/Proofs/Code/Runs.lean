import TieredEngine.Proofs.Code.Machine
/-!
# Runs of the machine

`Runs` is a whole run of the machine with a host, from a configuration to how
it ends, with the number of its steps. Running code of a safe graph does what
the machine does: `Runs.run` and `exists_runs`, and from the start
`run_iff_runs`.
-/

namespace TieredEngine

/-- The value of a node depends on the registers that it asks for. -/
theorem Denotes.congr_asks {g : Graph} {arguments : List Value} {ρ ρ' : Bindings} {x : NodeId}
    {v : Value} (h : Denotes g arguments ρ x v) (hρ : ∀ y, g.Asks x y → ρ' y = ρ y) :
    Denotes g arguments ρ' x v := by
  have hinput : ∀ {n : Node} {y : NodeId} {i : ℕ}, n.inputs[i]? = some y → y ∈ n.dataEdges :=
    fun hy =>
    List.mem_append_left _ (List.mem_of_getElem? hy)
  induction h with
  | constant hn hk => exact .constant hn hk
  | parameter hn hk => exact .parameter hn hk
  | register hn hk hr => exact .register hn hk ((hρ _ (.self _)).trans hr)
  | binary hn hk hx hy _ _ ho ihx ihy =>
    exact .binary hn hk hx hy
      (ihx fun z hz => hρ z (.edge hn (by rw [hk]; rfl) (by simp [hk]) (hinput hx) hz))
      (ihy fun z hz => hρ z (.edge hn (by rw [hk]; rfl) (by simp [hk]) (hinput hy) hz)) ho
  | unary hn hk hx _ ho ih =>
    exact .unary hn hk hx
      (ih fun z hz => hρ z (.edge hn (by rw [hk]; rfl) (by simp [hk]) (hinput hx) hz)) ho

theorem FramesAt.congr_asks {g : Graph} {arguments : List Value} {ρ ρ' : Bindings} {s : NodeId}
    {fs : List SuspendedFrame} (h : FramesAt g arguments ρ s fs)
    (hρ : ∀ y, g.Asks s y → ρ' y = ρ y) :
    FramesAt g arguments ρ' s fs := by
  have hinputs : ∀ {s : NodeId} {n : Node} {shape : FrameShape} {vs : List Value},
      g.node? s = some n → n.kind = .frameState shape → (∀ y, g.Asks s y → ρ' y = ρ y) →
      List.Forall₂ (Denotes g arguments ρ) n.inputs vs →
      List.Forall₂ (Denotes g arguments ρ') n.inputs vs := by
    intro s n shape vs hn hk hρ hv
    refine List.forall₂_iff_get.2 ⟨hv.length_eq, fun i h1 h2 => ?_⟩
    refine (hv.get h1 h2).congr_asks fun z hz =>
      hρ z (.edge hn (by rw [hk]; rfl) (by simp [hk]) ?_ hz)
    exact List.mem_append_left _ (List.get_mem _ _)
  induction h with
  | last hn hk hl hs hv => exact .last hn hk hl hs (hinputs hn hk hρ hv)
  | more hn hk hl hs hv _ ih =>
    refine .more hn hk hl hs (hinputs hn hk hρ hv)
      (ih fun z hz => hρ z (.edge hn (by rw [hk]; rfl) (by simp [hk]) ?_ hz))
    exact List.mem_append_right _ (by simp [hs])

namespace Code

open TieredEngine.Graph

variable {g : Graph} {arguments : List Value} {κ κ₁ : Config} {σ : Type}

/-! ## What the registers hold -/

theorem bindings_setAll {r r' : Registers} {us : Values} (hn : (us.map Prod.fst).Nodup)
    (hr : r'.values = r.values.setAll us) : r'.bindings = r.bindings.overlay us := by
  funext x
  rw [Registers.bindings, hr, Bindings.overlay]
  cases hl : us.lookup x with
  | some v => rw [Values.lookup_setAll_of_mem hn (mem_of_lookup hl), Option.some_or]
  | none =>
    rw [Values.lookup_setAll_of_notMem, Option.none_or, Registers.bindings]
    intro hmem
    obtain ⟨u, hu, rfl⟩ := List.mem_map.1 hmem
    rw [lookup_of_mem hn hu] at hl
    cases hl

theorem bindings_set {r : Registers} (m : NodeId) (v : Value) :
    Registers.bindings ⟨r.values.set m v, []⟩ = r.bindings.overlay [(m, v)] := by
  have hn : ([(m, v)].map Prod.fst).Nodup := by simp
  exact bindings_setAll hn rfl

/-- The registers without one. -/
def Bindings.without (ρ : Bindings) (m : NodeId) : Bindings := fun x => if x = m then none else ρ x

/-- A node that joins nothing is not passed before it is entered. -/
theorem not_dominates_of_follows (hg : g.Runnable) {q m : NodeId} {n : Node} (hr : g.Reached m)
    (hn : g.node? m = some n) (hk : n.kind.isMerge = false) (hf : g.Follows q m) :
    ¬ g.Dominates m q := by
  obtain ⟨q', hf', -, hnd⟩ := hr.exists_entry (hg.wired.ne_start_of_follows hf)
  exact hg.wired.eq_of_follows hn hk hf' hf ▸ hnd

/-- What a call reads does not depend on its last answer. -/
theorem Config.Does.call_without (hg : g.Runnable) (hκ : Reach g arguments κ) {target : TargetId}
    {vs : List Value} {f : SuspendedFrame} {callers : List SuspendedFrame}
    (h : κ.Does g arguments (.call target vs f callers)) :
    Effects g arguments (Bindings.without κ.bindings κ.current) κ.previous κ.current
      (.call target vs f callers) := by
  cases h with
  | @call n _ site _ s _ _ hn hk hd hs hf =>
    obtain ⟨q, -, -, hfo, hq⟩ := hκ.exists_previous hg hn (by simp [hk])
    have hfix : n.kind.isFixed := by rw [hk]; rfl
    have hown : Owns g κ.current κ.current := .inr ⟨rfl, by simp [kind?, hn, hk, NodeKind.isInvoke]⟩
    have hnd := not_dominates_of_follows hg hκ.reached hn (by rw [hk]; rfl) hfo
    have hsame : ∀ y, y ≠ κ.current → Bindings.without κ.bindings κ.current y = κ.bindings y :=
      fun y hy => if_neg hy
    refine .call hn hk (List.forall₂_iff_get.2 ⟨hd.length_eq, fun i h1 h2 => ?_⟩) hs ?_
    · have hav := hg.wired.inputs _ n q _ hn hfix hκ.reached hq (List.get_mem n.inputs ⟨i, h1⟩)
      refine (hd.get h1 h2).congr_asks fun y hy => hsame y ?_
      rintro rfl
      exact hnd (hav.dominates hg.wired.counted hy hown)
    · have hav := hg.wired.states _ n q s hn hfix hκ.reached hq hs
      refine hf.congr_asks fun y hy => hsame y ?_
      rintro rfl
      exact hnd (hav.dominates hg.wired.counted hy hown)

/-! ## Steps of running code -/

section

variable {c : Code} {r : Registers} (hg : c.graph.Runnable) (hκ : Reach c.graph arguments κ)
  (hr : Coherent c.graph arguments r) (hb : r.bindings = κ.bindings)

include hr hb

/-- Running code ends where the machine does. -/
theorem step_of_ends {x : Except GuestError Result} (h : Ends c.graph arguments κ x) (world : σ) :
    ∃ r', ∀ host, step host c arguments ⟨κ.current, κ.previous⟩ ⟨r, world⟩ = match x with
      | .ok result => .done (.finish result) ⟨r', world⟩
      | .error e => .stop e ⟨r', world⟩ := by
  have hle : κ.bindings.Le r.bindings := hb ▸ .refl _
  cases h with
  | fail hd => exact step_fail hd hr hle world
  | finish hd => exact step_finish hd hr hle world

include hg hκ

/-- Running code goes where the machine does. -/
theorem step_of_silent (h : Steps c.graph arguments κ .silent κ₁) (world : σ) :
    ∃ r', (∀ host, step host c arguments ⟨κ.current, κ.previous⟩ ⟨r, world⟩ =
        .done (.go ⟨κ₁.current, κ₁.previous⟩) ⟨r', world⟩) ∧ Coherent c.graph arguments r' ∧
          r'.bindings = κ₁.bindings := by
  have hle : κ.bindings.Le r.bindings := hb ▸ .refl _
  cases h with
  | @pass us next hd hf =>
    obtain ⟨n, hn, hk⟩ := Effects.isOpen_of_pass hd
    obtain ⟨s, hs⟩ := exists_next hg hκ.reached hn hk
    obtain rfl := (hs next).1 hf
    obtain ⟨r', h1, h2, h3⟩ := step_pass hd hr hle (successors_eq_of_single hs) world
    exact ⟨r', h1, h3, by rw [bindings_setAll hd.pass_keys.1 h2, hb]⟩
  | @side taken next hd hf hk =>
    obtain ⟨n, hn, hkind⟩ := Effects.branch_of_side hd
    obtain ⟨a, b, ha, hb', hab⟩ := exists_sides hg hκ.reached hn hkind
    obtain ⟨cache, h1, h2⟩ := step_side hd hr hle (successors_eq_of_sides ha hb' hab) world
    have hnext : (if taken then a else b) = next := by
      rcases (hab next).1 hf with rfl | rfl
      · cases taken
        · exact absurd (ha.symm.trans hk) (by simp)
        · rfl
      · cases taken
        · rfl
        · exact absurd (hb'.symm.trans hk) (by simp)
    rw [hnext] at h1
    exact ⟨⟨r.values, cache⟩, h1, h2, hb⟩

/-- Running code makes the call that the machine shows. -/
theorem step_of_call {target : TargetId} {vs : List Value} {f : SuspendedFrame}
    {callers : List SuspendedFrame} {v : Value}
    (h : Steps c.graph arguments κ (.call target vs f callers v) κ₁) (world : σ) :
    ∃ (stopped : Registers) (handed : σ → Value → Registers), ∀ host : Host σ,
      step host c arguments ⟨κ.current, κ.previous⟩
        ⟨r, world⟩ = match host.call target vs world with
        | .done v world' =>
          if host.valid world' then .done (.go ⟨κ₁.current, some κ.current⟩)
            ⟨⟨r.values.set κ.current v, []⟩, world'⟩
          else .done (.finish (.deoptimized .invalidated ⟨f.push v, callers⟩))
            ⟨handed world' v, world'⟩
        | .stop e world' => .stop e ⟨stopped, world'⟩
        | .exhausted => .exhausted := by
  cases h with
  | @call _ _ _ _ next _ hd hf =>
    obtain ⟨n, hn, hk⟩ := Effects.isOpen_of_call hd
    obtain ⟨s, hs⟩ := exists_next hg hκ.reached hn hk
    obtain rfl := (hs next).1 hf
    have hle : (Bindings.without κ.bindings κ.current).Le r.bindings := by
      intro x v hx
      rw [hb]
      unfold Bindings.without at hx
      split at hx
      · cases hx
      · exact hx
    exact step_call (hd.call_without hg hκ) hr hle (if_pos rfl) (successors_eq_of_single hs) world

end

/-! ## Whole runs -/

/-- How a run that stops in a world ends. -/
def ending (x : Except GuestError Result) (world : σ) : Outcome GuestError σ Result :=
  match x with
  | .ok result => .done result world
  | .error e => .stop e world

/-- A run of the machine with a host ends so, after that many steps. -/
inductive Runs (g : Graph) (arguments : List Value) (host : Host σ) :
    ℕ → Config → σ → Outcome GuestError σ Result → Prop
  | ends {κ w x} : Ends g arguments κ x → Runs g arguments host 1 κ w (ending x w)
  | silent {k κ κ₁ w o} : Steps g arguments κ .silent κ₁ → Runs g arguments host k κ₁ w o →
    Runs g arguments host (k + 1) κ w o
  | call {k κ κ₁ w w' o target vs f callers v} : Steps g arguments κ (.call target vs f callers v)
      κ₁ → host.call target vs w = .done v w' → host.valid w' → Runs g arguments host k κ₁ w' o →
      Runs g arguments host (k + 1) κ w o
  | handOver {κ κ₁ w w' target vs f callers v} : Steps g arguments κ (.call target vs f callers v)
      κ₁ → host.call target vs w = .done v w' → host.valid w' = false →
      Runs g arguments host 1 κ w (.done (.deoptimized .invalidated ⟨f.push v, callers⟩) w')
  | stop {κ κ₁ w w' target vs f callers v e} : Steps g arguments κ (.call target vs f callers v)
      κ₁ → host.call target vs w = .stop e w' → Runs g arguments host 1 κ w (.stop e w')

variable {host : Host σ} {c : Code} {r : Registers} {w : σ} {k : ℕ}
    {o : Outcome GuestError σ Result}

/-- Running code does what the machine does. -/
theorem Runs.run (hg : c.graph.Runnable) (h : Runs c.graph arguments host k κ w o)
    (hκ : Reach c.graph arguments κ) (hr : Coherent c.graph arguments r)
    (hb : r.bindings = κ.bindings) :
    ∀ j, k ≤ j → outcomeOf (runFrom host c arguments j ⟨κ.current, κ.previous⟩ ⟨r, w⟩) = o := by
  induction h generalizing r with
  | @ends κ w x hends =>
    intro j hj
    obtain ⟨r', hstep⟩ := step_of_ends hr hb hends w
    cases x with
    | ok result => rw [runFrom_finish (hstep host) hj]; rfl
    | error e => rw [runFrom_stop (hstep host) hj]; rfl
  | silent hs _ ih =>
    intro j hj
    obtain ⟨j, rfl⟩ := Nat.exists_eq_succ_of_ne_zero (by omega : j ≠ 0)
    obtain ⟨r', hstep, hr', hb'⟩ := step_of_silent hg hκ hr hb hs _
    rw [runFrom_go (hstep host)]
    exact ih (.step hκ hs) hr' hb' j (by omega)
  | @call k κ κ₁ w w' o target vs f callers v hs hcall hvalid _ ih =>
    intro j hj
    obtain ⟨j, rfl⟩ := Nat.exists_eq_succ_of_ne_zero (by omega : j ≠ 0)
    obtain ⟨stopped, handed, hstep⟩ := step_of_call hg hκ hr hb hs w
    have hgo := hstep host
    simp only [hcall, hvalid, if_true] at hgo
    rw [runFrom_go hgo]
    have hnext : κ₁.previous = some κ.current := hs.edge.1
    rw [← hnext]
    refine ih (.step hκ hs) (fun _ _ h => by simp at h) ?_ j (by omega)
    rw [bindings_set, hb]
    cases hs
    rfl
  | @handOver κ κ₁ w w' target vs f callers v hs hcall hvalid =>
    intro j hj
    obtain ⟨stopped, handed, hstep⟩ := step_of_call hg hκ hr hb hs w
    have hfinish := hstep host
    simp only [hcall, hvalid, Bool.false_eq_true, if_false] at hfinish
    rw [runFrom_finish hfinish hj]
    rfl
  | @stop κ κ₁ w w' target vs f callers v e hs hcall =>
    intro j hj
    obtain ⟨stopped, handed, hstep⟩ := step_of_call hg hκ hr hb hs w
    have hstop := hstep host
    simp only [hcall] at hstop
    rw [runFrom_stop hstop hj]
    rfl

/-- A run that gives up does so behind a call, because the code is no longer
valid, or where the machine does. -/
theorem Runs.gives_up (h : Runs g arguments host k κ w o) (hκ : Reach g arguments κ)
    {reason : DeoptReason} {snapshot : Snapshot} {w' : σ}
    (ho : o = .done (.deoptimized reason snapshot) w') :
    reason = .invalidated ∨ ∃ κ', Reach g arguments κ' ∧
      Ends g arguments κ' (.ok (.deoptimized reason snapshot)) := by
  induction h with
  | @ends κ w x hends =>
    cases x with
    | error e => cases ho
    | ok result =>
      cases ho
      exact .inr ⟨κ, hκ, hends⟩
  | silent hs _ ih => exact ih (.step hκ hs) ho
  | call hs _ _ _ ih => exact ih (.step hκ hs) ho
  | handOver =>
    cases ho
    exact .inl rfl
  | stop => cases ho

/-- Where running code of a safe graph ends, the machine does. -/
theorem exists_runs (hg : c.graph.Runnable) (hsafe : Safe c.graph arguments) (ho : o ≠ .exhausted) :
    ∀ (k : ℕ) {κ : Config} {r : Registers} {w : σ}, Reach c.graph arguments κ →
      Coherent c.graph arguments r → r.bindings = κ.bindings →
        outcomeOf (runFrom host c arguments k ⟨κ.current, κ.previous⟩ ⟨r, w⟩) = o →
      ∃ j ≤ k, Runs c.graph arguments host j κ w o := by
  intro k
  induction k with
  | zero =>
    intro κ r w _ _ _ h
    exact absurd h.symm ho
  | succ k ih =>
    intro κ r w hκ hr hb h
    rcases hsafe κ hκ with ⟨x, hends⟩ | ⟨l, κ₁, hs⟩
    · have hruns : Runs c.graph arguments host 1 κ w (ending x w) := .ends hends
      rw [hruns.run hg hκ hr hb (k + 1) (by omega)] at h
      exact ⟨1, by omega, h ▸ hruns⟩
    cases l with
    | silent =>
      obtain ⟨r', hstep, hr', hb'⟩ := step_of_silent hg hκ hr hb hs w
      rw [runFrom_go (hstep host)] at h
      obtain ⟨j, hj, hruns⟩ := ih (.step hκ hs) hr' hb' h
      exact ⟨j + 1, by omega, .silent hs hruns⟩
    | call target vs f callers v =>
      obtain ⟨stopped, handed, hstep⟩ := step_of_call hg hκ hr hb hs w
      have hstep := hstep host
      cases hcall : host.call target vs w with
      | exhausted =>
        simp only [hcall] at hstep
        rw [runFrom, hstep] at h
        exact absurd h.symm ho
      | stop e w' =>
        have hruns : Runs c.graph arguments host 1 κ w (.stop e w') := .stop hs hcall
        rw [hruns.run hg hκ hr hb (k + 1) (by omega)] at h
        exact ⟨1, by omega, h ▸ hruns⟩
      | done v' w' =>
        have hs' := hs.answer v'
        by_cases hvalid : host.valid w'
        · simp only [hcall, hvalid, if_true] at hstep
          rw [runFrom_go hstep] at h
          obtain ⟨j, hj, hruns⟩ :=
            ih (.step hκ hs') (fun _ _ h => by simp at h) (by rw [bindings_set, hb]) h
          exact ⟨j + 1, by omega, .call hs' hcall hvalid hruns⟩
        · have hruns : Runs c.graph arguments host 1 κ w
              (.done (.deoptimized .invalidated ⟨f.push v', callers⟩) w') :=
            .handOver hs' hcall (by simpa using hvalid)
          rw [hruns.run hg hκ hr hb (k + 1) (by omega)] at h
          exact ⟨1, by omega, h ▸ hruns⟩

/-- Code of a safe graph ends within a bound as the machine does. -/
theorem run_iff_runs (hg : c.graph.Runnable) (hsafe : Safe c.graph arguments)
    (ho : o ≠ .exhausted) :
    c.run host k arguments w = o ↔ ∃ j ≤ k, Runs c.graph arguments host j .start w o := by
  have hrun : c.run host k arguments w =
      outcomeOf (runFrom host c arguments k ⟨Graph.start, none⟩ ⟨⟨[], []⟩, w⟩) := rfl
  have hr : Coherent c.graph arguments ⟨[], []⟩ := fun _ _ h => by simp at h
  rw [hrun]
  constructor
  · exact exists_runs hg hsafe ho k .start hr rfl
  · rintro ⟨j, hj, hruns⟩
    exact hruns.run hg .start hr rfl k hj

end Code

end TieredEngine

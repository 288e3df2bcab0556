import TieredEngine.Proofs.Code.Runs
/-!
# Graphs that run alike

A graph simulates another one if each step of its machine is a step of the
other machine, or shows nothing and is left out there (`Simulates`). Then both
have the same runs with every host: `Simulates.runsAlike`.

For graphs that come from each other by moving nodes and edges, `Mirrors` says
what corresponds to what, and `Carries` that the values read in one
configuration are the same in both; `simulates_of_mirrors` puts these
together.
-/

namespace TieredEngine

namespace Code

open TieredEngine.Graph

/-! ## Simulations -/

/-- The steps of the first machine are steps of the second, or silent ones
that the second has not; of those only so many come in a row. -/
structure Simulates (g g' : Graph) (arguments : List Value) (rel : Config → Config → Prop)
    (left : NodeId → ℕ) : Prop where
  start : rel .start .start
  ends : ∀ {κ κ' x}, Reach g arguments κ → Reach g' arguments κ' → rel κ κ' → Ends g arguments κ x →
    Ends g' arguments κ' x
  steps : ∀ {κ κ' l κ₁}, Reach g arguments κ → Reach g' arguments κ' → rel κ κ' →
    Steps g arguments κ l κ₁ → (∃ κ₁', Steps g' arguments κ' l κ₁' ∧ rel κ₁ κ₁') ∨
    (l = .silent ∧ rel κ₁ κ' ∧ left κ₁.current < left κ.current)

/-- The second graph has the runs of the first, with no more steps, and no
others; and it is safe if the first is. -/
structure RunsAlike (g g' : Graph) (arguments : List Value) : Prop where
  safe : Safe g' arguments
  forth : ∀ {σ : Type} {host : Host σ} {k : ℕ} {w : σ} {o : Outcome GuestError σ Result},
    Runs g arguments host k .start w o → ∃ j ≤ k, Runs g' arguments host j .start w o
  back : ∀ {σ : Type} {host : Host σ} {k : ℕ} {w : σ} {o : Outcome GuestError σ Result},
    Runs g' arguments host k .start w o → ∃ j, Runs g arguments host j .start w o

variable {g g' g'' : Graph} {arguments : List Value} {κ κ' κ₁ κ₂ : Config} {l : Label}

theorem RunsAlike.refl (h : Safe g arguments) :
    RunsAlike g g arguments := ⟨h, fun hr => ⟨_, le_rfl, hr⟩, fun hr => ⟨_, hr⟩⟩

theorem RunsAlike.trans (h : RunsAlike g g' arguments) (h' : RunsAlike g' g'' arguments) :
    RunsAlike g g'' arguments where
  safe := h'.safe
  forth hr := by
    obtain ⟨j, hj, hr'⟩ := h.forth hr
    obtain ⟨i, hi, hr''⟩ := h'.forth hr'
    exact ⟨i, hi.trans hj, hr''⟩
  back hr := by
    obtain ⟨j, hr'⟩ := h'.back hr
    exact h.back hr'

/-- Steps that show nothing. -/
abbrev Silently (g : Graph) (arguments : List Value) : Config → Config → Prop :=
  Relation.ReflTransGen fun κ κ₁ => Steps g arguments κ .silent κ₁

theorem Reach.silently (h : Reach g arguments κ) (hs : Silently g arguments κ κ₁) :
    Reach g arguments κ₁ := by
  induction hs with
  | refl => exact h
  | tail _ hs ih => exact .step ih hs

theorem Runs.after_silently {σ : Type} {host : Host σ} {k : ℕ} {w : σ}
    {o : Outcome GuestError σ Result} (hs : Silently g arguments κ κ₁)
    (h : Runs g arguments host k κ₁ w o) :
    ∃ j, Runs g arguments host j κ w o := by
  induction hs using Relation.ReflTransGen.head_induction_on with
  | refl => exact ⟨k, h⟩
  | head hs _ ih =>
    obtain ⟨j, hj⟩ := ih
    exact ⟨j + 1, .silent hs hj⟩

namespace Simulates

variable {rel : Config → Config → Prop} {left : NodeId → ℕ} (h : Simulates g g' arguments rel left)

include h

/-- The second machine has the runs of the first, with no more steps. -/
theorem forth {σ : Type} {host : Host σ} {k : ℕ} {w : σ} {o : Outcome GuestError σ Result}
    (hr : Runs g arguments host k κ w o) : ∀ {κ'}, Reach g arguments κ →
      Reach g' arguments κ' → rel κ κ' → ∃ j ≤ k, Runs g' arguments host j κ' w o := by
  have hcall : ∀ {κ κ' κ₁ target vs f callers v}, Reach g arguments κ → Reach g' arguments κ' →
      rel κ κ' → Steps g arguments κ (.call target vs f callers v) κ₁ →
      ∃ κ₁', Steps g' arguments κ' (.call target vs f callers v) κ₁' ∧ rel κ₁ κ₁' := by
    intro κ κ' κ₁ target vs f callers v hκ hκ' hrel hs
    rcases h.steps hκ hκ' hrel hs with hs' | ⟨hl, -⟩
    · exact hs'
    · cases hl
  induction hr with
  | ends hends => exact fun hκ hκ' hrel => ⟨1, le_rfl, .ends (h.ends hκ hκ' hrel hends)⟩
  | silent hs _ ih =>
    intro κ' hκ hκ' hrel
    rcases h.steps hκ hκ' hrel hs with ⟨κ₁', hs', hrel'⟩ | ⟨-, hrel', -⟩
    · obtain ⟨j, hj, hr'⟩ := ih (.step hκ hs) (.step hκ' hs') hrel'
      exact ⟨j + 1, by omega, .silent hs' hr'⟩
    · obtain ⟨j, hj, hr'⟩ := ih (.step hκ hs) hκ' hrel'
      exact ⟨j, by omega, hr'⟩
  | call hs ha hv _ ih =>
    intro κ' hκ hκ' hrel
    obtain ⟨κ₁', hs', hrel'⟩ := hcall hκ hκ' hrel hs
    obtain ⟨j, hj, hr'⟩ := ih (.step hκ hs) (.step hκ' hs') hrel'
    exact ⟨j + 1, by omega, .call hs' ha hv hr'⟩
  | handOver hs ha hv =>
    intro κ' hκ hκ' hrel
    obtain ⟨κ₁', hs', -⟩ := hcall hκ hκ' hrel hs
    exact ⟨1, le_rfl, .handOver hs' ha hv⟩
  | stop hs ha =>
    intro κ' hκ hκ' hrel
    obtain ⟨κ₁', hs', -⟩ := hcall hκ hκ' hrel hs
    exact ⟨1, le_rfl, .stop hs' ha⟩

variable (hsafe : Safe g arguments)

include hsafe

/-- After some silent steps the first machine ends, or makes a step that the
second makes too. -/
theorem meets (hκ : Reach g arguments κ) (hκ' : Reach g' arguments κ') (hrel : rel κ κ') :
    ∃ κ₂, Silently g arguments κ κ₂ ∧ rel κ₂ κ' ∧ ((∃ x, Ends g arguments κ₂ x) ∨
      ∃ l κ₃ κ₁', Steps g arguments κ₂ l κ₃ ∧ Steps g' arguments κ' l κ₁' ∧ rel κ₃ κ₁') := by
  induction hn : left κ.current using Nat.strong_induction_on generalizing κ with
  | _ n ih =>
    rcases hsafe κ hκ with ⟨x, hends⟩ | ⟨l, κ₁, hs⟩
    · exact ⟨κ, .refl, hrel, .inl ⟨x, hends⟩⟩
    rcases h.steps hκ hκ' hrel hs with ⟨κ₁', hs', hrel'⟩ | ⟨rfl, hrel', hlt⟩
    · exact ⟨κ, .refl, hrel, .inr ⟨l, κ₁, κ₁', hs, hs', hrel'⟩⟩
    · obtain ⟨κ₂, h1, h2⟩ := ih _ (hn ▸ hlt) (.step hκ hs) hrel' rfl
      exact ⟨κ₂, .head hs h1, h2⟩

variable (hg' : g'.Runnable)

include hg'

/-- A step of the second machine is one of the first, after some silent ones. -/
theorem step_back (hκ : Reach g arguments κ) (hκ' : Reach g' arguments κ') (hrel : rel κ κ')
    (hs : Steps g' arguments κ' l κ₁) :
    ∃ κ₂ κ₃, Silently g arguments κ κ₂ ∧ Steps g arguments κ₂ l κ₃ ∧ rel κ₃ κ₁ := by
  obtain ⟨κ₂, hsil, hrel₂, ⟨x, hends⟩ | ⟨l', κ₃, κ₁', hs₃, hs', hrel₃⟩⟩ := h.meets hsafe hκ hκ' hrel
  · exact absurd hs (h.ends (hκ.silently hsil) hκ' hrel₂ hends).not_steps
  cases l with
  | silent =>
    obtain ⟨rfl, rfl⟩ := hs.silent_unique hg' hκ'.reached hs'
    exact ⟨κ₂, κ₃, hsil, hs₃, hrel₃⟩
  | call target vs f callers v =>
    obtain ⟨v', rfl, -⟩ := hs.call_unique hg' hκ'.reached hs'
    have hs₄ := hs₃.answer v
    rcases h.steps (hκ.silently hsil) hκ' hrel₂ hs₄ with ⟨κ₄', hs₄', hrel₄⟩ | ⟨hl, -⟩
    · obtain ⟨v'', hv, heq⟩ := hs.call_unique hg' hκ'.reached hs₄'
      cases hv
      exact ⟨κ₂, _, hsil, hs₄, heq rfl ▸ hrel₄⟩
    · cases hl

omit hg' in
theorem ends_back {x : Except GuestError Result} (hκ : Reach g arguments κ)
    (hκ' : Reach g' arguments κ') (hrel : rel κ κ') (hends : Ends g' arguments κ' x) :
    ∃ κ₂, Silently g arguments κ κ₂ ∧ Ends g arguments κ₂ x := by
  obtain ⟨κ₂, hsil, hrel₂, ⟨x', hends'⟩ | ⟨l', κ₃, κ₁', -, hs', -⟩⟩ := h.meets hsafe hκ hκ' hrel
  · exact ⟨κ₂, hsil, (h.ends (hκ.silently hsil) hκ' hrel₂ hends').unique hends ▸ hends'⟩
  · exact absurd hs' hends.not_steps

/-- The second machine has no other runs. -/
theorem back {σ : Type} {host : Host σ} {k : ℕ} {w : σ} {o : Outcome GuestError σ Result}
    (hr : Runs g' arguments host k κ' w o) : ∀ {κ}, Reach g arguments κ →
      Reach g' arguments κ' → rel κ κ' → ∃ j, Runs g arguments host j κ w o := by
  induction hr with
  | ends hends =>
    intro κ hκ hκ' hrel
    obtain ⟨κ₂, hsil, hends'⟩ := h.ends_back hsafe hκ hκ' hrel hends
    exact Runs.after_silently hsil (.ends hends')
  | silent hs _ ih =>
    intro κ hκ hκ' hrel
    obtain ⟨κ₂, κ₃, hsil, hs', hrel'⟩ := h.step_back hsafe hg' hκ hκ' hrel hs
    obtain ⟨j, hr'⟩ := ih (.step (hκ.silently hsil) hs') (.step hκ' hs) hrel'
    exact Runs.after_silently hsil (.silent hs' hr')
  | call hs ha hv _ ih =>
    intro κ hκ hκ' hrel
    obtain ⟨κ₂, κ₃, hsil, hs', hrel'⟩ := h.step_back hsafe hg' hκ hκ' hrel hs
    obtain ⟨j, hr'⟩ := ih (.step (hκ.silently hsil) hs') (.step hκ' hs) hrel'
    exact Runs.after_silently hsil (.call hs' ha hv hr')
  | handOver hs ha hv =>
    intro κ hκ hκ' hrel
    obtain ⟨κ₂, κ₃, hsil, hs', -⟩ := h.step_back hsafe hg' hκ hκ' hrel hs
    exact Runs.after_silently hsil (.handOver hs' ha hv)
  | stop hs ha =>
    intro κ hκ hκ' hrel
    obtain ⟨κ₂, κ₃, hsil, hs', -⟩ := h.step_back hsafe hg' hκ hκ' hrel hs
    exact Runs.after_silently hsil (.stop hs' ha)

/-- Every configuration of the second machine goes with one of the first. -/
theorem exists_rel (hκ' : Reach g' arguments κ') : ∃ κ, Reach g arguments κ ∧ rel κ κ' := by
  induction hκ' with
  | start => exact ⟨_, .start, h.start⟩
  | step hκ' hs ih =>
    obtain ⟨κ, hκ, hrel⟩ := ih
    obtain ⟨κ₂, κ₃, hsil, hs', hrel'⟩ := h.step_back hsafe hg' hκ hκ' hrel hs
    exact ⟨κ₃, .step (hκ.silently hsil) hs', hrel'⟩

theorem safe : Safe g' arguments := by
  intro κ' hκ'
  obtain ⟨κ, hκ, hrel⟩ := h.exists_rel hsafe hg' hκ'
  obtain ⟨κ₂, hsil, hrel₂, ⟨x, hends⟩ | ⟨l, κ₃, κ₁', -, hs', -⟩⟩ := h.meets hsafe hκ hκ' hrel
  · exact .inl ⟨x, h.ends (hκ.silently hsil) hκ' hrel₂ hends⟩
  · exact .inr ⟨l, κ₁', hs'⟩

theorem runsAlike : RunsAlike g g' arguments where
  safe := h.safe hsafe hg'
  forth hr := h.forth hr .start .start h.start
  back hr := h.back hsafe hg' hr .start .start h.start

end Simulates

/-! ## What the phis of a merge get -/

section

variable {ρ : Bindings} {index : ℕ} {phis : List NodeId} {us : Values} {x : NodeId}

theorem UpdatesAt.lookup_of_mem (h : UpdatesAt g arguments ρ index phis us) (hnd : phis.Nodup)
    (hx : x ∈ phis) :
    ∃ v p y, us.lookup x = some v ∧ g.node? x = some p ∧ p.inputs[index]? = some y ∧
      Denotes g arguments ρ y v := by
  have hkeys := h.keys
  obtain ⟨i, hi, rfl⟩ := List.getElem_of_mem hx
  have hi' : i < us.length := h.length_eq ▸ hi
  obtain ⟨hfst, p, y, hp, hy, hd⟩ := List.Forall₂.get h hi hi'
  refine ⟨_, p, y, lookup_of_mem (hkeys ▸ hnd) (?_ : (phis[i], us[i].2) ∈ us), hp, hy, hd⟩
  have he : us[i] = (phis[i], us[i].2) := Prod.ext hfst rfl
  exact he ▸ List.getElem_mem hi'

theorem UpdatesAt.lookup_of_notMem (h : UpdatesAt g arguments ρ index phis us) (hx : x ∉ phis) :
    us.lookup x = none := by
  cases hl : us.lookup x with
  | none => rfl
  | some v => exact absurd (h.keys ▸ List.mem_map.2 ⟨(x, v), mem_of_lookup hl, rfl⟩) hx

theorem exists_updatesAt
    (h : ∀ x ∈ phis, ∃ p y v, g.node? x = some p ∧ p.inputs[index]? = some y ∧
      Denotes g arguments ρ y v) :
    ∃ us, UpdatesAt g arguments ρ index phis us := by
  induction phis with
  | nil => exact ⟨[], .nil⟩
  | cons x phis ih =>
    obtain ⟨us, hus⟩ := ih fun y hy => h y (List.mem_cons_of_mem _ hy)
    obtain ⟨p, y, v, hp, hy, hd⟩ := h x List.mem_cons_self
    exact ⟨(x, v) :: us, .cons ⟨rfl, p, y, hp, hy, hd⟩ hus⟩

end

/-! ## Graphs that mirror each other -/

end Code

namespace Graph

/-- What corresponds to what: the node at a position is at the same position,
unless it is gone; it reads `value x` for `x`, control that comes from `q`
comes from `came q`, and control that goes to `m` goes to `goes m`. -/
structure Mirrors (g g' : Graph) (value came goes : NodeId → NodeId) (gone : NodeId → Prop) :
    Prop where
  stays : ∀ {m}, ¬ gone m → goes m = m ∧ came m = m
  node : ∀ {m n}, g.node? m = some n → n.kind.isFixed → g.Reached m → ¬ gone m →
    ∃ n', g'.node? m = some n' ∧ n'.kind = n.kind ∧ n'.inputs = n.inputs.map value ∧
    n'.state = n.state.map value
  next : ∀ {m s}, g.Reached m → ¬ gone m → g.Follows m s →
    g'.Follows m (goes s) ∧ ∀ k, g.kind? s = some k → k.isSide → g'.kind? (goes s) = some k
  phis : ∀ {m x}, g.Reached m → ¬ gone m → (x ∈ g'.phisOf m ↔ x ∈ g.phisOf m ∧ g'.contains x)
  /-- What comes in over one edge of a merge comes in over the corresponding
  one. -/
  edge : ∀ {m n n' q} {i : ℕ}, g.node? m = some n → n.kind.isMerge → g.Reached m → ¬ gone m →
    g'.node? m = some n' →
    g.Reached q → n.control[i]? = some q → ∃ i' : ℕ, n'.control[i']? = some (came q) ∧
      ∀ x p p' y, g.node? x = some p → g'.node? x = some p' → x ∈ g.phisOf m →
        p.inputs[i]? = some y → p'.inputs[i']? = some (value y)

end Graph

namespace Code

open TieredEngine.Graph

/-- The configuration of the second graph that goes with one of the first. -/
structure Shadows (g' : Graph) (came goes : NodeId → NodeId) (κ κ' : Config) : Prop where
  current : κ'.current = goes κ.current
  previous : κ'.previous = κ.previous.map came
  bindings : ∀ x, g'.contains x → κ'.bindings x = κ.bindings x

/-- What can be read in a configuration of the first graph is the same in one
of the second. -/
structure Carries (g g' : Graph) (arguments : List Value) (value came : NodeId → NodeId)
    (κ κ' : Config) : Prop where
  denotes : ∀ {q y v}, κ.previous = some q → g.Available q y → g'.Available (came q) (value y) →
    Denotes g arguments κ.bindings y v → Denotes g' arguments κ'.bindings (value y) v
  frames : ∀ {q s fs}, κ.previous = some q → g.StateAvailable q s →
    g'.StateAvailable (came q) (value s) →
    FramesAt g arguments κ.bindings s fs → FramesAt g' arguments κ'.bindings (value s) fs

section

variable {value came goes : NodeId → NodeId} {gone : NodeId → Prop}

variable (hg : g.Runnable) (hg' : g'.Runnable) (h : g.Mirrors g' value came goes gone)
    (hκ : Reach g arguments κ) (hκ' : Reach g' arguments κ') (hs : Shadows g' came goes κ κ')
    (hstay : ¬ gone κ.current) (hc : Carries g g' arguments value came κ κ')

include hg hg' h hκ hκ' hs hstay hc

/-- A node of the second graph reads there what it reads in the first. -/
theorem Shadows.reads {n : Node} (hn : g.node? κ.current = some n) (hk : n.kind.isFixed)
    (hstart : n.kind ≠ .start) :
    ∃ n' q, g'.node? κ'.current = some n' ∧ n'.kind = n.kind ∧ n'.inputs = n.inputs.map value ∧
      n'.state = n.state.map value ∧
      κ.previous = some q ∧ κ'.previous = some (came q) ∧ g.Reached q ∧ q ∈ n.control ∧
      (∀ y ∈ n.inputs, ∀ v, Denotes g arguments κ.bindings y v →
          Denotes g' arguments κ'.bindings (value y) v) ∧
      ∀ s ∈ n.state, ∀ fs, FramesAt g arguments κ.bindings s fs →
        FramesAt g' arguments κ'.bindings (value s) fs := by
  obtain ⟨n', hn', hk', hi, hst⟩ := h.node hn hk hκ.reached hstay
  have hcur : κ'.current = κ.current := hs.current.trans (h.stays hstay).1
  rw [← hcur] at hn'
  obtain ⟨q, hq, hrq, hfo, hmem⟩ := hκ.exists_previous hg hn hstart
  obtain ⟨q', hq', -, -, hmem'⟩ := hκ'.exists_previous hg' hn' (hk' ▸ hstart)
  have hprev : κ'.previous = some (came q) := by rw [hs.previous, hq]; rfl
  obtain rfl := Option.some.inj (hq'.symm.trans hprev)
  refine ⟨n', q, hn', hk', hi, hst, hq, hprev, hrq, hmem, fun y hy v hd => ?_,
    fun s hs' fs hf => ?_⟩
  · refine hc.denotes hq (hg.wired.inputs _ n q y hn hk hκ.reached hmem hy) ?_ hd
    exact hg'.wired.inputs _ n' _ _ hn' (hk' ▸ hk) hκ'.reached hmem'
      (by rw [hi]; exact List.mem_map_of_mem hy)
  · refine hc.frames hq (hg.wired.states _ n q s hn hk hκ.reached hmem hs') ?_ hf
    exact hg'.wired.states _ n' _ _ hn' (hk' ▸ hk) hκ'.reached hmem' (by rw [hst, hs']; rfl)

/-- What happens in a configuration of the first graph, apart from passing on,
happens in that of the second. -/
theorem Shadows.does {e : Effect} (hd : κ.Does g arguments e) (he : ∀ us, e ≠ .pass us) :
    κ'.Does g' arguments e := by
  have hget : ∀ {n n' : Node} {x : NodeId}, n'.inputs = n.inputs.map value → n.inputs[0]? = some x →
      n'.inputs[0]? = some (value x) := by
    intro n n' x hi hx
    rw [hi, List.getElem?_map, hx]
    rfl
  have hstate : ∀ {n n' : Node} {s : NodeId}, n'.state = n.state.map value → n.state = some s →
      n'.state = some (value s) := by
    intro n n' s hst hs
    rw [hst, hs]
    rfl
  cases hd with
  | step | merge | holds => exact absurd rfl (he _)
  | side hn hk hx hd =>
    obtain ⟨n', q, hn', hk', hi, -, -, -, -, -, hread, -⟩ :=
      hs.reads hg hg' h hκ hκ' hstay hc hn (by rw [hk]; rfl) (by simp [hk])
    exact .side hn' (hk'.trans hk) (hget hi hx) (hread _ (List.mem_of_getElem? hx) _ hd)
  | noCondition hn hk hx hd hv =>
    obtain ⟨n', q, hn', hk', hi, -, -, -, -, -, hread, -⟩ :=
      hs.reads hg hg' h hκ hκ' hstay hc hn (by rw [hk]; rfl) (by simp [hk])
    exact .noCondition hn' (hk'.trans hk) (hget hi hx) (hread _ (List.mem_of_getElem? hx) _ hd) hv
  | violated hn hk hx hd hv hst hf =>
    obtain ⟨n', q, hn', hk', hi, hst', -, -, -, -, hread, hframes⟩ :=
      hs.reads hg hg' h hκ hκ' hstay hc hn (by rw [hk]; rfl) (by simp [hk])
    exact .violated hn' (hk'.trans hk) (hget hi hx) (hread _ (List.mem_of_getElem? hx) _ hd) hv
      (hstate hst' hst) (hframes _ hst _ hf)
  | deoptimize hn hk hst hf =>
    obtain ⟨n', q, hn', hk', -, hst', -, -, -, -, -, hframes⟩ :=
      hs.reads hg hg' h hκ hκ' hstay hc hn (by rw [hk]; rfl) (by simp [hk])
    exact .deoptimize hn' (hk'.trans hk) (hstate hst' hst) (hframes _ hst _ hf)
  | ret hn hk hx hd =>
    obtain ⟨n', q, hn', hk', hi, -, -, -, -, -, hread, -⟩ :=
      hs.reads hg hg' h hκ hκ' hstay hc hn (by rw [hk]; rfl) (by simp [hk])
    exact .ret hn' (hk'.trans hk) (hget hi hx) (hread _ (List.mem_of_getElem? hx) _ hd)
  | call hn hk hd hst hf =>
    obtain ⟨n', q, hn', hk', hi, hst', -, -, -, -, hread, hframes⟩ :=
      hs.reads hg hg' h hκ hκ' hstay hc hn (by rw [hk]; rfl) (by simp [hk])
    refine .call hn' (hk'.trans hk) ?_ (hstate hst' hst) (hframes _ hst _ hf)
    rw [hi, List.forall₂_map_left_iff]
    refine List.forall₂_iff_get.2 ⟨hd.length_eq, fun i h1 h2 => ?_⟩
    exact hread _ (List.get_mem _ _) _ (hd.get h1 h2)

/-- What is passed on sets the same registers, as far as the second graph has
them. -/
theorem Shadows.passes {us : Values} (hd : κ.Does g arguments (.pass us)) :
    ∃ us', κ'.Does g' arguments (.pass us') ∧ ∀ x, g'.contains x → us'.lookup x = us.lookup x := by
  have hcur : κ'.current = κ.current := hs.current.trans (h.stays hstay).1
  cases hd with
  | @step n hn hk =>
    have hfix : n.kind.isFixed := by rcases hk with hk | hk | hk <;> rw [hk] <;> rfl
    obtain ⟨n', hn', hk', -, -⟩ := h.node hn hfix hκ.reached hstay
    exact ⟨[], .step (hcur ▸ hn') (hk' ▸ hk), fun _ _ => rfl⟩
  | holds hn hk hx hd hv =>
    obtain ⟨n', q, hn', hk', hi, -, -, -, -, -, hread, -⟩ :=
      hs.reads hg hg' h hκ hκ' hstay hc hn (by rw [hk]; rfl) (by simp [hk])
    refine ⟨[], .holds hn' (hk'.trans hk) ?_ (hread _ (List.mem_of_getElem? hx) _ hd) hv,
      fun _ _ => rfl⟩
    rw [hi, List.getElem?_map, hx]
    rfl
  | @merge n index _ hn hk hidx hu =>
    have hfix := NodeKind.isFixed_of_isMerge hk
    have hstart : n.kind ≠ .start := fun he => by rw [he] at hk; cases hk
    obtain ⟨n', q, hn', hk', -, -, hq, hq', hrq, hmem, -, -⟩ :=
      hs.reads hg hg' h hκ hκ' hstay hc hn hfix hstart
    rw [hq, Option.bind_some] at hidx
    have hat := getElem?_of_idxOf? hidx
    obtain ⟨index', hat', hinput⟩ := h.edge hn hk hκ.reached hstay (hcur ▸ hn') hrq hat
    have hmerge' : n'.kind.isMerge := hk' ▸ hk
    have hphi : ∀ x ∈ g'.phisOf κ'.current, ∃ v p' y', us.lookup x = some v ∧ g'.node? x = some p' ∧
        p'.inputs[index']? = some y' ∧ Denotes g' arguments κ'.bindings y' v := by
      intro x hx'
      obtain ⟨hx, -⟩ := (h.phis hκ.reached hstay).1 (hcur ▸ hx')
      obtain ⟨v, p, y, hl, hp, hy, hd⟩ := hu.lookup_of_mem (g.phisOf_nodup _) hx
      obtain ⟨p', hp', hkp', hcp'⟩ := mem_phisOf.1 hx'
      have hy' := hinput x p p' y hp hp' hx hy
      refine ⟨v, p', _, hl, hp', hy', hc.denotes hq ?_ ?_ hd⟩
      · obtain ⟨p₁, hp₁, hkp, hcp⟩ := mem_phisOf.1 hx
        obtain rfl := Option.some.inj (hp.symm.trans hp₁)
        obtain ⟨m, hm, hrest⟩ := hg.wired.phis x p hp hkp
        obtain rfl : m = κ.current := by simpa [hm] using hcp
        exact ((hrest n hn).2 hκ.reached).2 index q y hat hy
      · obtain ⟨m, hm, hrest⟩ := hg'.wired.phis x p' hp' hkp'
        obtain rfl : m = κ'.current := by simpa [hm] using hcp'
        exact ((hrest n' hn').2 hκ'.reached).2 index' _ _ hat' hy'
    have hall : ∃ us', UpdatesAt g' arguments κ'.bindings index' (g'.phisOf κ'.current) us' := by
      refine exists_updatesAt fun x hx => ?_
      obtain ⟨v, p', y', -, hp', hy', hd⟩ := hphi x hx
      exact ⟨p', y', v, hp', hy', hd⟩
    obtain ⟨us', hu'⟩ := hall
    refine ⟨us', .merge hn' hmerge' ?_ hu', fun x hx => ?_⟩
    · rw [hq', Option.bind_some]
      exact idxOf?_of_nodup (hg'.wired.distinct _ n' hn' (NodeKind.isFixed_of_isMerge hmerge')) hat'
    · by_cases hxm : x ∈ g'.phisOf κ'.current
      · obtain ⟨v, p', y', hl, hp', hy', hd⟩ := hphi x hxm
        obtain ⟨v', p'', y'', hl', hp'', hy'', hd'⟩ := hu'.lookup_of_mem (g'.phisOf_nodup _) hxm
        obtain rfl := Option.some.inj (hp'.symm.trans hp'')
        obtain rfl := Option.some.inj (hy'.symm.trans hy'')
        rw [hl, hl', hd.unique hd']
      · rw [hu'.lookup_of_notMem hxm,
          hu.lookup_of_notMem fun hxg => hxm (hcur ▸ (h.phis hκ.reached hstay).2 ⟨hxg, hx⟩)]

/-- A step of the first graph at a node that stays is a step of the second. -/
theorem Shadows.steps (hst : Steps g arguments κ l κ₁) :
    ∃ κ₁', Steps g' arguments κ' l κ₁' ∧ Shadows g' came goes κ₁ κ₁' := by
  obtain ⟨hgoes, hcame⟩ := h.stays hstay
  have hcur : κ'.current = κ.current := hs.current.trans hgoes
  have hprev : some κ'.current = (some κ.current).map came := by rw [hcur, Option.map_some, hcame]
  have hover : ∀ {us us' : Values}, (∀ x, g'.contains x → us'.lookup x = us.lookup x) →
      ∀ x, g'.contains x → κ'.bindings.overlay us' x = κ.bindings.overlay us x := by
    intro us us' hus x hx
    rw [Bindings.overlay, Bindings.overlay, hus x hx, hs.bindings x hx]
  cases hst with
  | pass hd hf =>
    obtain ⟨us', hd', hus⟩ := hs.passes hg hg' h hκ hκ' hstay hc hd
    exact ⟨_, .pass hd' (hcur ▸ (h.next hκ.reached hstay hf).1), rfl, hprev, hover hus⟩
  | @side taken next hd hf hk =>
    have hd' := hs.does hg hg' h hκ hκ' hstay hc hd (by simp)
    obtain ⟨hf', hside⟩ := h.next hκ.reached hstay hf
    exact ⟨_, .side hd' (hcur ▸ hf') (hside _ hk (by cases taken <;> rfl)), rfl, hprev, hs.bindings⟩
  | call v hd hf =>
    have hd' := hs.does hg hg' h hκ hκ' hstay hc hd (by simp)
    refine ⟨_, .call v hd' (hcur ▸ (h.next hκ.reached hstay hf).1), rfl, hprev, ?_⟩
    rw [hcur]
    exact hover fun _ _ => rfl

omit hg hg' h hκ hκ' hs hstay hc in
/-- Graphs that mirror each other run alike if values are carried over, and
nodes that are gone only passed control on. -/
theorem simulates_of_mirrors {left : NodeId → ℕ} (hg : g.Runnable) (hg' : g'.Runnable)
    (h : g.Mirrors g' value came goes gone) (hstart : ¬ gone Graph.start)
    (hcarry : ∀ {κ κ'}, Reach g arguments κ → Shadows g' came goes κ κ' →
        Carries g g' arguments value came κ κ')
    (hgone : ∀ {κ κ'}, Reach g arguments κ → Shadows g' came goes κ κ' → gone κ.current →
      (∀ x, ¬ Ends g arguments κ x) ∧
      ∀ l κ₁, Steps g arguments κ l κ₁ → l = .silent ∧ Shadows g' came goes κ₁ κ' ∧
        left κ₁.current < left κ.current) :
    Simulates g g' arguments (Shadows g' came goes) left where
  start := ⟨(h.stays hstart).1.symm, rfl, fun _ _ => rfl⟩
  ends {κ κ' x} hκ hκ' hs hends := by
    by_cases hstay : gone κ.current
    · exact absurd hends ((hgone hκ hs hstay).1 x)
    · cases hends with
      | fail hd => exact .fail (hs.does hg hg' h hκ hκ' hstay (hcarry hκ hs) hd (by simp))
      | finish hd => exact .finish (hs.does hg hg' h hκ hκ' hstay (hcarry hκ hs) hd (by simp))
  steps {κ κ' l κ₁} hκ hκ' hs hst := by
    by_cases hstay : gone κ.current
    · exact .inr ((hgone hκ hs hstay).2 l κ₁ hst)
    · exact .inl (hs.steps hg hg' h hκ hκ' hstay (hcarry hκ hs) hst)

end

end Code

end TieredEngine

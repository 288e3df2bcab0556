import TieredEngine.Proofs.Code.Certificates
import TieredEngine.Proofs.Graph.Wellformed
/-!
# Running code as an abstract machine

A configuration of the machine is where control is, where it came from, and
what the registers hold. `Steps` goes from one to the next and shows calls
with their answers, `Ends` is how the machine stops, and both are `Effects`
put in order. A graph is safe if no configuration that can come up is stuck
(`Safe`). `run_iff_runs` is that the machine of a safe graph does what running
code does, with the same number of steps.
-/

namespace TieredEngine

/-- What control gets to is put together well. -/
structure Graph.Runnable (g : Graph) : Prop where
  wired : g.Wired
  closed : g.OpenAt []

theorem Graph.Formed.runnable {g : Graph} (hf : g.Formed) : g.Runnable := ⟨hf.wired, hf.closed⟩

namespace Code

open TieredEngine.Graph

/-! ## The machine -/

/-- Where control is, where it came from, and what the registers hold. -/
structure Config where
  previous : Option NodeId
  current : NodeId
  bindings : Bindings

/-- The configuration at the start. -/
def Config.start : Config := ⟨none, Graph.start, fun _ => none⟩

/-- What a step shows: nothing, or a call with its answer and the frames that
would be handed over. -/
inductive Label where
  | silent
  | call (target : TargetId) (arguments : List Value) (frame : SuspendedFrame)
      (callers : List SuspendedFrame) (answer : Value)

section

variable (g : Graph) (arguments : List Value)

/-- What happens in a configuration. -/
def Config.Does (κ : Config) (e : Effect) : Prop :=
  Effects g arguments κ.bindings κ.previous κ.current e

/-- One step. -/
inductive Steps (κ : Config) : Label → Config → Prop
  | pass {us next} : κ.Does g arguments (.pass us) → g.Follows κ.current next →
    Steps κ .silent ⟨some κ.current, next, κ.bindings.overlay us⟩
  | side {taken next} : κ.Does g arguments (.side taken) → g.Follows κ.current next →
      g.kind? next = some (if taken then .onTrue else .onFalse) →
      Steps κ .silent ⟨some κ.current, next, κ.bindings⟩
  | call {target vs f callers next} (v : Value) : κ.Does g arguments (.call target vs f callers) →
      g.Follows κ.current next → Steps κ (.call target vs f callers v)
      ⟨some κ.current, next, κ.bindings.overlay [(κ.current, v)]⟩

/-- The machine stops. -/
inductive Ends (κ : Config) : Except GuestError Result → Prop
  | fail {e} : κ.Does g arguments (.fail e) → Ends κ (.error e)
  | finish {r} : κ.Does g arguments (.finish r) → Ends κ (.ok r)

/-- Configurations that can come up, whatever calls answer. -/
inductive Reach : Config → Prop
  | start : Reach .start
  | step {κ l κ'} : Reach κ → Steps g arguments κ l κ' → Reach κ'

/-- No configuration that can come up is stuck. -/
def Safe : Prop :=
  ∀ κ, Reach g arguments κ → (∃ r, Ends g arguments κ r) ∨ ∃ l κ', Steps g arguments κ l κ'

end

variable {g g' : Graph} {arguments : List Value} {κ κ₁ κ₂ : Config} {l l' : Label} {q m x : NodeId}
    {ρ ρ' : Bindings}

/-! ## One effect -/

theorem UpdatesAt.unique {index : ℕ} {phis : List NodeId} {us us' : Values}
    (h : UpdatesAt g arguments ρ index phis us) (h' : UpdatesAt g arguments ρ index phis us') :
    us = us' := by
  induction h generalizing us' with
  | nil =>
    cases h'
    rfl
  | cons h1 _ ih =>
    cases h' with
    | cons h2 h3 =>
      obtain ⟨hk, p, x, hp, hx, hd⟩ := h1
      obtain ⟨hk', p', x', hp', hx', hd'⟩ := h2
      obtain rfl := Option.some.inj (hp.symm.trans hp')
      obtain rfl := Option.some.inj (hx.symm.trans hx')
      rw [Prod.ext (hk.trans hk'.symm) (hd.unique hd'), ih h3]

/-- What happens at a node, by the kind of the node. -/
def EffectAt (g : Graph) (arguments : List Value) (ρ : Bindings) (previous : Option NodeId)
    (m : NodeId) (n : Node) (e : Effect) : Prop :=
  match n.kind with
  | .start | .onTrue | .onFalse => e = .pass []
  | .merge | .loopBegin => ∃ index us, (previous.bind fun p => n.control.idxOf? p) = some index ∧
      UpdatesAt g arguments ρ index (g.phisOf m) us ∧ e = .pass us
  | .branch => ∃ x v, n.inputs[0]? = some x ∧ Denotes g arguments ρ x v ∧
      e = match v.condition with
        | .ok b => .side b
        | .error e => .fail e
  | .guard check reason => ∃ x v, n.inputs[0]? = some x ∧ Denotes g arguments ρ x v ∧
      ((check.holds v ∧ e = .pass []) ∨ (check.holds v = false ∧ ∃ s f callers, n.state = some s ∧
        FramesAt g arguments ρ s (f :: callers) ∧ e = .finish (.deoptimized reason ⟨f, callers⟩)))
  | .deoptimize reason =>
    ∃ s f callers, n.state = some s ∧ FramesAt g arguments ρ s (f :: callers) ∧
      e = .finish (.deoptimized reason ⟨f, callers⟩)
  | .ret => ∃ x v, n.inputs[0]? = some x ∧ Denotes g arguments ρ x v ∧ e = .finish (.returned v)
  | .invoke target _ =>
    ∃ vs s f callers, List.Forall₂ (Denotes g arguments ρ) n.inputs vs ∧ n.state = some s ∧
      FramesAt g arguments ρ s (f :: callers) ∧ e = .call target vs f callers
  | .parameter _ | .constant _ | .binary _ | .unary _ | .phi | .frameState _ => False

theorem condition_eq_ok {v : Value} {b : Bool} : v.condition = .ok b ↔ v = .bool b := by
  cases v <;> simp [Value.condition]

theorem effects_iff {previous : Option NodeId} {n : Node} {e : Effect} (hn : g.node? m = some n) :
    Effects g arguments ρ previous m e ↔ EffectAt g arguments ρ previous m n e := by
  unfold EffectAt
  constructor
  · intro h
    cases h with
    | step hn' hk =>
      obtain rfl := Option.some.inj (hn.symm.trans hn')
      rcases hk with hk | hk | hk <;> rw [hk]
    | merge hn' hk hi hu =>
      obtain rfl := Option.some.inj (hn.symm.trans hn')
      rcases NodeKind.isMerge_iff.1 hk with hk | hk <;> rw [hk] <;> exact ⟨_, _, hi, hu, rfl⟩
    | side hn' hk hx hd =>
      obtain rfl := Option.some.inj (hn.symm.trans hn')
      rw [hk]
      exact ⟨_, _, hx, hd, rfl⟩
    | noCondition hn' hk hx hd he =>
      obtain rfl := Option.some.inj (hn.symm.trans hn')
      rw [hk]
      exact ⟨_, _, hx, hd, by rw [he]⟩
    | holds hn' hk hx hd hv =>
      obtain rfl := Option.some.inj (hn.symm.trans hn')
      rw [hk]
      exact ⟨_, _, hx, hd, .inl ⟨hv, rfl⟩⟩
    | violated hn' hk hx hd hv hs hf =>
      obtain rfl := Option.some.inj (hn.symm.trans hn')
      rw [hk]
      exact ⟨_, _, hx, hd, .inr ⟨hv, _, _, _, hs, hf, rfl⟩⟩
    | deoptimize hn' hk hs hf =>
      obtain rfl := Option.some.inj (hn.symm.trans hn')
      rw [hk]
      exact ⟨_, _, _, hs, hf, rfl⟩
    | ret hn' hk hx hd =>
      obtain rfl := Option.some.inj (hn.symm.trans hn')
      rw [hk]
      exact ⟨_, _, hx, hd, rfl⟩
    | call hn' hk hd hs hf =>
      obtain rfl := Option.some.inj (hn.symm.trans hn')
      rw [hk]
      exact ⟨_, _, _, _, hd, hs, hf, rfl⟩
  · cases hk : n.kind with
    | start | onTrue | onFalse =>
      rintro rfl
      exact .step hn (by simp [hk])
    | merge | loopBegin =>
      rintro ⟨index, us, hi, hu, rfl⟩
      exact .merge hn (by rw [hk]; rfl) hi hu
    | branch =>
      rintro ⟨x, v, hx, hd, he⟩
      cases hc : v.condition with
      | ok b =>
        rw [hc] at he
        exact he ▸ .side hn hk hx (condition_eq_ok.1 hc ▸ hd)
      | error err =>
        rw [hc] at he
        exact he ▸ .noCondition hn hk hx hd hc
    | guard check reason =>
      rintro ⟨x, v, hx, hd, ⟨hv, rfl⟩ | ⟨hv, s, f, callers, hs, hf, rfl⟩⟩
      · exact .holds hn hk hx hd hv
      · exact .violated hn hk hx hd hv hs hf
    | deoptimize reason =>
      rintro ⟨s, f, callers, hs, hf, rfl⟩
      exact .deoptimize hn hk hs hf
    | ret =>
      rintro ⟨x, v, hx, hd, rfl⟩
      exact .ret hn hk hx hd
    | invoke target site =>
      rintro ⟨vs, s, f, callers, hd, hs, hf, rfl⟩
      exact .call hn hk hd hs hf
    | parameter _ | constant _ | binary _ | unary _ | phi | frameState _ => exact False.elim

theorem Effects.exists_node {previous : Option NodeId} {e : Effect}
    (h : Effects g arguments ρ previous m e) :
    ∃ n, g.node? m = some n := by
  cases h <;> exact ⟨_, ‹_›⟩

/-- At one node there is one effect. -/
theorem Effects.unique {previous : Option NodeId} {e e' : Effect}
    (h : Effects g arguments ρ previous m e) (h' : Effects g arguments ρ previous m e') :
    e = e' := by
  obtain ⟨n, hn⟩ := h.exists_node
  rw [effects_iff hn, EffectAt] at h h'
  have hstate : ∀ {s s' : NodeId} {f f' : SuspendedFrame} {callers callers' : List SuspendedFrame},
      n.state = some s → n.state = some s' → FramesAt g arguments ρ s (f :: callers) →
      FramesAt g arguments ρ s' (f' :: callers') → f = f' ∧ callers = callers' := by
    intro s s' f f' callers callers' hs hs' hf hf'
    obtain rfl := Option.some.inj (hs.symm.trans hs')
    exact List.cons.inj (hf.unique hf')
  have hinput : ∀ {x x' : NodeId} {v v' : Value}, n.inputs[0]? = some x → n.inputs[0]? = some x' →
      Denotes g arguments ρ x v → Denotes g arguments ρ x' v' → v = v' := by
    intro x x' v v' hx hx' hd hd'
    obtain rfl := Option.some.inj (hx.symm.trans hx')
    exact hd.unique hd'
  cases hk : n.kind with
  | start | onTrue | onFalse =>
    rw [hk] at h h'
    rw [h, h']
  | merge | loopBegin =>
    rw [hk] at h h'
    obtain ⟨index, us, hi, hu, rfl⟩ := h
    obtain ⟨index', us', hi', hu', rfl⟩ := h'
    obtain rfl := Option.some.inj (hi.symm.trans hi')
    rw [hu.unique hu']
  | branch =>
    rw [hk] at h h'
    obtain ⟨x, v, hx, hd, rfl⟩ := h
    obtain ⟨x', v', hx', hd', rfl⟩ := h'
    rw [hinput hx hx' hd hd']
  | guard check reason =>
    rw [hk] at h h'
    obtain ⟨x, v, hx, hd, h⟩ := h
    obtain ⟨x', v', hx', hd', h'⟩ := h'
    rw [← hinput hx hx' hd hd'] at h'
    rcases h with ⟨hv, rfl⟩ | ⟨hv, s, f, callers, hs, hf, rfl⟩ <;>
      rcases h' with ⟨hv', rfl⟩ | ⟨hv', s', f', callers', hs', hf', rfl⟩
    · rfl
    · simp [hv] at hv'
    · simp [hv] at hv'
    · obtain ⟨rfl, rfl⟩ := hstate hs hs' hf hf'
      rfl
  | deoptimize reason =>
    rw [hk] at h h'
    obtain ⟨s, f, callers, hs, hf, rfl⟩ := h
    obtain ⟨s', f', callers', hs', hf', rfl⟩ := h'
    obtain ⟨rfl, rfl⟩ := hstate hs hs' hf hf'
    rfl
  | ret =>
    rw [hk] at h h'
    obtain ⟨x, v, hx, hd, rfl⟩ := h
    obtain ⟨x', v', hx', hd', rfl⟩ := h'
    rw [hinput hx hx' hd hd']
  | invoke target site =>
    rw [hk] at h h'
    obtain ⟨vs, s, f, callers, hd, hs, hf, rfl⟩ := h
    obtain ⟨vs', s', f', callers', hd', hs', hf', rfl⟩ := h'
    obtain ⟨rfl, rfl⟩ := hstate hs hs' hf hf'
    rw [Forall₂.denotes_unique hd hd']
  | parameter _ | constant _ | binary _ | unary _ | phi | frameState _ =>
    rw [hk] at h
    exact h.elim

/-! ## Steps -/

theorem Steps.edge (h : Steps g arguments κ l κ₁) :
    κ₁.previous = some κ.current ∧ g.Follows κ.current κ₁.current := by
  cases h with
  | pass _ hf | side _ hf | call _ _ hf => exact ⟨rfl, hf⟩

/-- A step only sets the registers of the node that is passed. -/
theorem Steps.bindings_eq (h : Steps g arguments κ l κ₁) (hx : ¬ Owns g κ.current x) :
    κ₁.bindings x = κ.bindings x := by
  have hoverlay : ∀ {us : Values}, x ∉ us.map Prod.fst →
      κ.bindings.overlay us x = κ.bindings x := by
    intro us hnot
    cases hl : us.lookup x with
    | none => rw [Bindings.overlay, hl, Option.none_or]
    | some v => exact absurd (List.mem_map.2 ⟨(x, v), mem_of_lookup hl, rfl⟩) hnot
  cases h with
  | pass hd => exact hoverlay fun hmem => hx (hd.pass_keys.2 x hmem)
  | side => rfl
  | call v hd =>
    refine hoverlay fun hmem => hx ?_
    obtain rfl : x = κ.current := by simpa using hmem
    cases hd with
    | call hn hk => exact .inr ⟨rfl, by simp [kind?, hn, hk, NodeKind.isInvoke]⟩

theorem Effects.isOpen_of_pass {previous : Option NodeId} {us : Values}
    (h : Effects g arguments ρ previous m (.pass us)) :
    ∃ n, g.node? m = some n ∧ n.kind.isOpen := by
  cases h with
  | step hn hk => exact ⟨_, hn, by rcases hk with hk | hk | hk <;> rw [hk] <;> rfl⟩
  | merge hn hk =>
    exact ⟨_, hn, by rcases NodeKind.isMerge_iff.1 hk with hk | hk <;> rw [hk] <;> rfl⟩
  | holds hn hk => exact ⟨_, hn, by rw [hk]; rfl⟩

theorem Effects.isOpen_of_call {previous : Option NodeId} {target : TargetId} {vs : List Value}
    {f : SuspendedFrame} {callers : List SuspendedFrame}
    (h : Effects g arguments ρ previous m (.call target vs f callers)) :
    ∃ n, g.node? m = some n ∧ n.kind.isOpen := by
  cases h with
  | call hn hk => exact ⟨_, hn, by rw [hk]; rfl⟩

theorem Effects.branch_of_side {previous : Option NodeId} {taken : Bool}
    (h : Effects g arguments ρ previous m (.side taken)) :
    ∃ n, g.node? m = some n ∧ n.kind = .branch := by
  cases h with
  | side hn hk => exact ⟨_, hn, hk⟩

/-! ## Where control goes -/

section

variable (hg : g.Runnable)

include hg

theorem exists_next {n : Node} (hr : g.Reached m) (hn : g.node? m = some n) (hk : n.kind.isOpen) :
    ∃ s, ∀ s', g.Follows m s' ↔ s' = s :=
  (hg.closed.goesOn m n hn (NodeKind.isOpen_iff.1 hk).1 hr (by simp)).single hk

theorem exists_sides {n : Node} (hr : g.Reached m) (hn : g.node? m = some n)
    (hk : n.kind = .branch) :
    ∃ a b, g.kind? a = some .onTrue ∧ g.kind? b = some .onFalse ∧ ∀ s, g.Follows m s ↔
      s = a ∨ s = b := by
  have hgo := hg.closed.goesOn m n hn (by rw [hk]; rfl) hr (by simp)
  rw [hk] at hgo
  exact hgo

/-- What happens in a configuration ends the run or leads on. -/
theorem Config.Does.goesOn {e : Effect} (h : κ.Does g arguments e) (hr : g.Reached κ.current) :
    (∃ r, Ends g arguments κ r) ∨ ∃ l κ₁, Steps g arguments κ l κ₁ := by
  cases e with
  | fail e => exact .inl ⟨_, .fail h⟩
  | finish r => exact .inl ⟨_, .finish h⟩
  | pass us =>
    obtain ⟨n, hn, hk⟩ := Effects.isOpen_of_pass h
    obtain ⟨s, hs⟩ := exists_next hg hr hn hk
    exact .inr ⟨_, _, .pass h ((hs s).2 rfl)⟩
  | call target vs f callers =>
    obtain ⟨n, hn, hk⟩ := Effects.isOpen_of_call h
    obtain ⟨s, hs⟩ := exists_next hg hr hn hk
    exact .inr ⟨_, _, .call .null h ((hs s).2 rfl)⟩
  | side taken =>
    obtain ⟨n, hn, hk⟩ := Effects.branch_of_side h
    obtain ⟨a, b, ha, hb, hab⟩ := exists_sides hg hr hn hk
    cases taken with
    | true => exact .inr ⟨_, _, .side h ((hab a).2 (.inl rfl)) ha⟩
    | false => exact .inr ⟨_, _, .side h ((hab b).2 (.inr rfl)) hb⟩

omit hg in
/-- A run that ends does not go on. -/
theorem Ends.not_steps {r : Except GuestError Result} (h : Ends g arguments κ r) :
    ¬ Steps g arguments κ l κ₁ := by
  intro hs
  cases h with
  | fail hd | finish hd =>
    cases hs with
    | pass hd' | side hd' | call _ hd' => cases Effects.unique hd hd'

omit hg in
theorem Ends.unique {r r' : Except GuestError Result} (h : Ends g arguments κ r)
    (h' : Ends g arguments κ r') : r = r' := by
  cases h with
  | fail hd | finish hd =>
    cases h' with
    | fail hd' | finish hd' =>
      cases Effects.unique hd hd'
      try rfl

/-- Silent steps are determined. -/
theorem Steps.silent_unique (hr : g.Reached κ.current) (h : Steps g arguments κ .silent κ₁)
    (h' : Steps g arguments κ l κ₂) :
    l = .silent ∧ κ₁ = κ₂ := by
  cases h with
  | pass hd hf =>
    cases h' with
    | pass hd' hf' =>
      cases Effects.unique hd hd'
      obtain ⟨n, hn, hk⟩ := hd.isOpen_of_pass
      obtain ⟨s, hs⟩ := exists_next hg hr hn hk
      rw [(hs _).1 hf, (hs _).1 hf']
      exact ⟨rfl, rfl⟩
    | side hd' | call _ hd' => cases Effects.unique hd hd'
  | @side _ a hd hf hk =>
    cases h' with
    | @side _ b hd' hf' hk' =>
      cases Effects.unique hd hd'
      obtain ⟨n, hn, hkind⟩ := hd.branch_of_side
      obtain ⟨x, y, hx, hy, hxy⟩ := exists_sides hg hr hn hkind
      have hab : a = b := by
        rcases (hxy a).1 hf with rfl | rfl <;> rcases (hxy b).1 hf' with rfl | rfl
        · rfl
        · exact absurd (hx.symm.trans (hk.trans (hk'.symm.trans hy))) (by simp)
        · exact absurd (hy.symm.trans (hk.trans (hk'.symm.trans hx))) (by simp)
        · rfl
      rw [hab]
      exact ⟨rfl, rfl⟩
    | pass hd' | call _ hd' => cases Effects.unique hd hd'

/-- Calls are determined, and so is what follows one answer. -/
theorem Steps.call_unique {target : TargetId} {vs : List Value} {f : SuspendedFrame}
    {callers : List SuspendedFrame} {v : Value} (hr : g.Reached κ.current)
    (h : Steps g arguments κ (.call target vs f callers v) κ₁) (h' : Steps g arguments κ l κ₂) :
    ∃ v', l = .call target vs f callers v' ∧ (v' = v → κ₁ = κ₂) := by
  cases h with
  | call v hd hf =>
    cases h' with
    | call v' hd' hf' =>
      cases Effects.unique hd hd'
      obtain ⟨n, hn, hk⟩ := hd.isOpen_of_call
      obtain ⟨s, hs⟩ := exists_next hg hr hn hk
      refine ⟨v', rfl, fun he => ?_⟩
      rw [(hs _).1 hf, (hs _).1 hf', he]
    | pass hd' | side hd' => cases Effects.unique hd hd'

omit hg in
/-- A call may have any answer. -/
theorem Steps.answer {target : TargetId} {vs : List Value} {f : SuspendedFrame}
    {callers : List SuspendedFrame} {v : Value}
    (h : Steps g arguments κ (.call target vs f callers v) κ₁) (v' : Value) :
    Steps g arguments κ (.call target vs f callers v')
      ⟨some κ.current, κ₁.current, κ.bindings.overlay [(κ.current, v')]⟩ := by
  cases h with
  | call _ hd hf => exact .call v' hd hf

/-! ## Configurations that come up -/

omit hg in
/-- Control is at the start, or at the end of an edge that it came over. -/
theorem Reach.at_edge (h : Reach g arguments κ) :
    κ = .start ∨ ∃ q, κ.previous = some q ∧ g.Reached q ∧ g.Follows q κ.current := by
  induction h with
  | start => exact .inl rfl
  | @step κ l κ₁ _ hs ih =>
    obtain ⟨h1, h2⟩ := hs.edge
    refine .inr ⟨κ.current, h1, ?_, h2⟩
    rcases ih with rfl | ⟨q, -, hq, hf⟩
    · exact ⟨[], .start⟩
    · exact hq.step hf

omit hg in
theorem Reach.reached (h : Reach g arguments κ) : g.Reached κ.current := by
  rcases h.at_edge with rfl | ⟨q, -, hq, hf⟩
  · exact ⟨[], .start⟩
  · exact hq.step hf

/-- Where a node reads, control came over an edge. -/
theorem Reach.exists_previous {n : Node} (h : Reach g arguments κ) (hn : g.node? κ.current = some n)
    (hk : n.kind ≠ .start) :
    ∃ q, κ.previous = some q ∧ g.Reached q ∧ g.Follows q κ.current ∧ q ∈ n.control := by
  rcases h.at_edge with rfl | ⟨q, h1, h2, h3⟩
  · exact absurd (kind?_of_node? hn hg.wired.start) hk
  · obtain ⟨n', hn', -, hq⟩ := id h3
    obtain rfl := Option.some.inj (hn.symm.trans hn')
    exact ⟨q, h1, h2, h3, hq⟩

end

end Code

end TieredEngine

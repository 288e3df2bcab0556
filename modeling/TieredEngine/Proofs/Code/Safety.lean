import TieredEngine.Proofs.Code.Machine
/-!
# Certified graphs are safe

If every control edge of a graph satisfies its condition, no configuration of
its machine is stuck (`safe_of_edges`), and where the machine gives up, it may
do so for its reason (`justified_of_edges`). The machine keeps the values of
all registers that were ever set, the certificate speaks about those on the
trail, which are some of them.
-/

namespace TieredEngine

theorem Bindings.Le.overlay {ρ ρ' : Bindings} (h : ρ.Le ρ') (us : Code.Values) :
    (ρ.overlay us).Le (ρ'.overlay us) := by
  intro x v hx
  rw [Bindings.overlay] at hx ⊢
  cases hl : us.lookup x with
  | some u => rwa [hl] at hx
  | none =>
    rw [hl, Option.none_or] at hx
    rw [Option.none_or]
    exact h x v hx

namespace Code

open TieredEngine.Graph

variable {g : Graph} {arguments : List Value} {M : Meaning} {P : NodeId → Point} {κ : Config}
    {ρ ρ' : Bindings}

/-- More registers do not change what happens. -/
theorem Effects.mono {previous : Option NodeId} {m : NodeId} {e : Effect}
    (h : Effects g arguments ρ previous m e) (hρ : ρ.Le ρ') :
    Effects g arguments ρ' previous m e := by
  cases h with
  | step hn hk => exact .step hn hk
  | merge hn hk hi hu =>
    refine .merge hn hk hi (hu.imp fun x u hx => ?_)
    obtain ⟨h1, p, y, h2, h3, h4⟩ := hx
    exact ⟨h1, p, y, h2, h3, h4.mono hρ⟩
  | side hn hk hx hd => exact .side hn hk hx (hd.mono hρ)
  | noCondition hn hk hx hd hv => exact .noCondition hn hk hx (hd.mono hρ) hv
  | holds hn hk hx hd hv => exact .holds hn hk hx (hd.mono hρ) hv
  | violated hn hk hx hd hv hs hf => exact .violated hn hk hx (hd.mono hρ) hv hs (hf.mono hρ)
  | deoptimize hn hk hs hf => exact .deoptimize hn hk hs (hf.mono hρ)
  | ret hn hk hx hd => exact .ret hn hk hx (hd.mono hρ)
  | call hn hk hd hs hf => exact .call hn hk (hd.imp fun _ _ h => h.mono hρ) hs (hf.mono hρ)

/-- The configuration is at the start, or on an edge with a trail that the
certificate knows. -/
def Traced (g : Graph) (arguments : List Value) (P : NodeId → Point) (κ : Config) : Prop :=
  κ = .start ∨ ∃ q t ρ, κ.previous = some q ∧ Stands g arguments P t q κ.current ρ ∧ ρ.Le κ.bindings

/-- Only a branch has sides. -/
theorem sideTaken_of_isOpen {m next : NodeId} {n : Node} (hn : g.node? m = some n)
    (hk : n.kind.isOpen) (ρ : Bindings) :
    SideTaken g arguments ρ m next := by
  intro n' x hn' hb
  obtain rfl := Option.some.inj (hn.symm.trans hn')
  exact absurd hb (NodeKind.isOpen_iff.1 hk).2.2

section

variable (hf : g.Flows) (hgood : (P Graph.start).good fun _ => none) (hedge : ∀ q m n,
      g.node? m = some n → n.kind.isFixed → q ∈ n.control → EdgeOk g arguments M P q m)

include hf

theorem does_start : Config.start.Does g arguments (.pass []) := by
  obtain ⟨n, hn, hk⟩ := hf.start
  exact .step hn (.inl hk)

include hgood hedge

/-- A step leads on from what the certificate knows. -/
theorem Traced.step {l : Label} {κ₁ : Config} (h : Traced g arguments P κ)
    (hs : Steps g arguments κ l κ₁) :
    Traced g arguments P κ₁ := by
  have hnext : κ₁.current ∈ g.successors κ.current := follows_iff_mem_successors.1 hs.edge.2
  rcases h with rfl | ⟨q, t, ρ, hq, h, hρ⟩
  · have hd : Config.start.Does g arguments (.pass []) := does_start hf
    cases hs with
    | side hd' | call _ hd' => cases Effects.unique hd hd'
    | pass hd' =>
      cases Effects.unique hd hd'
      obtain ⟨n, hn, hk⟩ := Effects.isOpen_of_pass hd
      refine .inr ⟨Graph.start, [], fun _ => none, rfl,
        ⟨.start, by simpa using hgood, hnext, sideTaken_of_isOpen hn hk _⟩, ?_⟩
      exact fun _ _ h => by cases h
  obtain ⟨n, e, ρ₀, s, effect, hv, heff, hleads⟩ := h.effect hf hedge
  have hle : ρ₀.Le κ.bindings := (h.ok.le_of_suffix hv.suffix).trans hρ
  have hd : κ.Does g arguments effect := by
    rw [Config.Does, hq]
    exact heff.mono hρ
  cases hs with
  | @pass us next hd' =>
    cases Effects.unique hd hd'
    obtain ⟨n', hn', hk⟩ := Effects.isOpen_of_pass hd
    obtain ⟨hnd, hown⟩ := Effects.pass_keys hd
    obtain ⟨hgood', -⟩ :=
      hleads (ρ₀.overlay us) (h.le_overlay hv hown) fun u hu => Bindings.overlay_of_mem hnd hu ρ₀
    exact .inr ⟨κ.current, _, _, rfl,
      h.pass hv hown hgood' hnext (sideTaken_of_isOpen hn' hk _), hle.overlay us⟩
  | @side taken next hd' hfo hk =>
    cases Effects.unique hd hd'
    obtain ⟨hgood', -⟩ := hleads
    have hside : SideTaken g arguments ρ₀ κ.current next := by
      cases heff with
      | @side _ x _ hn' hb hinp hden =>
        obtain rfl := Option.some.inj (hv.node.symm.trans hn')
        obtain ⟨-, -, rfl, -⟩ := hv.forward (by simp [hb])
        intro n' x' hn' _ hx'
        obtain rfl := Option.some.inj (hv.node.symm.trans hn')
        obtain rfl := Option.some.inj (hinp.symm.trans hx')
        cases taken with
        | true => exact ⟨fun _ => hden, fun hk' => by simp [hk] at hk'⟩
        | false => exact ⟨fun hk' => by simp [hk] at hk', fun _ => hden⟩
    rw [← overlay_nil ρ₀] at hgood' hside
    refine .inr ⟨κ.current, _, _, rfl, h.pass hv (by simp) hgood' hnext hside, ?_⟩
    rwa [overlay_nil]
  | call v hd' =>
    cases Effects.unique hd hd'
    obtain ⟨hgood', -⟩ := hleads
    obtain ⟨n', hn', hk⟩ := Effects.isOpen_of_call hd
    have hown : ∀ x ∈ [(κ.current, v)].map Prod.fst, Owns g κ.current x := by
      intro x hmem
      obtain rfl : x = κ.current := by simpa using hmem
      cases heff with
      | call hn' hk' => exact .inr ⟨rfl, by simp [kind?, hn', hk', NodeKind.isInvoke]⟩
    exact .inr ⟨κ.current, _, _, rfl, h.pass hv hown (hgood' v _ (h.le_overlay hv hown)
      (by simp [Bindings.overlay])) hnext (sideTaken_of_isOpen hn' hk _), hle.overlay _⟩

/-- The certificate knows every configuration that can come up. -/
theorem traced_of_reach (hκ : Reach g arguments κ) : Traced g arguments P κ := by
  induction hκ with
  | start => exact .inl rfl
  | step _ hs ih => exact ih.step hf hgood hedge hs

/-- If every control edge satisfies its condition, the machine is never
stuck. -/
theorem safe_of_edges (hg : g.Runnable) : Safe g arguments := by
  intro κ hκ
  rcases traced_of_reach hf hgood hedge hκ with rfl | ⟨q, t, ρ, hq, h, hρ⟩
  · exact (does_start hf).goesOn hg hκ.reached
  · obtain ⟨n, e, ρ₀, s, effect, -, heff, -⟩ := h.effect hf hedge
    have hd : κ.Does g arguments effect := by
      rw [Config.Does, hq]
      exact heff.mono hρ
    exact hd.goesOn hg hκ.reached

/-- If every control edge satisfies its condition, the machine gives up only
in frames in which it may. -/
theorem justified_of_edges (hκ : Reach g arguments κ) {reason : DeoptReason} {snapshot : Snapshot}
    (he : Ends g arguments κ (.ok (.deoptimized reason snapshot))) :
    M.justifies reason snapshot.innermost := by
  cases he with
  | finish hd =>
    rcases traced_of_reach hf hgood hedge hκ with rfl | ⟨q, t, ρ, hq, h, hρ⟩
    · cases Effects.unique (does_start hf) hd
    · obtain ⟨n, e, ρ₀, s, effect, -, heff, hleads⟩ := h.effect hf hedge
      rw [Config.Does, hq] at hd
      cases Effects.unique (heff.mono hρ) hd
      exact hleads.1

end

end Code

end TieredEngine

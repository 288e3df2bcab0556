import TieredEngine.Proofs.Code.Trails
/-!
# Certificates

A certificate says for every node of the control chain what holds right behind
it: which registers have to be readable, and how the computation ends that is
left there. `EdgeOk` is the local condition for one control edge. If every
edge satisfies it, a run of the code ends the way the certificate promises at
the start: `run_of_edges`.

How a computation ends is told with a count of the conditionals and loop tests
that were made, so that the code's loops end too: between two visits of a loop
header at least one test was made.
-/

namespace TieredEngine

open Filter (atTop eventually_ge_atTop)

/-- The count at the end. -/
def Outcome.final {ε α : Type} : Outcome ε ℕ α → ℕ
  | .done _ n | .stop _ n => n
  | .exhausted => 0

namespace Code

/-- What holds right behind a node. -/
structure Point where
  /-- The registers that can be read are enough. -/
  good : Bindings → Prop
  /-- From a count on, the computation that is left ends so. -/
  ends : Bindings → ℕ → Outcome GuestError ℕ Value → Prop
  /-- In how many loop bodies the node is. -/
  depth : ℕ

/-- What calls do, how suspended frames end, and in which frames code may give
up for a reason. -/
structure Meaning where
  call : TargetId → List Value → Comp GuestError ℕ Value
  resumes : SuspendedFrame → List SuspendedFrame → ℕ → Outcome GuestError ℕ Value → Prop
  justifies : DeoptReason → SuspendedFrame → Prop

/-- From one point to the next, how the computation ends stays the same, and
`turns` loops are started over. -/
def Point.Continues (A B : Point) (turns : ℕ) (ρ ρ' : Bindings) : Prop :=
  B.good ρ' ∧ ∀ w o, A.ends ρ w o → ∃ w', B.ends ρ' w' o ∧ w + B.depth + turns ≤ w' + A.depth

/-- What an effect has to do with the points before and behind a node `m`. -/
def Leads (M : Meaning) (A B : Point) (m : NodeId) (turns : ℕ) (ρ₀ ρ : Bindings) : Effect → Prop
  | .pass us => ∀ ρ', ρ₀.Le ρ' → (∀ u ∈ us, ρ' u.1 = some u.2) → A.Continues B turns ρ ρ'
  | .side _ => A.Continues B turns ρ ρ₀
  | .fail e => ∀ w o, A.ends ρ w o → ∃ w', o = .stop e w'
  | .finish (.returned v) => ∀ w o, A.ends ρ w o → ∃ w', o = .done v w'
  | .finish (.deoptimized reason s) =>
    M.justifies reason s.innermost ∧
      ∀ w o, A.ends ρ w o → ∃ w', M.resumes s.innermost s.callers w' o
  | .call target vs f callers =>
    (∀ v ρ', ρ₀.Le ρ' → ρ' m = some v → B.good ρ') ∧ ∀ w o, A.ends ρ w o → ∃ w₁,
      match M.call target vs w₁ with
      | .done v w' => M.resumes (f.push v) callers w' o ∧ ∀ ρ', ρ₀.Le ρ' → ρ' m = some v →
          B.ends ρ' w' o ∧ w + B.depth + turns ≤ w' + A.depth
      | .stop e w' => o = .stop e w'
      | .exhausted => False

theorem Point.Continues.trans {A B C : Point} {k j : ℕ} {ρ ρ' ρ'' : Bindings}
    (h : A.Continues B k ρ ρ') (h' : B.Continues C j ρ' ρ'') : A.Continues C (k + j) ρ ρ'' := by
  refine ⟨h'.1, fun w o hw => ?_⟩
  obtain ⟨w₁, hw₁, hle⟩ := h.2 w o hw
  obtain ⟨w₂, hw₂, hle'⟩ := h'.2 w₁ o hw₁
  exact ⟨w₂, hw₂, by omega⟩

/-- Before the point where an effect is known there may be one that continues
to it. -/
theorem Leads.of_continues {M : Meaning} {A B C : Point} {m : NodeId} {k : ℕ} {ρ₀ ρ : Bindings}
    {effect : Effect} (h : Leads M B C m k ρ₀ ρ effect) (hA : A.Continues B 0 ρ ρ) :
    Leads M A C m k ρ₀ ρ effect := by
  cases effect with
  | pass us => exact fun ρ' hle hu => Nat.zero_add k ▸ hA.trans (h ρ' hle hu)
  | side taken => exact (Nat.zero_add k ▸ hA.trans h : A.Continues C k ρ ρ₀)
  | fail e =>
    intro w o hw
    obtain ⟨w₁, hw₁, -⟩ := hA.2 w o hw
    exact h w₁ o hw₁
  | finish result =>
    cases result with
    | returned v =>
      intro w o hw
      obtain ⟨w₁, hw₁, -⟩ := hA.2 w o hw
      exact h w₁ o hw₁
    | deoptimized reason s =>
      refine ⟨h.1, fun w o hw => ?_⟩
      obtain ⟨w₁, hw₁, -⟩ := hA.2 w o hw
      exact h.2 w₁ o hw₁
  | call target vs f callers =>
    refine ⟨h.1, fun w o hw => ?_⟩
    obtain ⟨w₁, hw₁, hle⟩ := hA.2 w o hw
    obtain ⟨w₂, hw₂⟩ := h.2 w₁ o hw₁
    refine ⟨w₂, ?_⟩
    revert hw₂
    cases M.call target vs w₂ with
    | exhausted => exact fun h => h
    | stop e w' => exact fun h => h
    | done v w' =>
      rintro ⟨hr, hb⟩
      refine ⟨hr, fun ρ' h1 h2 => ?_⟩
      obtain ⟨hB, hle'⟩ := hb ρ' h1 h2
      exact ⟨hB, by omega⟩

section

variable (g : Graph) (arguments : List Value)

/-- Behind a branch, the condition is known on each side. -/
def SideTaken (ρ : Bindings) (q m : NodeId) : Prop :=
  ∀ n x, g.node? q = some n → n.kind = .branch → n.inputs[0]? = some x →
    (g.kind? m = some .onTrue → Denotes g arguments ρ x (.bool true)) ∧
      (g.kind? m = some .onFalse → Denotes g arguments ρ x (.bool false))

/-- The condition for the control edge from `q` to `m`. An edge back to a loop
header also has what held where the loop was entered. -/
def EdgeOk (M : Meaning) (P : NodeId → Point) (q m : NodeId) : Prop :=
  ∀ ρ₀ ρ, (q < m → ρ₀ = ρ) →
    (m ≤ q → ρ₀.Le ρ ∧ ∀ n e, g.node? m = some n → n.control.head? = some e → (P e).good ρ₀) →
    (P q).good ρ → SideTaken g arguments ρ q m → ∃ effect, Effects g arguments ρ (some q) m effect ∧
      Leads M (P q) (P m) m (if q < m then 0 else 1) ρ₀ ρ effect

variable {g arguments} in
/-- The condition for an edge is about the points at its two ends and where a
loop is entered. -/
theorem EdgeOk.congr {M : Meaning} {P P' : NodeId → Point} {q m : NodeId}
    (h : EdgeOk g arguments M P q m) (hq : P' q = P q) (hm : P' m = P m)
    (he : ∀ n e, g.node? m = some n → n.control.head? = some e → P' e = P e) :
    EdgeOk g arguments M P' q m := by
  intro ρ₀ ρ hfwd hback hgood hside
  rw [hq] at hgood ⊢
  rw [hm]
  refine h ρ₀ ρ hfwd (fun hle => ?_) hgood hside
  obtain ⟨h1, h2⟩ := hback hle
  exact ⟨h1, fun n e hn hhead => he n e hn hhead ▸ h2 n e hn hhead⟩

/-- Control is on its way from `q` to `m`, with the trail that led there. -/
structure Stands (P : NodeId → Point) (t : Trail) (q m : NodeId) (ρ : Bindings) : Prop where
  ok : Trail.Ok g ((q, ρ) :: t)
  good : ∀ e ∈ (q, ρ) :: t, (P e.1).good e.2
  edge : m ∈ g.successors q
  side : SideTaken g arguments ρ q m

/-- A place in a run, with what the registers hold. -/
structure Place (P : NodeId → Point) (t : Trail) (q m : NodeId) (ρ : Bindings) (r : Registers) :
    Prop extends Stands g arguments P t q m ρ where
  coherent : Coherent g arguments r
  le : ρ.Le r.bindings

end

/-- A run ends as promised. -/
def Answers {τ : Type} (J : τ → Prop) (M : Meaning) (o : Outcome GuestError ℕ Value) :
    Outcome GuestError τ Result → Prop
  | .done (.returned v) s => J s ∧ ∃ w, o = .done v w
  | .done (.deoptimized _ snapshot) s =>
    J s ∧ ∃ w, M.resumes snapshot.innermost snapshot.callers w o
  | .stop e s => J s ∧ ∃ w, o = .stop e w
  | .exhausted => False

/-- An outcome without the registers. -/
def outcomeOf {τ : Type} : Outcome GuestError (Activation τ) Result → Outcome GuestError τ Result
  | .done r a => .done r a.world
  | .stop e a => .stop e a.world
  | .exhausted => .exhausted

/-! ## Runs step by step -/

section

variable {σ : Type} {host : Host σ} {c : Code} {arguments : List Value} {position : Position}
    {a a' : Activation σ}

theorem runFrom_go {next : Position} (h : step host c arguments position a = .done (.go next) a')
    (k : ℕ) :
    runFrom host c arguments (k + 1) position a = runFrom host c arguments k next a' := by
  rw [runFrom, h]

theorem runFrom_finish {result : Result}
    (h : step host c arguments position a = .done (.finish result) a') {k : ℕ} (hk : 1 ≤ k) :
    runFrom host c arguments k position a = .done result a' := by
  obtain ⟨k, rfl⟩ := Nat.exists_eq_succ_of_ne_zero (Nat.one_le_iff_ne_zero.1 hk)
  rw [runFrom, h]

theorem runFrom_stop {e : GuestError} (h : step host c arguments position a = .stop e a') {k : ℕ}
    (hk : 1 ≤ k) :
    runFrom host c arguments k position a = .stop e a' := by
  obtain ⟨k, rfl⟩ := Nat.exists_eq_succ_of_ne_zero (Nat.one_le_iff_ne_zero.1 hk)
  rw [runFrom, h]

end

theorem bindings_le_setAll {ρ₀ ρ : Bindings} {r : Registers} {us : Values}
    (hn : (us.map Prod.fst).Nodup) (h₀ : ρ₀.Le ρ) (hρ : ρ.Le r.bindings) {r' : Registers}
    (hr : r'.values = r.values.setAll us) :
    (ρ₀.overlay us).Le r'.bindings := by
  intro x v hx
  rw [Registers.bindings, hr]
  rcases Option.or_eq_some_iff.1 hx with h | ⟨hnone, h⟩
  · exact Values.lookup_setAll_of_mem hn (mem_of_lookup h) _
  · have hnot : x ∉ us.map Prod.fst := by
      intro hmem
      obtain ⟨u, hu, rfl⟩ := List.mem_map.1 hmem
      rw [lookup_of_mem hn hu] at hnone
      cases hnone
    rw [Values.lookup_setAll_of_notMem hnot]
    exact hρ x v (h₀ x v h)

theorem overlay_nil (ρ : Bindings) : ρ.overlay [] = ρ := by
  funext x
  simp [Bindings.overlay]

/-- The phis that an effect sets are those of its node. -/
theorem Effects.pass_keys {g : Graph} {arguments : List Value} {ρ : Bindings}
    {previous : Option NodeId} {m : NodeId} {us : Values}
    (h : Effects g arguments ρ previous m (.pass us)) :
    (us.map Prod.fst).Nodup ∧ ∀ x ∈ us.map Prod.fst, Owns g m x := by
  cases h with
  | step => simp
  | holds => simp
  | merge _ _ _ hu =>
    rw [hu.keys]
    exact ⟨g.phisOf_nodup m, fun x hx => .inl hx⟩

section

variable {τ : Type} {c : Code} {arguments : List Value} {M : Meaning} {P : NodeId → Point}

/-- Control comes to the node `n` at `m`. Where a loop is started over, the
trail goes back to `e`, from where it was entered, and in any other case it
goes on. -/
structure Visit (g : Graph) (t : Trail) (q m : NodeId) (ρ : Bindings) (n : Node) (e : NodeId)
    (ρ₀ : Bindings) (s : Trail) :
    Prop where
  node : g.node? m = some n
  fixed : n.kind.isFixed
  suffix : ((e, ρ₀) :: s) <:+ (q, ρ) :: t
  control : e ∈ n.control
  lt : e < m
  forward : n.kind ≠ .loopBegin → q < m ∧ e = q ∧ ρ₀ = ρ ∧ s = t

/-- Behind a node that set some registers, the trail goes on from where the
node was entered. -/
theorem Stands.pass {g : Graph} {t : Trail} {q m : NodeId} {ρ : Bindings}
    (h : Stands g arguments P t q m ρ) {e next : NodeId} {ρ₀ : Bindings} {s : Trail} {us : Values}
    {n : Node} (hv : Visit g t q m ρ n e ρ₀ s) (ho : ∀ x ∈ us.map Prod.fst, Owns g m x)
    (hg : (P m).good (ρ₀.overlay us)) (hnext : next ∈ g.successors m)
    (hside : SideTaken g arguments (ρ₀.overlay us) m next) :
    Stands g arguments P ((e, ρ₀) :: s) m next (ρ₀.overlay us) := by
  have hok := h.ok.of_suffix hv.suffix (by simp)
  refine ⟨(hok.visit hv.node hv.fixed hv.control hv.lt ho).1, fun x hx => ?_, hnext, hside⟩
  rcases List.mem_cons.1 hx with rfl | hx
  · exact hg
  · exact h.good x (hv.suffix.mem hx)

/-- The registers that a node sets were free. -/
theorem Stands.le_overlay {g : Graph} {t : Trail} {q m : NodeId} {ρ : Bindings}
    (h : Stands g arguments P t q m ρ) {e : NodeId} {ρ₀ : Bindings} {s : Trail} {us : Values}
    {n : Node} (hv : Visit g t q m ρ n e ρ₀ s) (ho : ∀ x ∈ us.map Prod.fst, Owns g m x) :
    ρ₀.Le (ρ₀.overlay us) :=
  ((h.ok.of_suffix hv.suffix (by simp)).visit hv.node hv.fixed hv.control hv.lt ho).2

/-- What happens at the node that control comes to, by the condition for the
edge. -/
theorem Stands.effect {g : Graph} (hf : g.Flows)
    (hedge : ∀ q m n, g.node? m = some n → n.kind.isFixed → q ∈ n.control →
        EdgeOk g arguments M P q m) {t : Trail} {q m : NodeId} {ρ : Bindings}
    (h : Stands g arguments P t q m ρ) :
    ∃ n e ρ₀ s effect, Visit g t q m ρ n e ρ₀ s ∧ Effects g arguments ρ (some q) m effect ∧
      Leads M (P q) (P m) m (if q < m then 0 else 1) ρ₀ ρ effect := by
  obtain ⟨n, hn, hx, hq⟩ := Graph.mem_successors.1 h.edge
  obtain ⟨e, ρ₀, s, hs, hec, hlt, hfwd, hback⟩ := h.ok.base hf hn hx hq
  obtain ⟨effect, heff, hleads⟩ := hedge q m n hn hx hq ρ₀ ρ (fun hlt => (hfwd hlt).2.1)
    (fun hge => ⟨h.ok.le_of_suffix hs, fun n' e' hn' he' => by
      obtain rfl := Option.some.inj (hn.symm.trans hn')
      obtain rfl := Option.some.inj ((hback hge).2.symm.trans he')
      exact h.good _ (hs.mem List.mem_cons_self)⟩)
    (h.good _ List.mem_cons_self) h.side
  refine ⟨n, e, ρ₀, s, effect, ⟨hn, hx, hs, hec, hlt, fun hk => ?_⟩, heff, hleads⟩
  have hqm : q < m := by
    by_contra hge
    exact hk (hback (Nat.not_lt.1 hge)).1
  exact ⟨hqm, hfwd hqm⟩

/-- After a pass, control is at a place again. -/
theorem Place.pass {t : Trail} {q m : NodeId} {ρ : Bindings} {r r' : Registers}
    (h : Place c.graph arguments P t q m ρ r) {e next : NodeId} {ρ₀ : Bindings} {s : Trail}
    {us : Values} {n : Node} (hv : Visit c.graph t q m ρ n e ρ₀ s) (hnd : (us.map Prod.fst).Nodup)
    (ho : ∀ x ∈ us.map Prod.fst, Owns c.graph m x) (hg : (P m).good (ρ₀.overlay us))
    (hnext : next ∈ c.graph.successors m)
    (hside : SideTaken c.graph arguments (ρ₀.overlay us) m next)
    (hr : Coherent c.graph arguments r') (hvalues : r'.values = r.values.setAll us) :
    Place c.graph arguments P ((e, ρ₀) :: s) m next (ρ₀.overlay us) r' :=
  ⟨h.toStands.pass hv ho hg hnext hside, hr,
    bindings_le_setAll hnd (h.ok.le_of_suffix hv.suffix) h.le hvalues⟩

/-- An effect that lets control go on belongs to a node with one successor. -/
theorem Effects.pass_next {g : Graph} (hf : g.Flows) {ρ : Bindings} {previous : Option NodeId}
    {m : NodeId} {us : Values} (h : Effects g arguments ρ previous m (.pass us)) :
    ∃ next, g.successors m = [next] ∧ ∀ ρ', SideTaken g arguments ρ' m next := by
  have hnext : ∀ n, g.node? m = some n → n.kind.isFixed → n.kind ≠ .branch →
      n.kind.isTerminal = false →
      ∃ next, g.successors m = [next] ∧ ∀ ρ', SideTaken g arguments ρ' m next := by
    intro n hn h1 h2 h3
    obtain ⟨next, hs⟩ := hf.next m n hn h1 h2 h3
    refine ⟨next, hs, fun ρ' n' x hn' hk => ?_⟩
    obtain rfl := Option.some.inj (hn.symm.trans hn')
    exact absurd hk h2
  cases h with
  | step hn hk =>
    rcases hk with hk | hk | hk <;> exact hnext _ hn (by simp [hk, NodeKind.isFixed]) (by simp [hk])
      (by simp [hk, NodeKind.isTerminal])
  | merge hn hk _ _ =>
    rcases NodeKind.isMerge_iff.1 hk with hk | hk <;>
      exact hnext _ hn (by simp [hk, NodeKind.isFixed]) (by simp [hk])
        (by simp [hk, NodeKind.isTerminal])
  | holds hn hk =>
    exact hnext _ hn (by simp [hk, NodeKind.isFixed]) (by simp [hk])
      (by simp [hk, NodeKind.isTerminal])

variable (calls : ℕ → TargetId → List Value → Comp GuestError τ Value) (valid : τ → Bool)

/-- Running on from a position gives an outcome, for all bounds that are large
enough. -/
def Settles (c : Code) (arguments : List Value) (position : Position) (a : Activation τ)
    (x : Outcome GuestError (Activation τ) Result) : Prop :=
  ∃ N, ∀ᶠ b in atTop, ∀ k ≥ N, runFrom ⟨calls b, valid⟩ c arguments k position a = x

variable {calls valid}

theorem Settles.step {position next : Position} {a a' : Activation τ}
    {x : Outcome GuestError (Activation τ) Result}
    (h : ∀ᶠ b in atTop, step ⟨calls b, valid⟩ c arguments position a = .done (.go next) a')
    (hx : Settles calls valid c arguments next a' x) :
    Settles calls valid c arguments position a x := by
  obtain ⟨N, hN⟩ := hx
  refine ⟨N + 1, ?_⟩
  filter_upwards [h, hN] with b h1 h2 k hk
  obtain ⟨k, rfl⟩ := Nat.exists_eq_succ_of_ne_zero (by omega : k ≠ 0)
  rw [runFrom_go h1, h2 k (by omega)]

theorem Settles.finish {position : Position} {a a' : Activation τ} {result : Result}
    (h : ∀ᶠ b in atTop,
      Code.step ⟨calls b, valid⟩ c arguments position a = .done (.finish result) a') :
    Settles calls valid c arguments position a (.done result a') :=
  ⟨1, by filter_upwards [h] with b hb k hk; exact runFrom_finish hb hk⟩

theorem Settles.stop {position : Position} {a a' : Activation τ} {e : GuestError}
    (h : ∀ᶠ b in atTop, Code.step ⟨calls b, valid⟩ c arguments position a = .stop e a') :
    Settles calls valid c arguments position a (.stop e a') :=
  ⟨1, by filter_upwards [h] with b hb k hk; exact runFrom_stop hb hk⟩

variable {J : τ → Prop} {ignored : GuestError → Prop} {o : Outcome GuestError ℕ Value}

variable (c arguments M P calls valid J o) in
/-- The control step from `q` to `m` ends the run as promised, or leads to a
place that promises the same. -/
def Advances (q m : NodeId) (r : Registers) (world : τ) (w : ℕ) : Prop :=
  (∃ x, Answers J M o (outcomeOf x) ∧ Settles calls valid c arguments ⟨m, some q⟩ ⟨r, world⟩ x) ∨
    ∃ t' next ρ' r' w' world', Place c.graph arguments P t' m next ρ' r' ∧
      (P m).ends ρ' w' o ∧ J world' ∧
      (∀ᶠ b in atTop, step ⟨calls b, valid⟩ c arguments ⟨m, some q⟩ ⟨r, world⟩ =
          .done (.go ⟨next, some m⟩) ⟨r', world'⟩) ∧
      w + (P m).depth + (if q < m then 0 else 1) ≤ w' + (P q).depth

section

variable {t s : Trail} {q m e : NodeId} {ρ ρ₀ : Bindings} {r : Registers} {n : Node} {w : ℕ}
    {world : τ} (hf : c.graph.Flows) (h : Place c.graph arguments P t q m ρ r)
    (hv : Visit c.graph t q m ρ n e ρ₀ s) (he : (P q).ends ρ w o) (hJ : J world)

include hf h hv he hJ

theorem Place.advances_pass {us : Values} (heff : Effects c.graph arguments ρ (some q) m (.pass us))
    (hleads : Leads M (P q) (P m) m (if q < m then 0 else 1) ρ₀ ρ (.pass us)) :
    Advances c arguments M P calls valid J o q m r world w := by
  right
  obtain ⟨hnd, hown⟩ := heff.pass_keys
  obtain ⟨next, hnext, hside⟩ := heff.pass_next hf
  obtain ⟨r', hstep, hval, hcoh⟩ := step_pass heff h.coherent h.le hnext world
  obtain ⟨hg, hends⟩ := hleads (ρ₀.overlay us) (h.toStands.le_overlay hv hown) fun u hu =>
    Bindings.overlay_of_mem hnd hu ρ₀
  obtain ⟨w', hw', hprog⟩ := hends w o he
  exact ⟨_, next, _, r', w', world, h.pass hv hnd hown hg (by simp [hnext]) (hside _) hcoh hval,
    hw', hJ, .of_forall fun b => hstep _, hprog⟩

theorem Place.advances_side {taken : Bool}
    (heff : Effects c.graph arguments ρ (some q) m (.side taken))
    (hleads : Leads M (P q) (P m) m (if q < m then 0 else 1) ρ₀ ρ (.side taken)) :
    Advances c arguments M P calls valid J o q m r world w := by
  right
  obtain ⟨hg, hends⟩ := hleads
  obtain ⟨w', hw', hprog⟩ := hends w o he
  cases heff with
  | @side _ x _ hn' hk hinp hd =>
    have hn := hv.node
    obtain rfl := Option.some.inj (hn.symm.trans hn')
    obtain ⟨hqm, rfl, rfl, rfl⟩ := hv.forward (by simp [hk])
    obtain ⟨onTrue, onFalse, hsucc, hka, hkb⟩ := hf.sides m n hn hk
    obtain ⟨cache, hstep, hcoh⟩ :=
      step_side (Effects.side hn hk hinp hd) h.coherent h.le hsucc world
    refine ⟨_, if taken then onTrue else onFalse, ρ₀.overlay [], ⟨r.values, cache⟩, w', world,
      h.pass hv (by simp) (by simp) (by rwa [overlay_nil]) ?next ?known hcoh
      rfl, by rwa [overlay_nil], hJ, .of_forall fun b => hstep _, hprog⟩
    case next => cases taken <;> simp [hsucc]
    case known =>
      rw [overlay_nil]
      intro n' x' hn' _ hx'
      obtain rfl := Option.some.inj (hn.symm.trans hn')
      obtain rfl := Option.some.inj (hinp.symm.trans hx')
      cases taken with
      | true => exact ⟨fun _ => hd, fun hk' => by simp [hka] at hk'⟩
      | false => exact ⟨fun hk' => by simp [hkb] at hk', fun _ => hd⟩

theorem Place.advances_call {target : TargetId} {vs : List Value} {f : SuspendedFrame}
    {callers : List SuspendedFrame}
    (hcall : ∀ target vs,
        Comp.Refines ignored (fun _ s => J s) (M.call target vs) fun b => calls b target vs)
    (ho : ∀ e w, o = .stop e w → ¬ ignored e)
    (heff : Effects c.graph arguments ρ (some q) m (.call target vs f callers))
    (hleads : Leads M (P q) (P m) m (if q < m then 0 else 1) ρ₀ ρ (.call target vs f callers)) :
    Advances c arguments M P calls valid J o q m r world w := by
  obtain ⟨hg, hends⟩ := hleads
  obtain ⟨w₁, hres⟩ := hends w o he
  have hn := hv.node
  obtain ⟨site, hk⟩ : ∃ site, n.kind = .invoke target site := by
    cases heff with
    | call hn' hk => exact ⟨_, Option.some.inj (hn.symm.trans hn') ▸ hk⟩
  obtain ⟨hqm, rfl, rfl, rfl⟩ := hv.forward (by simp [hk])
  have hown : Owns c.graph m m := .inr ⟨rfl, by simp [Graph.kind?, hn, hk, NodeKind.isInvoke]⟩
  obtain ⟨next, hnext⟩ := hf.next m n hn hv.fixed (by simp [hk]) (by simp [hk, NodeKind.isTerminal])
  obtain ⟨stopped, handed, hstep⟩ :=
    step_call heff h.coherent h.le (h.ok.fresh hqm hown) hnext world
  have hC := hcall target vs w₁ world hJ
  generalize M.call target vs w₁ = answer at hC hres
  cases answer with
  | exhausted => exact hres.elim
  | stop e' w' =>
    left
    obtain ⟨world', hJ', hb⟩ := hC.stop_inv (ho e' w' hres)
    refine ⟨.stop e' ⟨stopped, world'⟩, ⟨hJ', w', hres⟩, .stop ?_⟩
    filter_upwards [hb] with b hb
    rw [hstep]
    dsimp only
    rw [hb]
  | done v w' =>
    obtain ⟨world', hJ', hb⟩ := hC.done_inv
    obtain ⟨hresume, hends'⟩ := hres
    by_cases hvalid : valid world'
    · right
      have hover : ∀ x ∈ [(m, v)].map Prod.fst, Owns c.graph m x := by simpa using hown
      have hle := h.toStands.le_overlay hv hover
      have hmv : ρ₀.overlay [(m, v)] m = some v := by simp [Bindings.overlay]
      obtain ⟨hw', hprog⟩ := hends' _ hle hmv
      refine ⟨_, next, ρ₀.overlay [(m, v)], ⟨r.values.set m v, []⟩, w', world', h.pass hv
        (by simp) hover (hg v _ hle hmv) (by simp [hnext]) ?known (fun _ _ h => by simp at h) rfl,
        hw', hJ', ?goes, hprog⟩
      case known =>
        intro n' x hn' hk'
        obtain rfl := Option.some.inj (hn.symm.trans hn')
        simp [hk] at hk'
      case goes =>
        filter_upwards [hb] with b hb
        rw [hstep]
        dsimp only
        rw [hb]
        exact if_pos hvalid
    · left
      refine ⟨.done (.deoptimized .invalidated ⟨f.push v, callers⟩) ⟨handed world' v, world'⟩,
        ⟨hJ', w', hresume⟩, .finish ?_⟩
      filter_upwards [hb] with b hb
      rw [hstep]
      dsimp only
      rw [hb]
      exact if_neg hvalid

end

/-- One control step from a place: the run ends as promised, or control gets
to a place that promises the same. -/
theorem Place.next (hf : c.graph.Flows)
    (hedge : ∀ q m n, c.graph.node? m = some n → n.kind.isFixed → q ∈ n.control →
        EdgeOk c.graph arguments M P q m)
    (hcall : ∀ target vs,
        Comp.Refines ignored (fun _ s => J s) (M.call target vs) fun b => calls b target vs)
    (ho : ∀ e w, o = .stop e w → ¬ ignored e) {t : Trail} {q m : NodeId} {ρ : Bindings}
    {r : Registers} {w : ℕ} {world : τ} (h : Place c.graph arguments P t q m ρ r)
    (he : (P q).ends ρ w o) (hJ : J world) :
    Advances c arguments M P calls valid J o q m r world w := by
  obtain ⟨n, e, ρ₀, s, effect, hv, heff, hleads⟩ := h.toStands.effect hf hedge
  cases effect with
  | pass us => exact h.advances_pass hf hv he hJ heff hleads
  | side taken => exact h.advances_side hf hv he hJ heff hleads
  | call target vs f callers => exact h.advances_call hf hv he hJ hcall ho heff hleads
  | fail e' =>
    left
    obtain ⟨r', hstep⟩ := step_fail heff h.coherent h.le world
    exact ⟨.stop e' ⟨r', world⟩, ⟨hJ, hleads w o he⟩, .stop (.of_forall fun b => hstep _)⟩
  | finish result =>
    left
    obtain ⟨r', hstep⟩ := step_finish heff h.coherent h.le world
    refine ⟨.done result ⟨r', world⟩, ?_, .finish (.of_forall fun b => hstep _)⟩
    cases result with
    | returned v => exact ⟨hJ, hleads w o he⟩
    | deoptimized reason snapshot => exact ⟨hJ, hleads.2 w o he⟩

/-- If every control edge satisfies its condition, the code ends as promised. -/
theorem run_of_edges (hf : c.graph.Flows)
    (hedge : ∀ q m n, c.graph.node? m = some n → n.kind.isFixed → q ∈ n.control →
        EdgeOk c.graph arguments M P q m) (hcount : ∀ q ρ w o, (P q).ends ρ w o → w ≤ o.final)
    (hcall : ∀ target vs,
        Comp.Refines ignored (fun _ s => J s) (M.call target vs) fun b => calls b target vs)
    (ho : ∀ e w, o = .stop e w → ¬ ignored e) (μ : ℕ) :
    ∀ d t q m ρ r w world, Place c.graph arguments P t q m ρ r → (P q).ends ρ w o → J world →
      o.final + (P q).depth - w ≤ μ → c.graph.nodes.size - q ≤ d →
      ∃ x, Answers J M o (outcomeOf x) ∧
        Settles calls valid c arguments ⟨m, some q⟩ ⟨r, world⟩ x := by
  -- first on the tests that are left, then on the position: an edge back makes
  -- a test, every other leads up
  induction μ using Nat.strong_induction_on with
  | _ μ ihμ =>
    intro d
    induction d with
    | zero =>
      intro t q m ρ r w world h _ _ _ hd
      have := h.ok.lt_size hf
      grind
    | succ d ihd =>
      intro t q m ρ r w world h he hJ hμ hd
      rcases h.next hf hedge hcall ho he hJ
        with hx | ⟨t', next, ρ', r', w', world', h', he', hJ', hstep, hprog⟩
      · exact hx
      have hw := hcount _ _ _ _ he
      have hw' := hcount _ _ _ _ he'
      by_cases hlt : q < m
      · rw [if_pos hlt] at hprog
        obtain ⟨x, hx, hs⟩ := ihd t' m next ρ' r' w' world' h' he' hJ' (by omega) (by grind)
        exact ⟨x, hx, hs.step hstep⟩
      · rw [if_neg hlt] at hprog
        obtain ⟨x, hx, hs⟩ := ihμ (o.final + (P m).depth - w')
          (by omega) _ t' m next ρ' r' w' world' h' he' hJ' (Nat.le_refl _) (Nat.le_refl _)
        exact ⟨x, hx, hs.step hstep⟩

/-- A run from the start ends as promised there. -/
theorem run_of_certificate (hf : c.graph.Flows)
    (hedge : ∀ q m n, c.graph.node? m = some n → n.kind.isFixed → q ∈ n.control →
        EdgeOk c.graph arguments M P q m) (hcount : ∀ q ρ w o, (P q).ends ρ w o → w ≤ o.final)
    (hcall : ∀ target vs,
        Comp.Refines ignored (fun _ s => J s) (M.call target vs) fun b => calls b target vs)
    (ho : ∀ e w, o = .stop e w → ¬ ignored e) (hgood : (P Graph.start).good fun _ => none) {w : ℕ}
    (he : (P Graph.start).ends (fun _ => none) w o) {world : τ} (hJ : J world) :
    ∃ y, Answers J M o y ∧ ∀ᶠ b in atTop, run ⟨calls b, valid⟩ b c arguments world = y := by
  obtain ⟨n, hn, hk⟩ := hf.start
  have heff : Effects c.graph arguments (fun _ => none) none Graph.start (.pass []) :=
    .step hn (.inl hk)
  obtain ⟨next, hnext, hside⟩ := heff.pass_next hf
  have hcoh : Coherent c.graph arguments ⟨[], []⟩ := fun _ _ h => by simp at h
  have hle : Bindings.Le (fun _ => none) (Registers.bindings ⟨[], []⟩) := fun _ _ h => by cases h
  obtain ⟨r', hstep, hval, hcoh'⟩ := step_pass heff hcoh hle hnext world
  have hplace : Place c.graph arguments P [] Graph.start next (fun _ => none) r' :=
    ⟨⟨.start, by simpa using hgood, by simp [hnext], hside _⟩, hcoh', fun _ _ h => by cases h⟩
  obtain ⟨x, hx, hs⟩ := run_of_edges hf hedge hcount hcall ho _ _ _ _ _ _ _ _ _ hplace he hJ
    (Nat.le_refl _) (Nat.le_refl _)
  obtain ⟨N, hN⟩ := Settles.step (.of_forall fun b => hstep ⟨calls b, valid⟩) hs
  refine ⟨outcomeOf x, hx, ?_⟩
  filter_upwards [hN, eventually_ge_atTop N] with b hb hge
  rw [run, hb b hge]
  rfl

end

end Code

end TieredEngine

import TieredEngine.Proofs.Graph.Appending
import TieredEngine.Proofs.Specialize.Emission
/-!
# New nodes on the control chain

The rules for pieces that append fixed nodes: a node behind an open end, a
branch with its two sides, a merge with its phis, and a loop whose header gets
an edge back. Each rule asks for what has to be shown about the spots before
and behind the new node, for every whole graph.
-/

namespace TieredEngine

namespace Specialize

open Code (Point Effect Effects Leads EdgeOk)

variable {X : Setting} {g g₁ g₂ g₃ whole : Graph} {S T : Spot} {q : NodeId}

/-! ## Going on with more registers -/

theorem Spot.Good.mono {arguments : List Value} {ρ ρ' : Bindings} (h : S.Good whole arguments ρ)
    (hρ : ρ.Le ρ') :
    S.Good whole arguments ρ' where
  known x hx := (h.known x hx).mono hρ
  facts fact hf := by
    obtain ⟨v, h1, h2⟩ := h.facts fact hf
    exact ⟨v, h1.mono hρ, h2⟩
  chain := h.chain

/-- More registers change nothing about a spot whose nodes have values. -/
theorem Setting.continues_mono {ρ ρ' : Bindings} (h : S.Good whole X.arguments ρ) (hρ : ρ.Le ρ') :
    (X.point whole S).Continues (X.point whole S) 0 ρ ρ' := by
  refine ⟨h.mono hρ, fun w o hw => ⟨w, ⟨hw.1, ?_⟩, by omega⟩⟩
  exact hw.2.congr fun x hx => ((h.known x hx).valueAt_mono hρ).symm

/-- At a node that only lets control pass, one spot leads to the next. -/
theorem Setting.leads_pass {ρ : Bindings} {m : NodeId}
    (h : (X.point whole S).Continues (X.point whole T) 0 ρ ρ) :
    Leads X.meaning (X.point whole S) (X.point whole T) m 0 ρ ρ (.pass []) :=
  fun _ hle _ => h.trans (Setting.continues_mono h.1 hle)

/-- A forward edge satisfies its condition if the spot at its end is left as
the node says. -/
theorem Setting.edge_forward {L : NodeId → Spot} {m : NodeId} (hlt : q < m)
    (hL : X.To whole (L q) S)
    (h : ∀ ρ, S.Good whole X.arguments ρ → Code.SideTaken whole X.arguments ρ q m → ∃ effect,
      Effects whole X.arguments ρ (some q) m effect ∧
        Leads X.meaning (X.point whole S) (X.point whole (L m)) m 0 ρ ρ effect) :
    EdgeOk whole X.arguments X.meaning (fun id => X.point whole (L id)) q m := by
  intro ρ₀ ρ hfwd _ hgood hside
  obtain rfl := hfwd hlt
  have hto := hL ρ₀ hgood
  obtain ⟨effect, h1, h2⟩ := h ρ₀ hto.1 hside
  refine ⟨effect, h1, ?_⟩
  rw [if_pos hlt]
  exact h2.of_continues hto

namespace Emits

/-! ## One node behind an end -/

/-- A fixed node behind an open end. -/
theorem behind {n : Node} (hc : n.control = [q]) (hk : n.kind.isFixed) (hs : n.kind ≠ .start)
    (hb : n.kind ≠ .branch) (hq : q < g.nodes.size)
    (hd : ∀ whole, Fits g (g.add n).1 whole → ∀ ρ, S.Good whole X.arguments ρ → ∃ effect,
      Effects whole X.arguments ρ (some q) g.nodes.size effect ∧
        Leads X.meaning (X.point whole S) (X.point whole T) g.nodes.size 0 ρ ρ effect) :
    Emits X [(q, S)] g (g.add n).1 [(g.nodes.size, T)] := by
  have hlast : ∀ m, g.nodes.size ≤ m → m < (g.add n).1.nodes.size → m = g.nodes.size := by
    intro m h1 h2
    rw [Graph.size_add] at h2
    exact Nat.le_antisymm (Nat.lt_succ_iff.1 h2) h1
  have hnode : (g.add n).1.node? g.nodes.size = some n := by rw [Graph.node?_add, if_pos rfl]
  refine ⟨by simpa using hq, by simp, fun id hid => ?_, by simp, by simp, fun m n' hm hn' => ?_,
    fun whole hf L hL => ?_⟩
  · rw [Graph.node?_add, if_neg (Nat.ne_of_lt hid)]
  · obtain rfl := hlast m hm (Graph.lt_size_of_node? hn')
    rw [hnode] at hn'
    cases hn'
    exact .behind hc (.inl (by simp)) hq (by simp) hk hs hb
  · refine ⟨Function.update L g.nodes.size T, fun id hid =>
      Function.update_of_ne (Nat.ne_of_lt hid) _ _, fun m n' p h1 h2 hn' _ hp => ?_, fun e he => ?_⟩
    · obtain rfl := hlast m h1 h2
      rw [hf.new _ h1 h2, hnode] at hn'
      cases hn'
      obtain rfl : p = q := by simpa [hc] using hp
      refine Setting.edge_forward hq (S := S) ?_ fun ρ hρ _ => ?_
      · rw [Function.update_of_ne (Nat.ne_of_lt hq)]
        exact hL (p, S) (by simp)
      · rw [Function.update_self]
        exact hd whole hf ρ hρ
    · obtain rfl : e = (g.nodes.size, T) := by simpa using he
      rw [Function.update_self]
      exact .refl

end Emits

/-! ## Branches -/

section

variable {x m p : NodeId} {n : Node} {onTrue onFalse : Spot} {L : NodeId → Spot}
    (hq : q < g.nodes.size) (hfork : g.Forked g₁ q x)

include hq hfork

theorem nodeOk_forked (hle : g.nodes.size ≤ m) (hn : g₁.node? m = some n) :
    NodeOk [q] g.nodes.size g₁ m n := by
  have hsize := hfork.size
  cases hfork.node hn with
  | old hn => exact absurd (Graph.lt_size_of_node? hn) (Nat.not_lt.2 hle)
  | branch =>
    refine ⟨by simp, by simp, fun _ i p hp => ?_, by simp, fun _ =>
      ⟨_, _, by grind, by grind, hfork.onTrue, hfork.onFalse⟩, Node.narrowed_of_isFixed rfl⟩
    cases i with
    | zero =>
      obtain rfl : q = p := by simpa using hp
      exact ⟨.inl (by simp), by grind, .inl ⟨hq, by simp⟩⟩
    | succ i => simp at hp
  | onTrue | onFalse =>
    exact .behind rfl (.inr (Nat.le_refl _)) (by grind) (by grind) rfl (by simp) (by simp)

/-- Control comes to the branch, or over it to one of its sides. -/
theorem edgeOk_forked (hf : Fits g g₁ whole)
    (hd : ∀ ρ, S.Good whole X.arguments ρ → ∃ v, Denotes whole X.arguments ρ x v ∧
      (∀ e, v.condition = .error e → ∀ w o, (X.point whole S).ends ρ w o → ∃ w', o = .stop e w') ∧
      (v = .bool true → (X.point whole S).Continues (X.point whole onTrue) 0 ρ ρ) ∧
      (v = .bool false → (X.point whole S).Continues (X.point whole onFalse) 0 ρ ρ))
    (hL : X.To whole (L q) S) (hb : L g.nodes.size = S) (ht : L (g.nodes.size + 1) = onTrue)
    (ho : L (g.nodes.size + 2) = onFalse) (hle : g.nodes.size ≤ m) (hlt : m < g₁.nodes.size)
    (hn : whole.node? m = some n) (hp : p ∈ n.control) :
    EdgeOk whole X.arguments X.meaning (fun id => X.point whole (L id)) p m := by
  have hsize := hfork.size
  have hbranch := (hf.new _ (Nat.le_refl _) (by grind)).trans hfork.branch
  have hnode := hn
  rw [hf.new m hle hlt] at hnode
  cases hfork.node hnode with
  | old hn => exact absurd (Graph.lt_size_of_node? hn) (Nat.not_lt.2 hle)
  | branch =>
    obtain rfl := List.mem_singleton.1 hp
    refine Setting.edge_forward hq hL fun ρ hρ _ => ?_
    obtain ⟨v, hv, hfail, -, -⟩ := hd ρ hρ
    rw [hb]
    cases v with
    | bool b => exact ⟨.side b, .side hbranch rfl rfl hv, Setting.continues_mono hρ (.refl ρ)⟩
    | int k => exact ⟨.fail _, .noCondition hbranch rfl rfl hv rfl, hfail _ rfl⟩
    | null => exact ⟨.fail _, .noCondition hbranch rfl rfl hv rfl, hfail _ rfl⟩
  | onTrue =>
    obtain rfl := List.mem_singleton.1 hp
    refine Setting.edge_forward (S := S) (by grind) (hb ▸ .refl) fun ρ hρ hside => ?_
    obtain ⟨v, hv, -, htrue, -⟩ := hd ρ hρ
    have hv' := (hside _ x hbranch rfl rfl).1 (by rw [Graph.kind?, hn]; rfl)
    rw [ht]
    exact ⟨.pass [], .step hn (.inr (.inl rfl)), Setting.leads_pass (htrue (hv.unique hv'))⟩
  | onFalse =>
    obtain rfl := List.mem_singleton.1 hp
    refine Setting.edge_forward (S := S) (by grind) (hb ▸ .refl) fun ρ hρ hside => ?_
    obtain ⟨v, hv, -, -, hfalse⟩ := hd ρ hρ
    have hv' := (hside _ x hbranch rfl rfl).2 (by rw [Graph.kind?, hn]; rfl)
    rw [ho]
    exact ⟨.pass [], .step hn (.inr (.inr rfl)), Setting.leads_pass (hfalse (hv.unique hv'))⟩

/-- A branch with its two sides. -/
theorem Emits.split {t o : NodeId} (ht : t = g.nodes.size + 1) (ho : o = g.nodes.size + 2)
    (hd : ∀ whole ρ, Fits g g₁ whole → S.Good whole X.arguments ρ →
      ∃ v, Denotes whole X.arguments ρ x v ∧
      (∀ e, v.condition = .error e → ∀ w o, (X.point whole S).ends ρ w o → ∃ w', o = .stop e w') ∧
      (v = .bool true → (X.point whole S).Continues (X.point whole onTrue) 0 ρ ρ) ∧
      (v = .bool false → (X.point whole S).Continues (X.point whole onFalse) 0 ρ ρ)) :
    Emits X [(q, S)] g g₁ [(t, onTrue), (o, onFalse)] where
  before := by simpa using hq
  size := by rw [hfork.size]; exact Nat.le_add_right _ _
  old := hfork.old
  nodup := by simp [ht, ho]
  ends r hr := by
    have hsize := hfork.size
    rcases List.mem_pair.1 hr with rfl | rfl
    · exact .inr ⟨by grind, by grind⟩
    · exact .inr ⟨by grind, by grind⟩
  nodes m n := nodeOk_forked hq hfork
  labels whole hf L hL := by
    subst ht ho
    let L' : NodeId → Spot :=
      fun id => if id = g.nodes.size then S else if id = g.nodes.size + 1 then onTrue
      else if id = g.nodes.size + 2 then onFalse else L id
    have hold : ∀ id < g.nodes.size, L' id = L id := fun id hid => by
      simp only [L']
      rw [if_neg (by grind), if_neg (by grind), if_neg (by grind)]
    refine ⟨L', hold, fun m n p hle hlt hn _ hp => ?edges, fun e he => ?ends⟩
    case edges =>
      exact edgeOk_forked hq hfork hf (fun ρ hρ => hd whole ρ hf hρ)
        (hold q hq ▸ hL (q, S) (by simp)) (by simp [L']) (by simp [L']) (by simp [L']) hle hlt hn hp
    case ends =>
      rcases List.mem_pair.1 he with rfl | rfl
      · simpa [L'] using .refl
      · simpa [L'] using .refl

end

/-! ## Merges -/

/-- The phis of a new merge are new. -/
theorem Fits.phi_of_merge (hf : Fits g g₁ whole) {m id : NodeId} {n : Node} (hm : m < g₁.nodes.size)
    (hn : whole.node? id = some n) (hk : n.kind = .phi) (hh : n.control.head? = some m) :
    m < id ∧ id < g₁.nodes.size ∧ n.control = [m] := by
  obtain ⟨m', h1, h2⟩ := hf.owned id n hn hk
  obtain rfl : m' = m := by simpa [h1] using hh
  refine ⟨h2, ?_, h1⟩
  by_contra hlt
  obtain ⟨m'', h3, h4⟩ := hf.later id n (Nat.not_lt.1 hlt) hn hk
  rw [h1] at h3
  cases h3
  exact absurd hm (Nat.not_lt.2 h4)

/-- Control gets to a merge over an edge: every phi gets its input for that
edge. -/
theorem effects_merge {arguments : List Value} {ρ : Bindings} {m : NodeId} {n : Node} {i : ℕ}
    (hn : whole.node? m = some n) (hk : n.kind.isMerge) (hi : n.control.idxOf? q = some i)
    (hphi : ∀ x p, whole.node? x = some p → p.kind = .phi → p.control.head? = some m →
      ∃ y, p.inputs[i]? = some y ∧ Known whole arguments ρ y) :
    ∃ us, Effects whole arguments ρ (some q) m (.pass us) ∧
      ∀ x p y, whole.node? x = some p → p.kind = .phi →
      p.control.head? = some m → p.inputs[i]? = some y → (x, valueAt whole arguments ρ y) ∈ us := by
  have hpick : ∀ x ∈ whole.phisOf m, ∃ p y, whole.node? x = some p ∧ p.inputs[i]? = some y ∧
      Known whole arguments ρ y := by
    intro x hx
    obtain ⟨p, h1, h2, h3⟩ := Graph.mem_phisOf.1 hx
    obtain ⟨y, h4, h5⟩ := hphi x p h1 h2 h3
    exact ⟨p, y, h1, h4, h5⟩
  let input (x : NodeId) : NodeId := ((whole.node? x).bind fun p => p.inputs[i]?).getD 0
  have hinput : ∀ x p y, whole.node? x = some p → p.inputs[i]? = some y → input x = y := by
    intro x p y h1 h2
    simp [input, h1, h2]
  refine ⟨(whole.phisOf m).map fun x => (x, valueAt whole arguments ρ (input x)),
    .merge hn hk hi ?_, fun x p y h1 h2 h3 h4 => ?_⟩
  · rw [Code.UpdatesAt, List.forall₂_map_right_iff, List.forall₂_same]
    intro x hx
    obtain ⟨p, y, h1, h2, h3⟩ := hpick x hx
    exact ⟨rfl, p, y, h1, h2, by rw [hinput x p y h1 h2]; exact h3.denotes⟩
  · refine List.mem_map.2 ⟨x, Graph.mem_phisOf.2 ⟨p, h1, h2, h3⟩, ?_⟩
    rw [hinput x p y h1 h4]

/-- The phis of a merge can be read over an edge. -/
def PhisReady (whole : Graph) (arguments : List Value) (ρ : Bindings) (m : NodeId) (i : ℕ) : Prop :=
  ∀ x p, whole.node? x = some p → p.kind = .phi → p.control = [m] →
    ∃ y, p.inputs[i]? = some y ∧ Known whole arguments ρ y

/-- The phis of a merge have got what came in over an edge. -/
def PhisSet (whole : Graph) (arguments : List Value) (ρ ρ' : Bindings) (m : NodeId) (i : ℕ) :
    Prop :=
  ∀ x p y, whole.node? x = some p → p.kind = .phi → p.control = [m] → p.inputs[i]? = some y →
    ρ' x = some (valueAt whole arguments ρ y)

/-- What has to be shown about an edge to a new merge. -/
theorem leads_merge (hf : Fits g g₁ whole) {ρ₀ ρ : Bindings} {m : NodeId} {n : Node} {i k : ℕ}
    (hm : m < g₁.nodes.size) (hn : whole.node? m = some n) (hk : n.kind.isMerge)
    (hi : n.control.idxOf? q = some i) (hr : PhisReady whole X.arguments ρ m i) {P Q : Point}
    (hc : ∀ ρ', ρ₀.Le ρ' → PhisSet whole X.arguments ρ ρ' m i → P.Continues Q k ρ ρ') :
    ∃ effect, Effects whole X.arguments ρ (some q) m effect ∧
      Leads X.meaning P Q m k ρ₀ ρ effect := by
  obtain ⟨us, h1, h2⟩ :=
    effects_merge hn hk hi fun x p hx hp hh => hr x p hx hp (hf.phi_of_merge hm hx hp hh).2.2
  refine ⟨.pass us, h1, fun ρ' hle hus => hc ρ' hle fun x p y hx hp hcx hy => ?_⟩
  exact hus _ (h2 x p y hx hp (by simp [hcx]) hy)

namespace Emits

/-- A merge of open ends with its phis; a loop header may have just one end to
merge. -/
theorem merge {A : List End} (kind : NodeKind) (hkind : kind.isMerge)
    (hloop : kind = .loopBegin → ∃ e, A = [e]) (hA : (keys A).Nodup)
    (hb : ∀ q ∈ keys A, q < g.nodes.size) (hg₁ : g₁ = (g.add { kind, control := keys A }).1)
    (hsize : g₁.nodes.size ≤ g₂.nodes.size) (hold : ∀ id < g₁.nodes.size, g₂.node? id = g₁.node? id)
    (hphis : ∀ id n, g₁.nodes.size ≤ id → g₂.node? id = some n → n.kind = .phi ∧
        n.control = [g.nodes.size])
    (hd : ∀ whole, Fits g g₂ whole → ∀ i e, A[i]? = some e → ∀ ρ, e.2.Good whole X.arguments ρ →
      PhisReady whole X.arguments ρ g.nodes.size i ∧ ∀ ρ', ρ.Le ρ' →
        PhisSet whole X.arguments ρ ρ' g.nodes.size i →
          (X.point whole e.2).Continues (X.point whole T) 0 ρ ρ') :
    Emits X A g g₂ [(g.nodes.size, T)] := by
  have hs₁ : g₁.nodes.size = g.nodes.size + 1 := by rw [hg₁, Graph.size_add]
  have hm : g.nodes.size < g₂.nodes.size := by omega
  have hmerge : g₂.node? g.nodes.size = some { kind, control := keys A } := by
    rw [hold _ (by omega), hg₁, Graph.node?_add, if_pos rfl]
  have hfixed : kind.isFixed := by
    rcases NodeKind.isMerge_iff.1 hkind with rfl | rfl <;> rfl
  have hcases : ∀ m n, g.nodes.size ≤ m → g₂.node? m = some n → m ≠ g.nodes.size →
      n.kind = .phi ∧ n.control = [g.nodes.size] := by
    intro m n h1 hn hne
    exact hphis m n (by rw [hs₁]; exact Nat.lt_of_le_of_ne h1 (Ne.symm hne)) hn
  refine ⟨hb, by omega, fun id hid => ?_, by simp, by simpa using .inr hm, fun m n hle hn => ?_,
    fun whole hf L hL => ?_⟩
  · rw [hold id (by grind), hg₁, Graph.node?_add, if_neg (Nat.ne_of_lt hid)]
  · by_cases hne : m = g.nodes.size
    · subst hne
      obtain rfl := Option.some.inj (hmerge.symm.trans hn)
      refine ⟨fun h => ?_, fun h => ?_, fun _ i q hq => ?_, fun h => ?_, fun h => ?_,
        Node.narrowed_of_isFixed hfixed⟩
      · dsimp only at h; subst h; simp [NodeKind.isMerge] at hkind
      · dsimp only at h; subst h; simp [NodeKind.isMerge] at hkind
      · have hmem : q ∈ keys A := List.mem_of_getElem? hq
        refine ⟨.inl hmem, (hb q hmem).trans hm, .inl ⟨hb q hmem, fun h => ?_⟩⟩
        obtain ⟨e, rfl⟩ := hloop h
        cases i with
        | zero => rfl
        | succ i => simp at hq
      · refine ⟨g.nodes.size, hm, fun q hq => Nat.le_of_lt (hb q hq), fun x nx _ _ h1 h2 => ?_⟩
        exact absurd h1 (Nat.not_lt.2 h2)
      · dsimp only at h; subst h; simp [NodeKind.isMerge] at hkind
    · obtain ⟨hk, hc⟩ := hcases m n hle hn hne
      refine ⟨by simp [hk], fun _ => ⟨_, hc, Nat.le_refl _, Nat.lt_of_le_of_ne hle (Ne.symm hne)⟩,
        ?_, ?_, ?_, Node.narrowed_of_ne (by rw [hk]; rfl)⟩ <;> simp [hk, NodeKind.isFixed]
  · refine ⟨Function.update L g.nodes.size T, fun id hid =>
      Function.update_of_ne (Nat.ne_of_lt hid) _ _, fun m n q h1 h2 hn hk hq => ?_, fun e he => ?_⟩
    · obtain rfl : m = g.nodes.size := by
        by_contra hne
        rw [hf.new m h1 h2] at hn
        rw [(hcases m n h1 hn hne).1] at hk
        cases hk
      rw [hf.new _ h1 h2] at hn
      obtain rfl := Option.some.inj (hmerge.symm.trans hn)
      rw [← hf.new _ h1 h2] at hn
      obtain ⟨i, hi⟩ := List.getElem?_of_mem hq
      obtain ⟨e, he, rfl⟩ : ∃ e, A[i]? = some e ∧ e.1 = q := by simpa [keys] using hi
      have hlt : e.1 < g.nodes.size := hb _ hq
      refine Setting.edge_forward hlt (S := e.2) ?_ fun ρ hρ _ => ?_
      · rw [Function.update_of_ne (Nat.ne_of_lt hlt)]
        exact hL e (List.mem_of_getElem? he)
      · rw [Function.update_self]
        obtain ⟨h3, h4⟩ := hd whole hf i e he ρ hρ
        exact leads_merge hf hm hn hkind (idxOf?_of_nodup hA hi) h3 h4
    · obtain rfl : e = (g.nodes.size, T) := by simpa using he
      rw [Function.update_self]
      exact .refl

end Emits

/-! ## Loops -/

/-- How a loop is built at the end `q` of `g`: its header and phis are there
in `g₁`, its inside is there in `g₃`, and in `g₄` the header has got the edge
back. -/
structure Looped (g g₁ g₃ g₄ : Graph) (q back : NodeId) : Prop where
  before : q < g.nodes.size
  head : g.nodes.size < g₁.nodes.size
  old : ∀ id < g.nodes.size, g₁.node? id = g.node? id
  opened : ∀ id n, g.nodes.size ≤ id → id < g₁.nodes.size → g₁.node? id = some n → n.kind = .phi ∨
    n.kind = .loopBegin
  size : g₄.nodes.size = g₃.nodes.size
  same : ∀ id, id < g.nodes.size ∨ g₁.nodes.size ≤ id → g₄.node? id = g₃.node? id
  header : g₄.node? g.nodes.size = some { kind := .loopBegin, control := [q, back] }
  phis : ∀ id n, g.nodes.size < id → id < g₁.nodes.size → g₄.node? id = some n → n.kind = .phi ∧
    n.control = [g.nodes.size]

namespace Looped

variable {H B : Spot} {back m p : NodeId} {n : Node} {ends rest : List End} {g₄ : Graph}
    {L : NodeId → Spot} (h : Looped g g₁ g₃ g₄ q back)

include h

section

variable (inner : Emits X [(g.nodes.size, H)] g₁ g₃ ends)

include inner

/-- The ends that the inside leaves are in the loop. -/
theorem range_of_end (hp : p ∈ keys ends) : g.nodes.size ≤ p ∧ p < g₃.nodes.size := by
  refine ⟨?_, inner.after p hp⟩
  rcases inner.ends p hp with heq | hge
  · exact Nat.le_of_eq (List.mem_singleton.1 heq).symm
  · exact (Nat.le_of_lt h.head).trans hge.1

theorem head_lt : g.nodes.size < g₄.nodes.size := h.head.trans_le (h.size ▸ inner.size)

/-- Inside the loop, edges come from inside. -/
theorem range_of_edge (hm : g₁.nodes.size ≤ m) (hn : g₄.node? m = some n) (hk : n.kind.isFixed)
    (hp : p ∈ n.control) :
    g.nodes.size ≤ p ∧ p < g₄.nodes.size := by
  rw [h.same m (.inr hm)] at hn
  obtain ⟨i, hi⟩ := List.getElem?_of_mem hp
  obtain ⟨hfrom, hlt, -⟩ := (inner.nodes m n hm hn).edges hk i p hi
  refine ⟨?_, h.size ▸ hlt⟩
  rcases hfrom with heq | hge
  · exact Nat.le_of_eq (List.mem_singleton.1 heq).symm
  · exact (Nat.le_of_lt h.head).trans hge

/-- What the loop becomes a part of, its inside does. -/
theorem fits (hf : Fits g g₄ whole) : Fits g₁ g₃ whole where
  plain id n hn hphi hloop := by
    by_cases hin : id < g.nodes.size ∨ g₁.nodes.size ≤ id
    · exact hf.plain id n (by rw [h.same id hin, hn]) hphi hloop
    · rw [not_or, Nat.not_lt, Nat.not_le] at hin
      rw [inner.old id hin.2] at hn
      exact absurd (h.opened id n hin.1 hin.2 hn) (by tauto)
  new id hge hlt := by
    rw [hf.new id ((Nat.le_of_lt h.head).trans hge) (h.size ▸ hlt), h.same id (.inr hge)]
  later := h.size ▸ hf.later
  owned := hf.owned
  counted := hf.counted

end

section

variable (inner : Emits X [(g.nodes.size, H)] g₁ g₃ ((back, B) :: rest))

include inner

theorem nodeOk_header :
    NodeOk [q] g.nodes.size g₄ g.nodes.size { kind := .loopBegin, control := [q, back] } where
  notStart := by simp
  phi := by simp
  edges _ i p hp := by
    have hm := h.head_lt inner
    have hback := h.range_of_end inner (p := back) (by simp)
    match i, hp with
    | 0, hp =>
      obtain rfl : q = p := by simpa using hp
      exact ⟨.inl (by simp), h.before.trans hm, .inl ⟨h.before, fun _ => rfl⟩⟩
    | 1, hp =>
      obtain rfl : back = p := by simpa using hp
      exact ⟨.inr hback.1, h.size ▸ hback.2, .inr ⟨rfl, Nat.zero_lt_one, hback.1⟩⟩
  loop _ := by
    -- every position from the header on is in the loop
    have hm := h.head_lt inner
    refine ⟨g₄.nodes.size - 1, Nat.sub_one_lt_of_lt hm, fun p hp => ?control,
      fun x nx hnx hk hgt _ p hp => ?inside⟩
    case control =>
      rcases List.mem_pair.1 hp with rfl | rfl
      · exact Nat.le_sub_one_of_lt (h.before.trans hm)
      · exact Nat.le_sub_one_of_lt (h.size ▸ (h.range_of_end inner (by simp)).2)
    case inside =>
      have hx : g₁.nodes.size ≤ x := by
        by_contra hx
        rw [(h.phis x nx hgt (Nat.not_le.1 hx) hnx).1] at hk
        cases hk
      exact (h.range_of_edge inner hx hnx hk hp).imp_right Nat.le_sub_one_of_lt
  sides := by simp
  narrowed := Node.narrowed_of_isFixed rfl

theorem nodeOk (hle : g.nodes.size ≤ m) (hn : g₄.node? m = some n) :
    NodeOk [q] g.nodes.size g₄ m n := by
  rcases Nat.lt_or_ge m g₁.nodes.size with hm | hm
  · rcases Nat.eq_or_lt_of_le hle with rfl | hlt
    · obtain rfl := Option.some.inj (h.header.symm.trans hn)
      exact h.nodeOk_header inner
    · obtain ⟨hk, hc⟩ := h.phis m n hlt hm hn
      refine ⟨by simp [hk], fun _ => ⟨_, hc, Nat.le_refl _, hlt⟩, ?_, ?_, ?_,
        Node.narrowed_of_ne (by rw [hk]; rfl)⟩ <;>
        simp [hk, NodeKind.isFixed]
  · rw [h.same m (.inr hm)] at hn
    refine (inner.nodes m n hm hn).mono (Nat.le_of_lt h.head) (fun p hp => .inr ?_)
      (Nat.le_of_eq h.size.symm) fun id _ hid => h.same id (.inr (hm.trans (Nat.le_of_lt hid)))
    exact Nat.le_of_eq (List.mem_singleton.1 hp).symm

variable (hf : Fits g g₄ whole) (hL : L g.nodes.size = H) (hq : X.To whole (L q) S)

include hf hL hq

/-- The loop is entered. -/
theorem edge_enter
    (hd : ∀ ρ, S.Good whole X.arguments ρ →
      PhisReady whole X.arguments ρ g.nodes.size 0 ∧
      ∀ ρ', ρ.Le ρ' → PhisSet whole X.arguments ρ ρ' g.nodes.size 0 →
        (X.point whole S).Continues (X.point whole H) 0 ρ ρ') :
    EdgeOk whole X.arguments X.meaning (fun id => X.point whole (L id)) q g.nodes.size := by
  have hm := h.head_lt inner
  have hn := (hf.new _ (Nat.le_refl _) hm).trans h.header
  refine Setting.edge_forward h.before hq fun ρ hρ _ => ?_
  rw [hL]
  obtain ⟨hready, hset⟩ := hd ρ hρ
  exact leads_merge hf hm hn rfl (by simp [List.idxOf?_cons]) hready hset

/-- The body has ended and control comes back. -/
theorem edge_back (hB : X.To whole (L back) B)
    (hd : ∀ ρ₀ ρ, ρ₀.Le ρ → S.Good whole X.arguments ρ₀ → B.Good whole X.arguments ρ →
      PhisReady whole X.arguments ρ g.nodes.size 1 ∧ ∀ ρ', ρ₀.Le ρ' →
        PhisSet whole X.arguments ρ ρ' g.nodes.size 1 →
          (X.point whole B).Continues (X.point whole H) 1 ρ ρ') :
    EdgeOk whole X.arguments X.meaning (fun id => X.point whole (L id)) back g.nodes.size := by
  have hm := h.head_lt inner
  have hn := (hf.new _ (Nat.le_refl _) hm).trans h.header
  have hge := (h.range_of_end inner (p := back) (by simp)).1
  have hne : q ≠ back := fun heq => absurd hge (Nat.not_le.2 (heq ▸ h.before))
  intro ρ₀ ρ _ hb hgood _
  obtain ⟨hle, hentry⟩ := hb hge
  have hS : S.Good whole X.arguments ρ₀ := (hq ρ₀ (hentry _ q hn rfl)).1
  have hto := hB ρ hgood
  obtain ⟨hready, hset⟩ := hd ρ₀ ρ hle hS hto.1
  obtain ⟨effect, heffect, hleads⟩ :=
    leads_merge hf hm hn rfl (q := back) (i := 1) (by simp [List.idxOf?_cons, hne]) hready hset
  refine ⟨effect, heffect, ?_⟩
  simp only [if_neg (Nat.not_lt.2 hge), hL]
  exact hleads.of_continues hto

end

end Looped

/-- A loop whose body leads back to its header. -/
theorem Emits.loop {H B : Spot} {back : NodeId} {rest : List End} {g₄ : Graph}
    (h : Looped g g₁ g₃ g₄ q back) (inner : Emits X [(g.nodes.size, H)] g₁ g₃ ((back, B) :: rest))
    (henter : ∀ whole, Fits g g₄ whole → ∀ ρ, S.Good whole X.arguments ρ →
      PhisReady whole X.arguments ρ g.nodes.size 0 ∧ ∀ ρ', ρ.Le ρ' →
        PhisSet whole X.arguments ρ ρ' g.nodes.size 0 →
          (X.point whole S).Continues (X.point whole H) 0 ρ ρ')
    (hback : ∀ whole, Fits g g₄ whole → ∀ ρ₀ ρ, ρ₀.Le ρ → S.Good whole X.arguments ρ₀ →
      B.Good whole X.arguments ρ → PhisReady whole X.arguments ρ g.nodes.size 1 ∧ ∀ ρ', ρ₀.Le ρ' →
        PhisSet whole X.arguments ρ ρ' g.nodes.size 1 →
          (X.point whole B).Continues (X.point whole H) 1 ρ ρ') :
    Emits X [(q, S)] g g₄ rest where
  before := by simpa using h.before
  size := Nat.le_of_lt (h.head_lt inner)
  old id hid := by rw [h.same id (.inl hid), inner.old id (hid.trans h.head), h.old id hid]
  nodup := (List.nodup_cons.1 inner.nodup).2
  ends p hp := .inr (h.size ▸ h.range_of_end inner (List.mem_cons_of_mem _ hp))
  nodes m n := h.nodeOk inner
  labels whole hf L hL := by
    obtain ⟨L', hsame, hedges, hends⟩ :=
      inner.labels whole (h.fits inner hf) (Function.update L g.nodes.size H) fun e he => by
        obtain rfl := List.mem_singleton.1 he
        rw [Function.update_self]
        exact .refl
    have hhead : L' g.nodes.size = H := by rw [hsame _ h.head, Function.update_self]
    have hold : ∀ id < g.nodes.size, L' id = L id := fun id hid => by
      rw [hsame id (hid.trans h.head), Function.update_of_ne (Nat.ne_of_lt hid)]
    have hq : X.To whole (L' q) S := hold q h.before ▸ hL (q, S) (by simp)
    refine ⟨L', hold, fun m n p hle hlt hn hk hp => ?_,
      fun e he => hends e (List.mem_cons_of_mem _ he)⟩
    rcases Nat.lt_or_ge m g₁.nodes.size with hm | hm
    · rw [hf.new m hle hlt] at hn
      rcases Nat.eq_or_lt_of_le hle with rfl | hgt
      · obtain rfl := Option.some.inj (h.header.symm.trans hn)
        rcases List.mem_pair.1 hp with rfl | rfl
        · exact h.edge_enter inner hf hhead hq (henter whole hf)
        · exact h.edge_back inner hf hhead hq (hends (p, B) (by simp)) (hback whole hf)
      · rw [(h.phis m n hgt hm hn).1] at hk
        cases hk
    · exact hedges m n p hm (h.size ▸ hlt) hn hk hp

end Specialize

end TieredEngine

import TieredEngine.Proofs.Code.Effects
/-!
# Trails

The way control came, without the turns of loops that are over: a trail lists
the fixed nodes that were passed, the latest first, each with the registers
that could be read right behind it. Coming back to a loop header drops what
was passed since the last visit. So the registers of a trail are those whose
values are still meant, and what a node stood for at some place of the trail
it stands for at every later one.

`Graph.Flows` is what the control of a graph has to look like for this: edges
lead to higher positions except those back to a loop header, and a loop is
entered at its header only.
-/

namespace TieredEngine

/-- Control is well-formed: who follows whom, which way edges lead, and that
loops are entered at their headers. -/
structure Graph.Flows (g : Graph) : Prop where
  start : ∃ n, g.node? Graph.start = some n ∧ n.kind = .start
  next : ∀ m n, g.node? m = some n → n.kind.isFixed → n.kind ≠ .branch → n.kind.isTerminal = false →
    ∃ s, g.successors m = [s]
  sides : ∀ m n, g.node? m = some n → n.kind = .branch → ∃ a b, g.successors m = [a, b] ∧
    g.kind? a = some .onTrue ∧ g.kind? b = some .onFalse
  /-- An edge leads to a higher position, or is one of the later edges of a
  loop header. -/
  forward : ∀ m n i q, g.node? m = some n → n.kind.isFixed → n.control[i]? = some q →
    (q < m ∧ (n.kind = .loopBegin → i = 0)) ∨ (n.kind = .loopBegin ∧ 0 < i ∧ m ≤ q)
  /-- The positions of a loop are those up to a last one, and control gets
  there from inside only. -/
  loops : ∃ last : NodeId → NodeId, ∀ m n, g.node? m = some n → n.kind = .loopBegin →
    (∀ q ∈ n.control, q ≤ last m) ∧
      ∀ x nx, g.node? x = some nx → nx.kind.isFixed → m < x → x ≤ last m →
      ∀ q ∈ nx.control, m ≤ q ∧ q ≤ last m

/-- The register is set when control passes the node. -/
def Owns (g : Graph) (m x : NodeId) : Prop :=
  x ∈ g.phisOf m ∨ (x = m ∧ (g.kind? m).any NodeKind.isInvoke)

theorem Owns.unique {g : Graph} {m m' x : NodeId} (h : Owns g m x) (h' : Owns g m' x) : m = m' := by
  rcases h with h | ⟨rfl, h⟩ <;> rcases h' with h' | ⟨rfl, h'⟩
  · obtain ⟨n, h1, -, h2⟩ := Graph.mem_phisOf.1 h
    obtain ⟨n', h3, -, h4⟩ := Graph.mem_phisOf.1 h'
    obtain rfl := Option.some.inj (h1.symm.trans h3)
    exact Option.some.inj (h2.symm.trans h4)
  · obtain ⟨n, h1, h2, -⟩ := Graph.mem_phisOf.1 h
    simp [Graph.kind?, h1, h2, NodeKind.isInvoke] at h'
  · obtain ⟨n, h1, h2, -⟩ := Graph.mem_phisOf.1 h'
    simp [Graph.kind?, h1, h2, NodeKind.isInvoke] at h
  · rfl

/-- Bindings with some more registers. -/
def Bindings.overlay (ρ : Bindings) (us : Code.Values) : Bindings := fun x => (us.lookup x).or (ρ x)

theorem Bindings.overlay_eq_some {us : Code.Values} {ρ : Bindings} {x : NodeId} {v : Value}
    (h : ρ.overlay us x = some v) : ρ x = some v ∨ x ∈ us.map Prod.fst := by
  rcases Option.or_eq_some_iff.1 h with h | ⟨-, h⟩
  · exact .inr (List.mem_map.2 ⟨(x, v), mem_of_lookup h, rfl⟩)
  · exact .inl h

theorem Bindings.le_overlay {us : Code.Values} {ρ : Bindings}
    (h : ∀ x ∈ us.map Prod.fst, ρ x = none) :
    ρ.Le (ρ.overlay us) := by
  intro x v hv
  have hx : us.lookup x = none := by
    cases hl : us.lookup x with
    | none => rfl
    | some w =>
      have := h x (List.mem_map.2 ⟨(x, w), mem_of_lookup hl, rfl⟩)
      rw [hv] at this
      cases this
  rw [Bindings.overlay, hx, Option.none_or, hv]

theorem Bindings.overlay_of_mem {us : Code.Values} (hn : (us.map Prod.fst).Nodup)
    {u : NodeId × Value} (hu : u ∈ us) (ρ : Bindings) : ρ.overlay us u.1 = some u.2 := by
  rw [Bindings.overlay, lookup_of_mem hn hu, Option.some_or]

/-- The nodes that were passed, the latest first, each with the registers that
could be read behind it. -/
abbrev Trail := List (NodeId × Bindings)

/-- The trail is one of a graph. -/
inductive Trail.Ok (g : Graph) : Trail → Prop
  | start : Trail.Ok g [(Graph.start, fun _ => none)]
  | push {q ρ t m ρ' n} : Trail.Ok g ((q, ρ) :: t) → g.node? m = some n → n.kind.isFixed →
      q ∈ n.control → q < m → ρ.Le ρ' → (∀ x v, ρ' x = some v → ρ x = some v ∨ Owns g m x) →
      Trail.Ok g ((m, ρ') :: (q, ρ) :: t)

namespace Trail

variable {g : Graph} {t s : Trail} {q m : NodeId} {ρ ρ₀ : Bindings}

theorem Ok.of_suffix (h : Ok g t) (hs : s <:+ t) (hne : s ≠ []) : Ok g s := by
  induction h with
  | start =>
    rcases List.suffix_cons_iff.1 hs with rfl | hs
    · exact .start
    · exact absurd (List.suffix_nil.1 hs) hne
  | push h1 h2 h3 h4 h5 h6 h7 ih =>
    rcases List.suffix_cons_iff.1 hs with rfl | hs
    · exact .push h1 h2 h3 h4 h5 h6 h7
    · exact ih hs

/-- What could be read at some place can be read at every later one. -/
theorem Ok.le_of_suffix (h : Ok g ((q, ρ) :: t)) (hs : ((m, ρ₀) :: s) <:+ (q, ρ) :: t) :
    ρ₀.Le ρ := by
  generalize ht : (q, ρ) :: t = u at h hs
  induction h generalizing q ρ t with
  | start =>
    rcases List.suffix_cons_iff.1 hs with hs | hs
    · cases hs; cases ht; exact .refl _
    · exact absurd (List.suffix_nil.1 hs) (by simp)
  | push h1 _ _ _ _ h6 _ ih =>
    cases ht
    rcases List.suffix_cons_iff.1 hs with hs | hs
    · cases hs; exact .refl _
    · exact (ih rfl hs).trans h6

theorem Ok.le_top (h : Ok g ((q, ρ) :: t)) : ∀ e ∈ (q, ρ) :: t, e.1 ≤ q := by
  generalize ht : (q, ρ) :: t = u at h
  induction h generalizing q ρ t with
  | start => cases ht; simp
  | push h1 _ _ _ h5 _ _ ih =>
    cases ht
    intro e he
    rcases List.mem_cons.1 he with rfl | he
    · exact Nat.le_refl _
    · exact Nat.le_trans (ih rfl e he) (Nat.le_of_lt h5)

theorem Ok.lt_size (hf : g.Flows) (h : Ok g ((q, ρ) :: t)) : q < g.nodes.size := by
  cases h with
  | start =>
    obtain ⟨n, hn, -⟩ := hf.start
    exact Graph.lt_size_of_node? hn
  | push _ hn => exact Graph.lt_size_of_node? hn

/-- A register that can be read was set by a node of the trail. -/
theorem Ok.owner (h : Ok g ((q, ρ) :: t)) {x : NodeId} {v : Value} (hx : ρ x = some v) :
    ∃ e ∈ (q, ρ) :: t, Owns g e.1 x := by
  generalize ht : (q, ρ) :: t = u at h
  induction h generalizing q ρ t with
  | start => cases ht; cases hx
  | push h1 _ _ _ _ _ h7 ih =>
    cases ht
    rcases h7 x v hx with hx | hx
    · obtain ⟨e, he, ho⟩ := ih hx rfl
      exact ⟨e, List.mem_cons_of_mem _ he, ho⟩
    · exact ⟨_, List.mem_cons_self, hx⟩

/-- A node above the trail has set none of its registers. -/
theorem Ok.fresh (h : Ok g ((q, ρ) :: t)) (hm : q < m) {x : NodeId} (hx : Owns g m x) :
    ρ x = none := by
  cases hv : ρ x with
  | none => rfl
  | some v =>
    obtain ⟨e, he, ho⟩ := h.owner hv
    have := h.le_top e he
    have := ho.unique hx
    grind

/-- A trail that got into a loop has passed the loop's header, which it
reached over a forward edge. -/
theorem Ok.header (h : Ok g ((q, ρ) :: t)) {last : NodeId → NodeId}
    (hl : ∀ x nx, g.node? x = some nx → nx.kind.isFixed → m < x → x ≤ last m →
        ∀ q ∈ nx.control, m ≤ q ∧ q ≤ last m) (h1 : m ≤ q) (h2 : q ≤ last m)
    (hm : m ≠ Graph.start) :
    ∃ ρm e ρ₀ s n, ((m, ρm) :: (e, ρ₀) :: s) <:+ (q, ρ) :: t ∧ g.node? m = some n ∧ n.kind.isFixed ∧
      e ∈ n.control ∧ e < m := by
  generalize ht : (q, ρ) :: t = u at h
  induction h generalizing q ρ t with
  | start =>
    cases ht
    exact absurd (Nat.le_zero.1 h1) hm
  | @push q' ρ' t' m' ρ'' n h3 h4 h5 h6 h7 _ _ ih =>
    cases ht
    rcases Nat.lt_or_ge m m' with hlt | hge
    · obtain ⟨h8, h9⟩ := hl m' n h4 h5 hlt h2 q' h6
      obtain ⟨ρm, e, ρ₀, s, n', hs, hrest⟩ := ih h8 h9 rfl
      exact ⟨ρm, e, ρ₀, s, n', hs.trans (List.suffix_cons _ _), hrest⟩
    · obtain rfl := Nat.le_antisymm h1 hge
      exact ⟨_, q', ρ', t', n, List.suffix_refl _, h4, h5, h6, h7⟩

/-- Passing a node sets its registers. -/
theorem Ok.visit (h : Ok g ((q, ρ) :: t)) {n : Node} (hn : g.node? m = some n) (hx : n.kind.isFixed)
    (hq : q ∈ n.control) (hlt : q < m) {us : Code.Values} (ho : ∀ x ∈ us.map Prod.fst, Owns g m x) :
    Ok g ((m, ρ.overlay us) :: (q, ρ) :: t) ∧ ρ.Le (ρ.overlay us) := by
  have hle : ρ.Le (ρ.overlay us) := Bindings.le_overlay fun x hx => h.fresh hlt (ho x hx)
  exact ⟨.push h hn hx hq hlt hle fun x v hv => (Bindings.overlay_eq_some hv).imp_right (ho x), hle⟩

/-- Where control gets by an edge from the end of a trail: behind the same
trail, or behind the part of it that led to the header it comes back to. -/
theorem Ok.base (hf : g.Flows) (h : Ok g ((q, ρ) :: t)) {n : Node} (hn : g.node? m = some n)
    (hx : n.kind.isFixed) (hq : q ∈ n.control) :
    ∃ e ρ₀ s, ((e, ρ₀) :: s) <:+ (q, ρ) :: t ∧ e ∈ n.control ∧ e < m ∧
      (q < m → e = q ∧ ρ₀ = ρ ∧ s = t) ∧
      (m ≤ q → n.kind = .loopBegin ∧ n.control.head? = some e) := by
  obtain ⟨i, hi⟩ := List.getElem?_of_mem hq
  rcases hf.forward m n i q hn hx hi with ⟨hlt, -⟩ | ⟨hk, -, hge⟩
  · exact ⟨q, ρ, t, List.suffix_refl _, hq, hlt, fun _ => ⟨rfl, rfl, rfl⟩,
      fun hge => absurd hlt (Nat.not_lt.2 hge)⟩
  · obtain ⟨last, hl⟩ := hf.loops
    obtain ⟨hq', hin⟩ := hl m n hn hk
    have hm : m ≠ Graph.start := by
      rintro rfl
      obtain ⟨n', h1, h2⟩ := hf.start
      rw [h1] at hn
      cases hn
      simp [h2] at hk
    obtain ⟨ρm, e, ρ₀, s, n', hs, hn', -, he, hlt⟩ := h.header hin hge (hq' q hq) hm
    obtain rfl := Option.some.inj (hn.symm.trans hn')
    refine ⟨e, ρ₀, s, (List.suffix_cons _ _).trans hs, he, hlt,
      fun h => absurd h (Nat.not_lt.2 hge), fun _ => ⟨hk, ?_⟩⟩
    obtain ⟨j, hj⟩ := List.getElem?_of_mem he
    rcases hf.forward m n j e hn hx hj with ⟨-, hz⟩ | ⟨-, -, hge'⟩
    · rw [← hj, hz hk, List.head?_eq_getElem?]
    · exact absurd hlt (Nat.not_lt.2 hge')

end Trail

end TieredEngine

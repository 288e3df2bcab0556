import TieredEngine.Specialize.Eval
import TieredEngine.Proofs.Code.Trails
import TieredEngine.Proofs.Graph.Verified
/-!
# How the graph grows

Specialization only appends nodes, apart from the edges back to loop headers.
This module takes the building steps apart and says what a new node looks
like: it is attached to open ends of control or to other new nodes.
-/

namespace TieredEngine

namespace Specialize

variable {α β : Type}

/-! ## Running building steps -/

theorem run_bind {x : Build α} {f : α → Build β} {b b' : Building} {r : β}
    (h : (x >>= f).run b = .ok (r, b')) :
    ∃ a b₁, x.run b = .ok (a, b₁) ∧ (f a).run b₁ = .ok (r, b') := by
  rw [StateT.run_bind] at h
  cases hx : x.run b with
  | error e => rw [hx] at h; cases h
  | ok p => rw [hx] at h; exact ⟨p.1, p.2, rfl, h⟩

theorem run_pure {a r : α} {b b' : Building} (h : (pure a : Build α).run b = .ok (r, b')) :
    r = a ∧ b' = b := by
  rw [StateT.run_pure] at h
  cases h
  exact ⟨rfl, rfl⟩

theorem run_throw {e : CompileError} {r : α} {b b' : Building}
    (h : (throw e : Build α).run b = .ok (r, b')) : False := by
  cases h

/-- The building with one more node. -/
def Building.push (b : Building) (n : Node) : Building := { b with graph := (b.graph.add n).1 }

theorem run_addNode {n : Node} {id : NodeId} {b b' : Building}
    (h : (addNode n).run b = .ok (id, b')) :
    id = b.graph.nodes.size ∧ b' = b.push n := by
  cases h
  exact ⟨rfl, rfl⟩

@[simp]
theorem Building.size_push (b : Building) (n : Node) :
    (b.push n).graph.nodes.size = b.graph.nodes.size + 1 :=
  Graph.size_add _ _

@[simp]
theorem Building.returns_push (b : Building) (n : Node) : (b.push n).returns = b.returns := by
  rw [Building.push]

theorem Building.node?_push (b : Building) (n : Node) (id : NodeId) :
    (b.push n).graph.node? id = if id = b.graph.nodes.size then some n else b.graph.node? id :=
  Graph.node?_add _ _ _

theorem Building.node?_push_of {b : Building} {n n' : Node} {id : NodeId}
    (h : b.graph.node? id = some n') :
    (b.push n).graph.node? id = some n' := by
  rw [Building.node?_push, if_neg (Nat.ne_of_lt (Graph.lt_size_of_node? h)), h]

theorem Building.kind?_push_of {b : Building} {n : Node} {id : NodeId} {k : NodeKind}
    (h : b.graph.kind? id = some k) :
    (b.push n).graph.kind? id = some k := by
  obtain ⟨n', hn, hk⟩ := Graph.kind?_eq_some.1 h
  exact Graph.kind?_eq_some.2 ⟨n', Building.node?_push_of hn, hk⟩

/-- A rule for lists: what every step keeps, all of them keep. -/
theorem run_mapM {ι : Type} {f : ι → Build β} {is : List ι} {rs : List β} {b b' : Building}
    (h : (is.mapM f).run b = .ok (rs, b')) (Q : List β → Building → Prop) (h0 : Q [] b)
    (hs : ∀ i ∈ is, ∀ rs b₁ r b₂, Q rs b₁ → (f i).run b₁ = .ok (r, b₂) → Q (rs ++ [r]) b₂) :
    Q rs b' := by
  have general : ∀ (is : List ι) (rs₀ rs : List β) (b b' : Building),
      (is.mapM f).run b = .ok (rs, b') → Q rs₀ b →
      (∀ i ∈ is, ∀ rs b₁ r b₂, Q rs b₁ → (f i).run b₁ = .ok (r, b₂) → Q (rs ++ [r]) b₂) →
      Q (rs₀ ++ rs) b' := by
    intro is
    induction is with
    | nil =>
      intro rs₀ rs b b' h h0 _
      rw [List.mapM_nil] at h
      obtain ⟨rfl, rfl⟩ := run_pure h
      simpa using h0
    | cons i is ih =>
      intro rs₀ rs b b' h h0 hs
      rw [List.mapM_cons] at h
      obtain ⟨r, b₁, h1, h2⟩ := run_bind h
      obtain ⟨rs', b₂, h3, h4⟩ := run_bind h2
      obtain ⟨rfl, rfl⟩ := run_pure h4
      have := ih (rs₀ ++ [r]) rs' b₁ b' h3 (hs i List.mem_cons_self _ _ _ _ h0 h1)
        fun i hi => hs i (List.mem_cons_of_mem _ hi)
      simpa using this
  simpa using general is [] rs b b' h h0 hs

/-! ## New nodes -/

/-- A node of a growing graph that was appended at position `m`, at or above
`lo`, by a piece that started at the open ends `ps`. -/
structure NodeOk (ps : List NodeId) (lo : NodeId) (g : Graph) (m : NodeId) (n : Node) : Prop where
  notStart : n.kind ≠ .start
  /-- Phis are appended behind their merge, which is new too. -/
  phi : n.kind = .phi → ∃ merge, n.control = [merge] ∧ lo ≤ merge ∧ merge < m
  edges : n.kind.isFixed → ∀ i q, n.control[i]? = some q → (q ∈ ps ∨ lo ≤ q) ∧ q < g.nodes.size ∧
    ((q < m ∧ (n.kind = .loopBegin → i = 0)) ∨ (n.kind = .loopBegin ∧ 0 < i ∧ m ≤ q))
  loop : n.kind = .loopBegin → ∃ last < g.nodes.size, (∀ q ∈ n.control, q ≤ last) ∧ ∀ x nx,
    g.node? x = some nx → nx.kind.isFixed → m < x → x ≤ last → ∀ q ∈ nx.control, m ≤ q ∧ q ≤ last
  sides : n.kind = .branch → ∃ a b, m < a ∧ m < b ∧
    g.node? a = some { kind := .onTrue, control := [m] } ∧
    g.node? b = some { kind := .onFalse, control := [m] }
  narrowed : n.Narrowed

theorem NodeOk.mono {ps ps' : List NodeId} {lo lo' m : NodeId} {g g' : Graph} {n : Node}
    (h : NodeOk ps lo g m n) (hlo : lo' ≤ lo) (hps : ∀ q ∈ ps, q ∈ ps' ∨ lo' ≤ q)
    (hsize : g.nodes.size ≤ g'.nodes.size)
    (hold : ∀ id < g.nodes.size, m < id → g'.node? id = g.node? id) : NodeOk ps' lo' g' m n where
  notStart := h.notStart
  phi hk := by
    obtain ⟨merge, h1, h2, h3⟩ := h.phi hk
    exact ⟨merge, h1, hlo.trans h2, h3⟩
  edges hk i q hq := by
    obtain ⟨h1, h2, h3⟩ := h.edges hk i q hq
    exact ⟨h1.elim (hps q) fun h => .inr (hlo.trans h), h2.trans_le hsize, h3⟩
  loop hk := by
    obtain ⟨last, h1, h2, h3⟩ := h.loop hk
    refine ⟨last, h1.trans_le hsize, h2, fun x nx hx => ?_⟩
    intro hf hlt hle
    exact h3 x nx (by rw [← hold x (hle.trans_lt h1) hlt]; exact hx) hf hlt hle
  sides hk := by
    obtain ⟨a, b, ha, hb, h1, h2⟩ := h.sides hk
    exact ⟨a, b, ha, hb, by rw [hold a (Graph.lt_size_of_node? h1) ha, h1],
      by rw [hold b (Graph.lt_size_of_node? h2) hb, h2]⟩
  narrowed := h.narrowed

/-- A floating node that is no phi is fine if it is, as a frame state, made
for its inputs. -/
theorem NodeOk.floating {ps : List NodeId} {lo m : NodeId} {g : Graph} {n : Node}
    (h : n.kind.isFixed = false) (hp : n.kind ≠ .phi) (hs : n.Narrowed) : NodeOk ps lo g m n where
  narrowed := hs
  notStart hk := by simp [hk, NodeKind.isFixed] at h
  phi hk := absurd hk hp
  edges hk := by simp [h] at hk
  loop hk := by simp [hk, NodeKind.isFixed] at h
  sides hk := by simp [hk, NodeKind.isFixed] at h

/-- A fixed node behind an open end. -/
theorem NodeOk.behind {ps : List NodeId} {lo m q : NodeId} {g : Graph} {n : Node}
    (hc : n.control = [q]) (hq : q ∈ ps ∨ lo ≤ q) (hlt : q < m) (hm : m < g.nodes.size)
    (hf : n.kind.isFixed) (hs : n.kind ≠ .start) (hb : n.kind ≠ .branch) : NodeOk ps lo g m n where
  notStart := hs
  phi hk := by simp [hk, NodeKind.isFixed] at hf
  edges _ i x hx := by
    rw [hc] at hx
    cases i with
    | zero =>
      obtain rfl : q = x := by simpa using hx
      exact ⟨hq, hlt.trans hm, .inl ⟨hlt, fun _ => rfl⟩⟩
    | succ i => simp at hx
  narrowed := Node.narrowed_of_isFixed hf
  loop _ := by
    refine ⟨m, hm, fun x hx => ?_, fun x nx _ _ hlt hle => absurd hlt (Nat.not_lt.2 hle)⟩
    rw [hc, List.mem_singleton] at hx
    exact hx ▸ Nat.le_of_lt hlt
  sides hk := absurd hk hb

end Specialize

end TieredEngine

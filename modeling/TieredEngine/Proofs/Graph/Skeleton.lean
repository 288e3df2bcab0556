import TieredEngine.Proofs.Graph.Dominance
import TieredEngine.Proofs.Graph.Verified
/-!
# The control skeleton

What the passes rely on when they follow control: the start, the number of
edges of every node, and, where control gets, predecessors that are fixed
nodes and phis that fit their merges. Nothing is said about the values that
are read, so data may run in circles or lead to removed nodes. Every verified
graph has this shape: `Verified.skeleton`.
-/

namespace TieredEngine

/-! ## Edges of a node -/

theorem Node.Arity.exists_control {n : Node} (h : n.Arity) (hk : n.kind.isFixed)
    (hs : n.kind ≠ .start) : ∃ q, q ∈ n.control := by
  refine List.exists_mem_of_length_pos ?_
  revert h hk hs
  unfold Node.Arity
  cases n.kind <;> simp +contextual [NodeKind.isFixed, Nat.succ_le_iff]

/-- Only merges have several predecessors. -/
theorem Node.Arity.control_length_le {n : Node} (h : n.Arity) (hk : n.kind.isMerge = false) :
    n.control.length ≤ 1 := by
  revert h hk
  unfold Node.Arity
  cases n.kind <;> simp +contextual [NodeKind.isMerge]

/-- Of the floating nodes only phis have a control edge. -/
theorem Node.Arity.control_eq_nil {n : Node} (h : n.Arity) (hk : n.kind.isFixed = false)
    (hp : n.kind ≠ .phi) :
    n.control = [] := by
  revert h hk hp
  unfold Node.Arity
  cases n.kind <;> simp +contextual [NodeKind.isFixed]

namespace Graph

/-- Where control gets, the fixed nodes and the phis are put together well. -/
structure Skeleton (g : Graph) : Prop where
  start : g.kind? Graph.start = some .start
  only : ∀ m n, g.node? m = some n → n.kind = .start → m = Graph.start
  below : ∀ m n x, g.node? m = some n → x ∈ n.edges → x < g.nodes.size
  arity : ∀ m n, g.node? m = some n → n.Arity
  behind : ∀ m n q, g.node? m = some n → n.kind.isFixed → g.Reached m → q ∈ n.control →
    ∃ k, g.kind? q = some k ∧ k.isFixed ∧ (n.kind.isSide → k = .branch)
  phis : ∀ x n, g.node? x = some n → n.kind = .phi → ∃ m, n.control = [m] ∧ ∀ nm,
    g.node? m = some nm → nm.kind.isMerge ∧ (g.Reached m → n.inputs.length = nm.control.length)

variable {g : Graph} {q m x : NodeId} {n : Node}

/-! ## Verified graphs -/

theorem Clean.below (h : g.Clean) (hn : g.node? m = some n) (hx : x ∈ n.edges) :
    x < g.nodes.size := by
  obtain ⟨nx, hnx⟩ := Option.isSome_iff_exists.1 (h m n hn x hx)
  exact lt_size_of_node? hnx

theorem Verified.skeleton (h : g.Verified) : g.Skeleton where
  start := h.start
  only := h.only
  below _ _ _ hn hx := h.clean.below hn hx
  arity := h.arity
  behind m n q hn hk _ hq := by
    obtain ⟨k, h1, h2⟩ := h.behind m n q hn hk hq
    refine ⟨k, h1, h2, fun hs => ?_⟩
    exact Option.some.inj (h1.symm.trans (h.sides m n q hn hs hq))
  phis x n hn hk := by
    have hlen : n.control.length = 1 := by simpa [Node.Arity, hk] using h.arity x n hn
    obtain ⟨m, hm⟩ := List.length_eq_one_iff.1 hlen
    refine ⟨m, hm, fun nm hnm => ?_⟩
    obtain ⟨nm', hnm', hmerge, hin⟩ := h.phis x n m hn hk (by simp [hm])
    obtain rfl := Option.some.inj (hnm.symm.trans hnm')
    exact ⟨hmerge, fun _ => hin⟩

/-! ## Following control -/

theorem Skeleton.start_lt (h : g.Skeleton) : Graph.start < g.nodes.size := by
  obtain ⟨n, hn, -⟩ := kind?_eq_some.1 h.start
  exact lt_size_of_node? hn

theorem reached_start (g : Graph) : g.Reached Graph.start := ⟨[], .start⟩

theorem Skeleton.not_follows_start (h : g.Skeleton) : ¬ g.Follows q Graph.start := by
  rintro ⟨n, hn, -, hq⟩
  have harity := h.arity _ _ hn
  rw [Node.Arity, kind?_of_node? hn h.start] at harity
  rw [List.length_eq_zero_iff.1 harity.2] at hq
  cases hq

theorem Skeleton.ne_start_of_follows (h : g.Skeleton) (hf : g.Follows q m) : m ≠ Graph.start := by
  rintro rfl
  exact h.not_follows_start hf

/-- Another node than a merge is entered from one side. -/
theorem Skeleton.eq_of_follows {q' : NodeId} (h : g.Skeleton) (hn : g.node? m = some n)
    (hk : n.kind.isMerge = false) (hq : g.Follows q m) (hq' : g.Follows q' m) : q = q' := by
  obtain ⟨n₁, hn₁, -, hmem⟩ := hq
  obtain ⟨n₂, hn₂, -, hmem'⟩ := hq'
  obtain rfl := Option.some.inj (hn.symm.trans hn₁)
  obtain rfl := Option.some.inj (hn.symm.trans hn₂)
  have hlen := (h.arity m n hn).control_length_le hk
  obtain ⟨y, hy⟩ := List.length_eq_one_iff.1 (Nat.le_antisymm hlen (List.length_pos_of_mem hmem))
  rw [hy, List.mem_singleton] at hmem hmem'
  rw [hmem, hmem']

theorem Reached.exists_node (h : g.Skeleton) (hr : g.Reached m) :
    ∃ n, g.node? m = some n ∧ n.kind.isFixed := by
  obtain ⟨π, hπ⟩ := hr
  cases hπ with
  | start =>
    obtain ⟨n, hn, hk⟩ := kind?_eq_some.1 h.start
    exact ⟨n, hn, by rw [hk]; rfl⟩
  | step _ hf =>
    obtain ⟨n, hn, hk, -⟩ := hf
    exact ⟨n, hn, hk⟩

/-- Only merges have phis. -/
theorem Skeleton.phisOf_eq_nil (h : g.Skeleton) (hn : g.node? m = some n)
    (hk : n.kind.isMerge = false) : g.phisOf m = [] := by
  refine List.eq_nil_iff_forall_not_mem.2 fun x hx => ?_
  obtain ⟨nx, hnx, hkx, hc⟩ := mem_phisOf.1 hx
  obtain ⟨m', hm', hrest⟩ := h.phis x nx hnx hkx
  obtain rfl : m' = m := by simpa [hm'] using hc
  rw [(hrest n hn).1] at hk
  cases hk

end Graph

end TieredEngine

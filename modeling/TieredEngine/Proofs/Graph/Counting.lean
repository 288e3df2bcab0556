import Mathlib.Data.Finset.Card
import TieredEngine.Proofs.Graph.Views
/-!
# Counting nodes

The number of nodes as the size of the set of their positions, so that graphs
are compared position by position.
-/

namespace TieredEngine

namespace Graph

variable {g g' : Graph} {x : NodeId}

/-- The positions that hold a node. -/
def nodeSet (g : Graph) : Finset NodeId := g.nodeIds.toFinset

theorem mem_nodeSet : x ∈ g.nodeSet ↔ g.contains x := by
  rw [nodeSet, List.mem_toFinset, contains_iff]
  constructor
  · intro hx
    obtain ⟨e, he, rfl⟩ := List.mem_map.1 hx
    exact ⟨e.2, mem_entries.1 he⟩
  · rintro ⟨n, hn⟩
    exact List.mem_map.2 ⟨(x, n), mem_entries.2 hn, rfl⟩

theorem nodeCount_eq_card (g : Graph) : g.nodeCount = g.nodeSet.card := by
  rw [nodeSet, List.toFinset_card_of_nodup g.nodeIds_nodup, nodeIds, List.length_map, nodeCount]

theorem nodeCount_le (h : ∀ x, g'.contains x → g.contains x) : g'.nodeCount ≤ g.nodeCount := by
  rw [nodeCount_eq_card, nodeCount_eq_card]
  exact Finset.card_le_card fun x hx => mem_nodeSet.2 (h x (mem_nodeSet.1 hx))

theorem nodeCount_congr (h : g'.contains = g.contains) : g'.nodeCount = g.nodeCount :=
  Nat.le_antisymm (nodeCount_le fun _ hx => h ▸ hx) (nodeCount_le fun _ hx => h ▸ hx)

/-- Without some of its nodes a graph has that many fewer. -/
theorem nodeCount_of_removed {ids : List NodeId} (hnd : ids.Nodup) (hin : ∀ x ∈ ids, g.contains x)
    (h : ∀ x, g'.contains x ↔ g.contains x ∧ x ∉ ids) :
    ids.length + g'.nodeCount = g.nodeCount := by
  have hsub : ids.toFinset ⊆ g.nodeSet := fun x hx => mem_nodeSet.2 (hin x (List.mem_toFinset.1 hx))
  have hdiff : g'.nodeSet = g.nodeSet \ ids.toFinset := by
    ext x
    rw [Finset.mem_sdiff, mem_nodeSet, mem_nodeSet, List.mem_toFinset, h]
  rw [nodeCount_eq_card, nodeCount_eq_card, hdiff, ← List.toFinset_card_of_nodup hnd, Nat.add_comm]
  exact Finset.card_sdiff_add_card_eq_card hsub

theorem contains_removeAll {ids : List NodeId} :
    (g.removeAll ids).contains x ↔ g.contains x ∧ x ∉ ids := by
  unfold contains
  rw [node?_removeAll]
  by_cases hx : x ∈ ids <;> simp [hx]

theorem nodeCount_removeAll {ids : List NodeId} (hnd : ids.Nodup) (hin : ∀ x ∈ ids, g.contains x) :
    ids.length + (g.removeAll ids).nodeCount = g.nodeCount :=
      nodeCount_of_removed hnd hin fun _ => contains_removeAll

/-- A graph that has lost a node has fewer. -/
theorem nodeCount_lt (h : ∀ y, g'.contains y → g.contains y) (hx : g.contains x)
    (hx' : ¬ g'.contains x) :
    g'.nodeCount < g.nodeCount := by
  rw [nodeCount_eq_card, nodeCount_eq_card]
  refine Finset.card_lt_card
    ((Finset.ssubset_iff_of_subset fun y hy => mem_nodeSet.2 (h y (mem_nodeSet.1 hy))).2 ?_)
  exact ⟨x, mem_nodeSet.2 hx, fun hmem => hx' (mem_nodeSet.1 hmem)⟩

end Graph

end TieredEngine

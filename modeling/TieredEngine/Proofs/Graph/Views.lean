import Mathlib.Data.List.Nodup
import Mathlib.Data.List.Range
import TieredEngine.Graph.Flow
/-!
# Reading graphs

What the views of a graph say about its nodes: who is a successor, which phis
a merge has, and what is at a position after a change. Everything here is in
terms of `node?`.
-/

namespace TieredEngine

/-! ## Association lists -/

section

variable {α β : Type} [BEq α] [LawfulBEq α] {l : List (α × β)} {a : α} {b : β}

theorem mem_of_lookup (h : l.lookup a = some b) : (a, b) ∈ l := by
  induction l with
  | nil => cases h
  | cons u l ih =>
    obtain ⟨k, w⟩ := u
    rw [List.lookup_cons] at h
    split at h
    · obtain rfl := eq_of_beq ‹_›
      obtain rfl := Option.some.inj h
      exact List.mem_cons_self
    · exact List.mem_cons_of_mem _ (ih h)

theorem lookup_of_mem (hn : (l.map Prod.fst).Nodup) (h : (a, b) ∈ l) : l.lookup a = some b := by
  induction l with
  | nil => cases h
  | cons u l ih =>
    obtain ⟨k, w⟩ := u
    rw [List.map_cons, List.nodup_cons] at hn
    rw [List.lookup_cons]
    rcases List.mem_cons.1 h with h' | h'
    · cases h'
      simp
    · have hne : (a == k) = false := by
        rw [beq_eq_false_iff_ne]
        rintro rfl
        exact hn.1 (List.mem_map.2 ⟨_, h', rfl⟩)
      rw [hne]
      exact ih hn.2 h'

end

/-! ## Positions in a list -/

theorem idxOf?_of_nodup {l : List NodeId} {q : NodeId} (hl : l.Nodup) {i : Nat}
    (h : l[i]? = some q) : l.idxOf? q = some i := by
  obtain ⟨hi, rfl⟩ := List.getElem?_eq_some_iff.1 h
  refine List.findIdx?_eq_some_iff_getElem.2 ⟨hi, by simp, fun j hj => ?_⟩
  have hne : l[j] ≠ l[i] := fun he => by
    have := (List.Nodup.getElem_inj_iff hl).1 he
    omega
  simpa using hne

theorem getElem?_of_idxOf? {l : List NodeId} {q : NodeId} {i : Nat} (h : l.idxOf? q = some i) :
    l[i]? = some q := by
  obtain ⟨hi, hq, -⟩ := List.findIdx?_eq_some_iff_getElem.1 h
  rw [List.getElem?_eq_getElem hi]
  simpa using hq

namespace Graph

variable {g : Graph} {id x : NodeId} {n : Node}

/-! ## Entries -/

theorem contains_iff : g.contains id ↔ ∃ n, g.node? id = some n := by
  rw [contains, Option.isSome_iff_exists]

theorem lt_size_of_node? (h : g.node? id = some n) : id < g.nodes.size := by
  by_contra hlt
  rw [node?, Array.getElem?_eq_none (by simpa using hlt)] at h
  cases h

theorem mem_entries {e : NodeId × Node} : e ∈ g.entries ↔ g.node? e.1 = some e.2 := by
  rw [entries, List.mem_filterMap]
  constructor
  · rintro ⟨id, -, h⟩
    obtain ⟨n, hn, rfl⟩ := Option.map_eq_some_iff.1 h
    exact hn
  · intro h
    exact ⟨e.1, List.mem_range.2 (lt_size_of_node? h), by rw [h]; rfl⟩

theorem entries_pairwise (g : Graph) : g.entries.Pairwise fun a b => a.1 < b.1 := by
  rw [entries, List.pairwise_filterMap]
  refine List.pairwise_lt_range.imp fun {i j} hij a ha b hb => ?_
  obtain ⟨n, -, rfl⟩ := Option.map_eq_some_iff.1 ha
  obtain ⟨n', -, rfl⟩ := Option.map_eq_some_iff.1 hb
  exact hij

theorem entries_filter_nodup (g : Graph) (p : NodeId × Node → Bool) :
    ((g.entries.filter p).map Prod.fst).Nodup := by
  rw [List.Nodup, List.pairwise_map]
  exact (g.entries_pairwise.filter p).imp fun h => Nat.ne_of_lt h

theorem nodeIds_nodup (g : Graph) : g.nodeIds.Nodup := by
  have := g.entries_filter_nodup fun _ => true
  rwa [List.filter_true] at this

/-! ## Successors -/

theorem mem_inFlowOrder {es : List (NodeId × Node)} {e : NodeId × Node} :
    e ∈ inFlowOrder es ↔ e ∈ es := by
  simp only [inFlowOrder, List.mem_append, List.mem_filter, Bool.and_eq_true, decide_eq_true_eq]
  tauto

theorem mem_successors :
    x ∈ g.successors id ↔ ∃ n, g.node? x = some n ∧ n.kind.isFixed ∧ id ∈ n.control := by
  simp only [successors, List.mem_map, mem_inFlowOrder, List.mem_filter, mem_entries, flowEdges]
  constructor
  · rintro ⟨⟨y, n⟩, ⟨h1, h2⟩, rfl⟩
    by_cases hf : n.kind.isFixed
    · exact ⟨n, h1, hf, by simpa [hf] using h2⟩
    · simp [hf] at h2
  · rintro ⟨n, h1, h2, h3⟩
    exact ⟨(x, n), ⟨h1, by simpa [h2] using h3⟩, rfl⟩

/-- A node whose only successor is known. -/
theorem successors_eq_singleton (hx : x ∈ g.successors id) (hl : (g.successors id).length = 1) :
    g.successors id = [x] := by
  obtain ⟨y, hy⟩ := List.length_eq_one_iff.1 hl
  rw [hy] at hx ⊢
  rw [List.mem_singleton.1 hx]

theorem successors_eq_pair {a b : NodeId} {na nb : Node} (ha : g.node? a = some na)
    (hb : g.node? b = some nb) (hka : na.kind = .onTrue) (hkb : nb.kind = .onFalse)
    (hca : id ∈ na.control) (hcb : id ∈ nb.control) (hl : (g.successors id).length = 2) :
    g.successors id = [a, b] := by
  let es := g.entries.filter fun e => (flowEdges e.2).contains id
  have hlen : (es.filter fun e => e.2.kind = .onTrue).length +
      (es.filter fun e => e.2.kind = .onFalse).length +
      (es.filter fun e => e.2.kind ≠ .onTrue && e.2.kind ≠ .onFalse).length = 2 := by
    rw [← hl];
      simp only [successors, inFlowOrder, List.map_append, List.length_append, List.length_map, es]
  have hma : (a, na) ∈ es.filter fun e => e.2.kind = .onTrue := by
    simp only [es, List.mem_filter, mem_entries, flowEdges, hka, NodeKind.isFixed]
    exact ⟨⟨ha, by simpa using hca⟩, by simp⟩
  have hmb : (b, nb) ∈ es.filter fun e => e.2.kind = .onFalse := by
    simp only [es, List.mem_filter, mem_entries, flowEdges, hkb, NodeKind.isFixed]
    exact ⟨⟨hb, by simpa using hcb⟩, by simp⟩
  have h1 := List.length_pos_of_mem hma
  have h2 := List.length_pos_of_mem hmb
  obtain ⟨y, hy⟩ :=
    List.length_eq_one_iff.1 (show (es.filter fun e => e.2.kind = .onTrue).length = 1 by omega)
  obtain ⟨z, hz⟩ :=
    List.length_eq_one_iff.1 (show (es.filter fun e => e.2.kind = .onFalse).length = 1 by omega)
  have h3 := List.length_eq_zero_iff.1
    (show (es.filter fun e => e.2.kind ≠ .onTrue && e.2.kind ≠ .onFalse).length = 0 by
    omega)
  rw [hy] at hma
  rw [hz] at hmb
  rw [successors, inFlowOrder, hy, hz, h3, ← List.mem_singleton.1 hma, ← List.mem_singleton.1 hmb]
  rfl

/-! ## Phis -/

theorem mem_phisOf :
    x ∈ g.phisOf id ↔ ∃ n, g.node? x = some n ∧ n.kind = .phi ∧ n.control.head? = some id := by
  simp only [phisOf, List.mem_map, List.mem_filter, mem_entries, phiEdges]
  constructor
  · rintro ⟨⟨y, n⟩, ⟨h1, h2⟩, rfl⟩
    by_cases hk : n.kind = .phi
    · refine ⟨n, h1, hk, ?_⟩
      simpa [hk, Option.mem_toList, eq_comm] using h2
    · simp [hk] at h2
  · rintro ⟨n, h1, h2, h3⟩
    exact ⟨(x, n), ⟨h1, by simp [h2, h3]⟩, rfl⟩

theorem phisOf_nodup (g : Graph) (id : NodeId) : (g.phisOf id).Nodup := g.entries_filter_nodup _

/-! ## Changes -/

theorem node?_add (g : Graph) (n : Node) (x : NodeId) :
    (g.add n).1.node? x = if x = g.nodes.size then some n else g.node? x := by
  simp only [node?, add, Array.getElem?_push]
  by_cases h : x = g.nodes.size <;> simp [h]

theorem node?_modify (g : Graph) (id : NodeId) (f : Node → Node) (x : NodeId) :
    (g.modify id f).node? x = if x = id then (g.node? id).map f else g.node? x := by
  simp only [node?, modify, Array.getElem?_modify]
  by_cases h : x = id
  · subst h
    cases g.nodes[x]? with
    | none => simp
    | some n => cases n <;> simp
  · simp [h, Ne.symm h]

theorem node?_mapNodes (g : Graph) (f : Node → Node) (x : NodeId) :
    (g.mapNodes f).node? x = (g.node? x).map f := by
  simp only [node?, mapNodes, Array.getElem?_map]
  cases g.nodes[x]? with
  | none => rfl
  | some n => cases n <;> rfl

theorem node?_remove (g : Graph) (id x : NodeId) :
    (g.remove id).node? x = if x = id then none else g.node? x := by
  simp only [node?, remove, Array.getElem?_setIfInBounds]
  by_cases h : x = id
  · subst h
    by_cases hx : x < g.nodes.size <;> simp [hx]
  · simp [h, Ne.symm h]

theorem node?_removeAll (g : Graph) (ids : List NodeId) (x : NodeId) :
    (g.removeAll ids).node? x = if x ∈ ids then none else g.node? x := by
  induction ids generalizing g with
  | nil => simp [removeAll]
  | cons id ids ih =>
    rw [removeAll, List.foldl_cons, ← removeAll, ih, node?_remove]
    by_cases h : x ∈ ids
    · simp [h]
    · by_cases h' : x = id <;> simp [h, h']

@[simp]
theorem size_modify (g : Graph) (id : NodeId) (f : Node → Node) :
    (g.modify id f).nodes.size = g.nodes.size := by
  simp [modify]

@[simp]
theorem size_add (g : Graph) (n : Node) : (g.add n).1.nodes.size = g.nodes.size + 1 := by
  simp [add]

@[simp]
theorem size_mapNodes (g : Graph) (f : Node → Node) : (g.mapNodes f).nodes.size = g.nodes.size := by
  simp [mapNodes]

@[simp]
theorem size_remove (g : Graph) (id : NodeId) : (g.remove id).nodes.size = g.nodes.size := by
  simp [remove]

theorem size_removeAll (g : Graph) (ids : List NodeId) :
    (g.removeAll ids).nodes.size = g.nodes.size := by
  induction ids generalizing g with
  | nil => rfl
  | cons id ids ih => rw [removeAll, List.foldl_cons, ← removeAll, ih, size_remove]

theorem kind?_eq_some {k : NodeKind} :
    g.kind? id = some k ↔ ∃ n, g.node? id = some n ∧ n.kind = k := by
  simp [kind?]

theorem kind?_of_node? {k : NodeKind} (hn : g.node? id = some n) (hk : g.kind? id = some k) :
    n.kind = k := by
  simpa [kind?, hn] using hk

theorem mem_idsWhere {p : NodeKind → Bool} : x ∈ g.idsWhere p ↔ ∃ k, g.kind? x = some k ∧ p k := by
  unfold idsWhere
  constructor
  · intro h
    obtain ⟨⟨x, n⟩, he, rfl⟩ := List.mem_map.1 h
    obtain ⟨hmem, hp⟩ := List.mem_filter.1 he
    exact ⟨n.kind, kind?_eq_some.2 ⟨n, mem_entries.1 hmem, rfl⟩, hp⟩
  · rintro ⟨k, hk, hp⟩
    obtain ⟨n, hn, rfl⟩ := kind?_eq_some.1 hk
    exact List.mem_map.2 ⟨(x, n), List.mem_filter.2 ⟨mem_entries.2 hn, hp⟩, rfl⟩

end Graph

end TieredEngine

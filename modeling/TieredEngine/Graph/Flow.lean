import TieredEngine.Graph.Control
/-!
# Flow tables

The successors of every node and the phis of every merge, worked out in one
pass over the graph. A `Flow` gives the same answers as `Graph.successors` and
`Graph.phisOf` (`Flow.successors_eq`, `Flow.phisOf_eq`), so it is used
wherever many nodes are asked about and never shows in a result.
-/

namespace TieredEngine

/-! ## Collecting by key -/

section Collect

variable {α β : Type}

/-- Append `b` to the lists at some positions of a table, to each of them
once. -/
def appendAt (b : β) : List Nat → Array (List β) → Array (List β)
  | [], t => t
  | k :: ks, t => if k ∈ ks then appendAt b ks t else appendAt b ks (t.modify k (· ++ [b]))

/-- The table whose list at position `k` has, in order, the values of the
members with key `k`. -/
def collect (size : Nat) (keys : α → List Nat) (value : α → β) (xs : List α) : Array (List β) :=
  xs.foldl (fun t x => appendAt (value x) (keys x) t) (Array.replicate size [])

theorem getElem?_appendAt (b : β) (ks : List Nat) (t : Array (List β)) (k : Nat) :
    (appendAt b ks t)[k]? = if k ∈ ks then t[k]?.map (· ++ [b]) else t[k]? := by
  induction ks generalizing t with
  | nil => simp [appendAt]
  | cons j ks ih =>
    rw [appendAt]
    by_cases hj : j ∈ ks
    · rw [if_pos hj, ih]
      by_cases hk : k = j
      · subst hk; simp [hj]
      · simp [hk]
    · rw [if_neg hj, ih]
      by_cases hk : k = j
      · subst hk; simp [hj, Array.getElem?_modify]
      · have hjk : ¬ j = k := fun h => hk h.symm
        simp [hk, hjk, Array.getElem?_modify]

theorem getElem?_foldl_appendAt (keys : α → List Nat) (value : α → β) (xs : List α)
    (t : Array (List β)) (k : Nat) :
    (xs.foldl (fun t x => appendAt (value x) (keys x) t) t)[k]? =
      t[k]?.map (· ++ (xs.filter fun x => (keys x).contains k).map value) := by
  induction xs generalizing t with
  | nil => simp
  | cons x xs ih =>
    rw [List.foldl_cons, ih, getElem?_appendAt]
    by_cases hx : k ∈ keys x
    · simp [hx, Function.comp_def]
    · simp [hx]

theorem eq_of_getElem?_collect {size : Nat} {keys : α → List Nat} {value : α → β} {xs : List α}
    {k : Nat} {l : List β} (h : (collect size keys value xs)[k]? = some l) :
    l = (xs.filter fun x => (keys x).contains k).map value := by
  rw [collect, getElem?_foldl_appendAt] at h
  by_cases hk : k < size
  · simpa [Array.getElem?_replicate, hk, eq_comm] using h
  · simp [hk] at h

end Collect

/-! ## Tables of a graph -/

/-- The successors and phis of the positions of a graph. -/
structure Flow (g : Graph) where
  after : Array (List NodeId)
  phis : Array (List NodeId)
  after_eq : ∀ id l, after[id]? = some l → l = g.successors id
  phis_eq : ∀ id l, phis[id]? = some l → l = g.phisOf id

namespace Flow

variable {g : Graph}

/-- The successors of a node, looked up. -/
def successors (f : Flow g) (id : NodeId) : List NodeId :=
  match f.after[id]? with
  | some l => l
  | none => g.successors id

@[simp]
theorem successors_eq (f : Flow g) (id : NodeId) : f.successors id = g.successors id := by
  unfold successors
  split
  · exact f.after_eq id _ (by assumption)
  · rfl

/-- The phis of a merge, looked up. -/
def phisOf (f : Flow g) (merge : NodeId) : List NodeId :=
  match f.phis[merge]? with
  | some l => l
  | none => g.phisOf merge

@[simp]
theorem phisOf_eq (f : Flow g) (merge : NodeId) : f.phisOf merge = g.phisOf merge := by
  unfold phisOf
  split
  · exact f.phis_eq merge _ (by assumption)
  · rfl

end Flow

/-- The tables of a graph. -/
def Graph.flow (g : Graph) : Flow g where
  after := collect g.nodes.size (fun e => flowEdges e.2) Prod.fst (inFlowOrder g.entries)
  phis := collect g.nodes.size (fun e => phiEdges e.2) Prod.fst g.entries
  after_eq id l h := by
    rw [eq_of_getElem?_collect h, Graph.successors, Graph.inFlowOrder_filter]
  phis_eq id l h := by
    rw [eq_of_getElem?_collect h, Graph.phisOf]

end TieredEngine

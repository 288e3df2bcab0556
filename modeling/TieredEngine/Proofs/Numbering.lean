import Mathlib.Data.List.Nodup
import TieredEngine.Frame
import TieredEngine.Routine
/-!
# Numbered trees

Every view of an expression is said once for all its forms, in terms of
`children`. In a tree numbered in pre-order the ids of a subtree are an
interval, so the ids of siblings differ, and the search for an id finds the
only expression that has it.
-/

namespace TieredEngine

/-! ## Elements at a word -/

theorem mem_of_atWord? {α : Type} {xs : List α} {w : UInt64} {x : α} (h : atWord? xs w = some x) :
    x ∈ xs := by
  rw [atWord?] at h
  split at h
  · exact List.mem_of_getElem? h
  · cases h

theorem atWord?_map {α β : Type} (f : α → β) (xs : List α) (w : UInt64) :
    atWord? (xs.map f) w = (atWord? xs w).map f := by
  rw [atWord?, atWord?]
  split
  · exact List.getElem?_map ..
  · rfl

namespace Expr

/-! ## Views in terms of children -/

theorem nodeCount_eq (e : Expr) : e.nodeCount = 1 + nodeCountAll e.children := by
  cases e <;> simp only [nodeCount, children, nodeCountAll] <;> omega

theorem nodeCount_pos (e : Expr) : 0 < e.nodeCount := by
  rw [nodeCount_eq]; omega

theorem nodeCount_le_of_mem {c : Expr} {es : List Expr} (h : c ∈ es) :
    c.nodeCount ≤ nodeCountAll es := by
  induction es with
  | nil => cases h
  | cons e es ih =>
    rw [nodeCountAll]
    rcases List.mem_cons.1 h with rfl | h
    · omega
    · have := ih h; omega

theorem length_le_nodeCountAll (es : List Expr) : es.length ≤ nodeCountAll es := by
  induction es with
  | nil => exact Nat.le_refl _
  | cons e es ih =>
    have hpos := e.nodeCount_pos
    rw [nodeCountAll, List.length_cons]
    omega

/-- Before an expression of a list there are as many others as its position
says. -/
theorem add_nodeCount_le {es : List Expr} {c : Expr} : ∀ {i : Nat}, es[i]? = some c →
    i + c.nodeCount ≤ nodeCountAll es := by
  induction es with
  | nil => simp
  | cons e es ih =>
    intro i h
    have hpos := e.nodeCount_pos
    rw [nodeCountAll]
    cases i with
    | zero =>
      obtain rfl : e = c := by simpa using h
      omega
    | succ i =>
      have := ih (by simpa using h)
      omega

/-- To prove something of every expression, prove it of an expression whose
children have it. -/
theorem induction_children {P : Expr → Prop} (step : ∀ e : Expr, (∀ c ∈ e.children, P c) → P e)
    (e : Expr) : P e := by
  have main : ∀ n, ∀ e : Expr, e.nodeCount ≤ n → P e := by
    intro n
    induction n with
    | zero => intro e h; have := e.nodeCount_pos; omega
    | succ n ih =>
      intro e h
      refine step e fun c hc => ih c ?_
      have := nodeCount_le_of_mem hc
      rw [nodeCount_eq] at h
      omega
  exact main _ e (Nat.le_refl _)

theorem preorder_eq (e : Expr) : e.preorder = e :: preorderAll e.children := by
  cases e <;> simp [preorder, children, preorderAll]

theorem mem_preorderAll {x : Expr} {es : List Expr} :
    x ∈ preorderAll es ↔ ∃ e ∈ es, x ∈ e.preorder := by
  induction es with
  | nil => simp [preorderAll]
  | cons e es ih => simp [preorderAll, ih]

theorem self_mem_preorder (e : Expr) : e ∈ e.preorder := by
  rw [preorder_eq]; exact List.mem_cons_self

theorem preorder_subset_of_mem_children {c e : Expr} (h : c ∈ e.children) :
    c.preorder ⊆ e.preorder := by
  intro x hx
  rw [preorder_eq e]
  exact List.mem_cons_of_mem _ (mem_preorderAll.2 ⟨c, h, hx⟩)

theorem pathTo_eq (goal : Nat) (e : Expr) :
    pathTo goal e = if e.id = goal then some [e] else (pathToAny goal e.children).map (e :: ·) := by
  cases e <;>
    simp only [pathTo, stepTo, children, pathToAny, Expr.id, Option.or_none, Option.map_none,
      Option.or_assoc] <;>
    rfl

/-- The operands are the first children. -/
theorem operands_prefix (e : Expr) : e.operands <+: e.children := by
  cases e <;> simp [operands, children]

theorem getElem?_operands {e : Expr} {i : Nat} (h : i < e.operands.length) :
    e.operands[i]? = e.children[i]? := by
  obtain ⟨t, ht⟩ := e.operands_prefix
  rw [← ht, List.getElem?_append_left h]

theorem length_operands_lt (e : Expr) : e.operands.length < e.nodeCount := by
  have hle := Nat.le_trans e.operands_prefix.length_le (length_le_nodeCountAll e.children)
  rw [nodeCount_eq]
  omega

theorem operands_subset (e : Expr) : e.operands ⊆ e.children := e.operands_prefix.subset

/-! ## Numbered trees -/

theorem number_id (e : Expr) (k : Nat) : (e.number k).id = k := by
  cases e <;> simp [number, Expr.id]

theorem number_children (e : Expr) (k : Nat) :
    (e.number k).children = numberAll e.children (k + 1) := by
  cases e <;> simp [number, children, numberAll, Nat.add_assoc]

theorem nodeCountAll_numberAll_of {es : List Expr}
    (h : ∀ c ∈ es, ∀ k, (c.number k).nodeCount = c.nodeCount) (k : Nat) :
    nodeCountAll (numberAll es k) = nodeCountAll es := by
  induction es generalizing k with
  | nil => rfl
  | cons e es ih =>
    rw [numberAll, nodeCountAll, nodeCountAll, h e List.mem_cons_self,
      ih fun c hc => h c (List.mem_cons_of_mem _ hc)]

@[simp]
theorem nodeCount_number (e : Expr) (k : Nat) : (e.number k).nodeCount = e.nodeCount := by
  induction e using induction_children generalizing k with
  | step e ih =>
    rw [nodeCount_eq, number_children, nodeCountAll_numberAll_of (fun c hc k => ih c hc k),
      ← nodeCount_eq]

/-- The tree is numbered in pre-order from `k`. -/
def NumberedFrom (k : Nat) (e : Expr) : Prop := ∃ e₀ : Expr, e = e₀.number k

theorem NumberedFrom.id_eq {k : Nat} {e : Expr} (h : e.NumberedFrom k) : e.id = k := by
  obtain ⟨e₀, rfl⟩ := h
  exact number_id e₀ k

theorem getElem?_numberAll {es : List Expr} {k : Nat} {i : Nat} {c : Expr}
    (h : (numberAll es k)[i]? = some c) :
    c.NumberedFrom (k + nodeCountAll (es.take i)) ∧
      nodeCountAll (es.take i) + c.nodeCount ≤ nodeCountAll es := by
  induction es generalizing k i with
  | nil => simp [numberAll] at h
  | cons e es ih =>
    rw [numberAll] at h
    cases i with
    | zero =>
      obtain rfl : e.number k = c := by simpa using h
      exact ⟨⟨e, by simp [nodeCountAll]⟩, by simp [nodeCountAll]⟩
    | succ i =>
      obtain ⟨h1, h2⟩ := ih (by simpa using h)
      rw [List.take_succ_cons, nodeCountAll, nodeCountAll]
      exact ⟨by rwa [Nat.add_assoc] at h1, by omega⟩

/-- The child at a position of a numbered tree is numbered from behind the
children before it. -/
theorem NumberedFrom.child {k : Nat} {e c : Expr} {i : Nat} (h : e.NumberedFrom k)
    (hc : e.children[i]? = some c) :
    ∃ j : Nat, k < j ∧ c.NumberedFrom j ∧ j + c.nodeCount ≤ k + e.nodeCount := by
  obtain ⟨e₀, rfl⟩ := h
  rw [number_children] at hc
  obtain ⟨h1, h2⟩ := getElem?_numberAll hc
  refine ⟨_, ?_, h1, ?_⟩
  · omega
  · rw [nodeCount_number, nodeCount_eq e₀]; omega

theorem numberAll_ids_sorted (es : List Expr) (k : Nat) :
    ((numberAll es k).map Expr.id).Pairwise (· < ·) ∧
      ∀ id ∈ (numberAll es k).map Expr.id, k ≤ id := by
  induction es generalizing k with
  | nil => simp [numberAll]
  | cons e es ih =>
    obtain ⟨h1, h2⟩ := ih (k + e.nodeCount)
    have hpos := e.nodeCount_pos
    rw [numberAll, List.map_cons, number_id]
    refine ⟨List.pairwise_cons.2 ⟨fun id hid => ?_, h1⟩, fun id hid => ?_⟩
    · have := h2 id hid; grind
    · rcases List.mem_cons.1 hid with rfl | hid
      · exact Nat.le_refl _
      · have := h2 id hid; grind

theorem NumberedFrom.children_nodup {k : Nat} {e : Expr} (h : e.NumberedFrom k) :
    (e.children.map Expr.id).Nodup := by
  obtain ⟨e₀, rfl⟩ := h
  rw [number_children]
  exact (numberAll_ids_sorted _ _).1.imp fun h => Nat.ne_of_lt h

/-! ## Bounds -/

/-- The last word does not count, for behind it comes zero. -/
theorem bound_le_iff {ws : List UInt64} {n : Nat} :
    (bound ws).toNat ≤ n ↔ ∀ w ∈ ws, IsIndex w → w.toNat < n := by
  induction ws with
  | nil => simp [bound]
  | cons w ws ih =>
    have hmax : (bound (w :: ws)).toNat = max (w + 1).toNat (bound ws).toNat := UInt64.toNat_max _ _
    have hsucc : (w + 1).toNat ≤ n ↔ (IsIndex w → w.toNat < n) := by
      have hw := w.toNat_lt
      rw [UInt64.toNat_add, IsIndex, UInt64.size]
      simp only [UInt64.toNat_one]
      omega
    rw [List.forall_mem_cons, ← ih, ← hsucc, hmax]
    exact Nat.max_le

theorem lt_bound {ws : List UInt64} {w : UInt64} (h : w ∈ ws) (hw : IsIndex w) :
    w.toNat < (bound ws).toNat := bound_le_iff.1 (Nat.le_refl _) w h hw

/-! ## Finding a child by its id -/

theorem findIdx?_id {es : List Expr} (hn : (es.map Expr.id).Nodup) {i : Nat} {c : Expr}
    (h : es[i]? = some c) : es.findIdx? (fun o => o.id = c.id) = some i := by
  obtain ⟨hi, rfl⟩ := List.getElem?_eq_some_iff.1 h
  rw [List.findIdx?_eq_some_iff_getElem]
  refine ⟨hi, by simp, fun j hj => ?_⟩
  simp only [decide_eq_true_eq]
  intro he
  have := List.pairwise_iff_getElem.1 hn j i (by simp; omega) (by simpa using hi) hj
  exact this (by simpa using he)

/-- Where an enclosing expression finds the next one of a path among its
operands. -/
theorem findIdx?_operands {e c : Expr} (hn : (e.children.map Expr.id).Nodup) {i : Nat}
    (h : e.children[i]? = some c) : e.operands.findIdx?
    (fun o => o.id = c.id) = if i < e.operands.length then some i else none := by
  obtain ⟨t, ht⟩ := e.operands_prefix
  have hno : (e.operands.map Expr.id).Nodup := by
    rw [← ht, List.map_append] at hn
    exact (List.nodup_append.1 hn).1
  by_cases hi : i < e.operands.length
  · rw [if_pos hi]
    exact findIdx?_id hno (by rw [getElem?_operands hi, h])
  · rw [if_neg hi, List.findIdx?_eq_none_iff]
    intro x hx
    rw [← ht, List.getElem?_append_right (by omega)] at h
    rw [← ht, List.map_append, List.nodup_append] at hn
    have := hn.2.2 x.id (List.mem_map.2 ⟨x, hx, rfl⟩) c.id
      (List.mem_map.2 ⟨c, List.mem_of_getElem? h, rfl⟩)
    simpa using this

/-! ## Finding an expression by its id -/

/-- An id outside a list of numbered trees is not found in it. -/
theorem pathToAny_numberAll_of_lt {es : List Expr}
    (h : ∀ c ∈ es, ∀ k goal : Nat, (goal < k ∨ k + c.nodeCount ≤ goal) →
      pathTo goal (c.number k) = none) {k goal : Nat} (hg : goal < k ∨ k + nodeCountAll es ≤ goal) :
    pathToAny goal (numberAll es k) = none := by
  induction es generalizing k with
  | nil => rfl
  | cons e es ih =>
    rw [nodeCountAll] at hg
    rw [numberAll, pathToAny, h e List.mem_cons_self k goal (by omega), Option.none_or]
    exact ih (fun c hc => h c (List.mem_cons_of_mem _ hc)) (by omega)

theorem pathTo_number_of_lt {e : Expr} {k goal : Nat} (h : goal < k ∨ k + e.nodeCount ≤ goal) :
    pathTo goal (e.number k) = none := by
  induction e using induction_children generalizing k goal with
  | step e ih =>
    have hpos := e.nodeCount_pos
    rw [nodeCount_eq] at h
    rw [pathTo_eq, number_id, if_neg (by grind), number_children,
      pathToAny_numberAll_of_lt (fun c hc k goal hg => ih c hc hg) (by omega), Option.map_none]

/-- The search in a list of numbered trees goes into the tree that has the
id. -/
theorem pathToAny_numberAll {es : List Expr} {k goal : Nat} {i : Nat} {c : Expr}
    (hc : (numberAll es k)[i]? = some c) (h1 : c.id ≤ goal) (h2 : goal < c.id + c.nodeCount) :
    pathToAny goal (numberAll es k) = pathTo goal c := by
  induction es generalizing k i with
  | nil => simp [numberAll] at hc
  | cons e es ih =>
    rw [numberAll] at hc ⊢
    rw [pathToAny]
    cases i with
    | zero =>
      obtain rfl : e.number k = c := by simpa using hc
      rw [number_id] at h1 h2
      rw [nodeCount_number] at h2
      rw [pathToAny_numberAll_of_lt (fun c _ k goal hg => pathTo_number_of_lt hg) (by grind),
        Option.or_none]
    | succ i =>
      have hc' : (numberAll es (k + e.nodeCount))[i]? = some c := by simpa using hc
      have hid := (getElem?_numberAll hc').1.id_eq
      rw [pathTo_number_of_lt (by grind), Option.none_or]
      exact ih hc'

theorem NumberedFrom.pathTo_child {k goal : Nat} {e c : Expr} {i : Nat} (h : e.NumberedFrom k)
    (hc : e.children[i]? = some c) (h1 : c.id ≤ goal) (h2 : goal < c.id + c.nodeCount) :
    pathTo goal e = (pathTo goal c).map (e :: ·) := by
  obtain ⟨j, hj, hcn, -⟩ := h.child hc
  have he := h.id_eq
  have hcid := hcn.id_eq
  obtain ⟨e₀, rfl⟩ := h
  rw [pathTo_eq, if_neg (by grind)]
  rw [number_children] at hc ⊢
  rw [pathToAny_numberAll hc h1 h2]

/-! ## Ids in pre-order -/

theorem preorderAll_ids_of {es : List Expr}
    (h : ∀ c ∈ es, ∀ k, (c.number k).preorder.map Expr.id = List.range' k c.nodeCount) (k : Nat) :
    (preorderAll (numberAll es k)).map Expr.id = List.range' k (nodeCountAll es) := by
  induction es generalizing k with
  | nil => rfl
  | cons e es ih =>
    rw [numberAll, preorderAll, List.map_append, h e List.mem_cons_self,
      ih fun c hc => h c (List.mem_cons_of_mem _ hc), nodeCountAll, List.range'_append_1]

/-- The ids of a numbered tree, in pre-order, are its numbers. -/
theorem preorder_number_ids (e : Expr) (k : Nat) :
    (e.number k).preorder.map Expr.id = List.range' k e.nodeCount := by
  induction e using induction_children generalizing k with
  | step e ih =>
    rw [preorder_eq, List.map_cons, number_id, number_children,
      preorderAll_ids_of (fun c hc k => ih c hc k), nodeCount_eq, Nat.add_comm 1, List.range'_succ]

end Expr

/-- An id names one expression of a routine. -/
theorem Routine.eq_of_id_eq {r : Routine} {x y : Expr} (hx : x ∈ r.body.preorder)
    (hy : y ∈ r.body.preorder) (h : x.id = y.id) : x = y := by
  obtain ⟨e, he⟩ := r.numbered
  have hn : (r.body.preorder.map Expr.id).Nodup := by
    rw [he, Expr.preorder_number_ids]
    exact List.nodup_range'
  exact List.inj_on_of_nodup_map hn hx hy h

end TieredEngine

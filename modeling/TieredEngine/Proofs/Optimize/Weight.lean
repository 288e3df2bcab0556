import Mathlib.Algebra.Group.Action.Defs
import Mathlib.Algebra.Order.BigOperators.Group.Finset
import TieredEngine.Proofs.Optimize.Elimination
import TieredEngine.Proofs.Optimize.Reductions
/-!
# The weight of a graph

Every node weighs one and operators weigh more: one that becomes a constant
leaves a new node behind, and one with a constant to its left may have to be
turned round first. So a graph weighs at most three times its nodes, and every
reduction makes it lighter without making it bigger: `lightens_of_reduced`.
-/

namespace TieredEngine

namespace Graph

open Optimize

/-- Whether the right operand is a constant. -/
def constantRight (g : Graph) (n : Node) : Bool := (n.inputs[1]?.bind g.constantAt).isSome

/-- What a node weighs beyond one. -/
def excess (g : Graph) (n : Node) : ℕ :=
  match n.kind with
  | .binary _ => if g.constantRight n then 1 else 2
  | .unary _ => 1
  | _ => 0

def excessAt (g : Graph) (x : NodeId) : ℕ := (g.node? x).elim 0 g.excess

/-- The weight of all nodes. -/
def weight (g : Graph) : ℕ := g.nodeCount + ∑ x ∈ g.nodeSet, g.excessAt x

/-- The second graph is not bigger than the first, and lighter. -/
structure Lightens (g g' : Graph) : Prop where
  count : g'.nodeCount ≤ g.nodeCount
  weight : g'.weight < g.weight

variable {g g' : Graph} {id x y p m : NodeId} {n : Node} {v : Value}

/-! ## Comparing weights -/

theorem excessAt_eq (hn : g.node? x = some n) :
    g.excessAt x = g.excess n := by rw [excessAt, hn]; rfl

theorem excessAt_of_not_contains (h : ¬ g.contains x) : g.excessAt x = 0 := by
  rw [contains, Option.not_isSome_iff_eq_none] at h
  rw [excessAt, h]
  rfl

theorem excess_le_two (g : Graph) (n : Node) : g.excess n ≤ 2 := by
  unfold excess
  split
  · split <;> omega
  · omega
  · omega

theorem excess_of_binary {op : BinaryOp} (hk : n.kind = .binary op) :
    g.excess n = if g.constantRight n then 1 else 2 := by
  rw [excess, hk]

theorem excess_pos (ho : n.kind.isOperator) : 0 < g.excess n := by
  unfold excess
  revert ho
  cases n.kind <;> simp [NodeKind.isOperator]
  split <;> omega

theorem weight_le (g : Graph) : g.weight ≤ 3 * g.nodeCount := by
  have hsum : ∑ x ∈ g.nodeSet, g.excessAt x ≤ g.nodeSet.card • 2 := by
    refine Finset.sum_le_card_nsmul _ _ _ fun x hx => ?_
    obtain ⟨n, hn⟩ := contains_iff.1 (mem_nodeSet.1 hx)
    exact excessAt_eq hn ▸ g.excess_le_two n
  rw [smul_eq_mul, ← nodeCount_eq_card] at hsum
  unfold weight
  omega

/-- Positions without a node weigh nothing. -/
theorem sum_excessAt_eq {s : Finset NodeId} (h : g.nodeSet ⊆ s) :
    ∑ x ∈ g.nodeSet, g.excessAt x = ∑ x ∈ s, g.excessAt x :=
  Finset.sum_subset h fun _ _ hx => excessAt_of_not_contains fun hc => hx (mem_nodeSet.2 hc)

theorem sum_excessAt_le (h : ∀ x, g'.excessAt x ≤ g.excessAt x) :
    ∑ x ∈ g'.nodeSet, g'.excessAt x ≤ ∑ x ∈ g.nodeSet, g.excessAt x := by
  have hl : g'.nodeSet ⊆ g'.nodeSet ∪ g.nodeSet := Finset.subset_union_left
  have hr : g.nodeSet ⊆ g'.nodeSet ∪ g.nodeSet := Finset.subset_union_right
  rw [sum_excessAt_eq hl, sum_excessAt_eq hr]
  exact Finset.sum_le_sum fun x _ => h x

theorem sum_excessAt_lt (h : ∀ x, g'.excessAt x ≤ g.excessAt x)
    (hx : g'.excessAt x < g.excessAt x) :
    ∑ x ∈ g'.nodeSet, g'.excessAt x < ∑ x ∈ g.nodeSet, g.excessAt x := by
  have hl : g'.nodeSet ⊆ g'.nodeSet ∪ g.nodeSet := Finset.subset_union_left
  have hr : g.nodeSet ⊆ g'.nodeSet ∪ g.nodeSet := Finset.subset_union_right
  rw [sum_excessAt_eq hl, sum_excessAt_eq hr]
  refine Finset.sum_lt_sum (fun x _ => h x) ⟨x, Finset.mem_union_right _ (mem_nodeSet.2 ?_), hx⟩
  by_contra hc
  rw [excessAt_of_not_contains hc] at hx
  omega

theorem lightens_of_lost (hc : ∀ y, g'.contains y → g.contains y) (hx : g.contains x)
    (hx' : ¬ g'.contains x) (he : ∀ y, g'.excessAt y ≤ g.excessAt y) : g.Lightens g' := by
  have hcount := nodeCount_lt hc hx hx'
  have hexcess := sum_excessAt_le he
  constructor
  · omega
  · unfold weight
    omega

theorem lightens_of_excess (hcount : g'.nodeCount ≤ g.nodeCount)
    (he : ∀ y, g'.excessAt y ≤ g.excessAt y) (hx : g'.excessAt x < g.excessAt x) :
    g.Lightens g' := by
  have hexcess := sum_excessAt_lt he hx
  refine ⟨hcount, ?_⟩
  unfold weight
  omega

theorem Lightens.trans {g'' : Graph} (h : g.Lightens g') (h' : g'.Lightens g'') : g.Lightens g'' :=
  ⟨h'.count.trans h.count, h'.weight.trans h.weight⟩

/-! ## Operators that stay -/

/-- An operator is not heavier if it was one of the same kind before and still
has the constant to its right. -/
theorem excessAt_le
    (h : ∀ n', g'.node? x = some n' → n'.kind.isOperator →
      ∃ n, g.node? x = some n ∧ n'.kind = n.kind ∧ (g.constantRight n → g'.constantRight n')) :
    g'.excessAt x ≤ g.excessAt x := by
  cases hx : g'.node? x with
  | none => simp [excessAt, hx]
  | some n' =>
    by_cases ho : n'.kind.isOperator
    · obtain ⟨n, hn, hk, hright⟩ := h n' hx ho
      rw [excessAt_eq hx, excessAt_eq hn, excess, excess, hk]
      split
      · split
        · split <;> omega
        · rw [if_neg fun hc => ‹¬ _› (hright hc)]
      · exact Nat.le_refl _
      · exact Nat.le_refl _
    · have hzero : g'.excess n' = 0 := by
        unfold excess
        revert ho
        cases n'.kind <;> simp [NodeKind.isOperator]
      rw [excessAt_eq hx, hzero]
      exact Nat.zero_le _

theorem constantAt_isSome :
    (g.constantAt x).isSome ↔ ∃ n v, g.node? x = some n ∧ n.kind = .constant v := by
  rw [constantAt, Option.isSome_iff_exists]
  constructor
  · rintro ⟨v, h⟩
    obtain ⟨k, hk, hv⟩ := Option.bind_eq_some_iff.1 h
    obtain ⟨n, hn, rfl⟩ := kind?_eq_some.1 hk
    refine ⟨n, v, hn, ?_⟩
    revert hv
    cases n.kind <;> simp [NodeKind.constant?]
  · rintro ⟨n, v, hn, hk⟩
    exact ⟨v, by rw [kind?, hn, Option.map_some, hk]; rfl⟩

theorem constantRight_iff :
    g.constantRight n ↔ ∃ r, n.inputs[1]? = some r ∧ (g.constantAt r).isSome := by
  unfold constantRight
  cases n.inputs[1]? <;> simp

/-- Where operators are left as they are and their constants with them,
nothing gets heavier. -/
theorem excessAt_le_of_same
    (h : ∀ n', g'.node? x = some n' → n'.kind.isOperator →
      ∃ n, g.node? x = some n ∧ n'.kind = n.kind ∧ n'.inputs = n.inputs ∧
      ∀ r ∈ n.inputs, ∀ nr v, g.node? r = some nr → nr.kind = .constant v →
        g'.kind? r = some (.constant v)) :
    g'.excessAt x ≤ g.excessAt x := by
  refine excessAt_le fun n' hn' ho => ?_
  obtain ⟨n, hn, hk, hi, hconst⟩ := h n' hn' ho
  refine ⟨n, hn, hk, fun hc => ?_⟩
  obtain ⟨r, hr, hc⟩ := constantRight_iff.1 hc
  obtain ⟨nr, v, hnr, hkr⟩ := constantAt_isSome.1 hc
  obtain ⟨nr', hnr', hkr'⟩ := kind?_eq_some.1 (hconst r (List.mem_of_getElem? hr) nr v hnr hkr)
  exact constantRight_iff.2 ⟨r, hi ▸ hr, constantAt_isSome.2 ⟨nr', v, hnr', hkr'⟩⟩

/-! ## Values -/

theorem excessAt_newConstant (g : Graph) (v : Value) (x : NodeId) :
    (g.newConstant v).1.excessAt x ≤ g.excessAt x := by
  have hext := extends_newConstant g v
  refine excessAt_le_of_same fun n' hn' ho => ?_
  by_cases hx : x < g.nodes.size
  · rw [hext.same x hx] at hn'
    exact ⟨n', hn', rfl, rfl, fun r _ nr v hnr hk => kind?_eq_some.2 ⟨nr, hext.node hnr, hk⟩⟩
  · rw [kind_of_newConstant hn' (Nat.not_lt.1 hx)] at ho
    cases ho

theorem nodeCount_newConstant (g : Graph) (v : Value) :
    (g.newConstant v).1.nodeCount = g.nodeCount + 1 := by
  have hnode : (g.newConstant v).1.node? = (g.add { kind := .constant v }).1.node? := rfl
  have hnew : [g.nodes.size].length + g.nodeCount = (g.newConstant v).1.nodeCount := by
    refine nodeCount_of_removed (List.nodup_singleton _) (fun x hx => ?_) fun x => ?_
    · rw [List.mem_singleton.1 hx]
      exact contains_iff.2 ⟨_, node?_newConstant g v⟩
    · rw [contains, contains, hnode, node?_add, List.mem_singleton]
      by_cases hx : x = g.nodes.size
      · subst hx
        simp [node?]
      · simp [hx]
  rw [List.length_singleton] at hnew
  omega

/-- A value that is not a constant, or gives way to another constant, may go. -/
theorem excessAt_replaceValue (hc : (g.constantAt id).isSome → y ≠ id ∧ (g.constantAt y).isSome)
    (x : NodeId) :
    (g.replaceValue id y).excessAt x ≤ g.excessAt x := by
  have hstays : ∀ r, r ≠ id → (g.constantAt r).isSome →
      ((g.replaceValue id y).constantAt r).isSome := by
    intro r hr h
    obtain ⟨nr, v, hnr, hk⟩ := constantAt_isSome.1 h
    exact constantAt_isSome.2 ⟨_, v, node?_redirected y hr hnr, hk⟩
  refine excessAt_le fun n' hn' _ => ?_
  obtain ⟨-, n, hn, rfl⟩ := node?_replaceValue_eq_some.1 hn'
  refine ⟨n, hn, rfl, fun hright => ?_⟩
  obtain ⟨r, hr, hconst⟩ := constantRight_iff.1 hright
  refine constantRight_iff.2 ⟨redirect id y r, by simp [Node.redirected, hr], ?_⟩
  by_cases hid : r = id
  · subst hid
    rw [redirect_self]
    exact hstays y (hc hconst).1 (hc hconst).2
  · rw [redirect_of_ne hid]
    exact hstays r hid hconst

theorem contains_replaceValue : (g.replaceValue id y).contains x ↔ x ≠ id ∧ g.contains x := by
  simp only [contains_iff, node?_replaceValue_eq_some]
  constructor
  · rintro ⟨-, hx, n, hn, -⟩
    exact ⟨hx, n, hn⟩
  · rintro ⟨hx, n, hn⟩
    exact ⟨_, hx, n, hn, rfl⟩

theorem lightens_replaceValue (hid : g.contains id)
    (hc : (g.constantAt id).isSome → y ≠ id ∧ (g.constantAt y).isSome) :
    g.Lightens (g.replaceValue id y) :=
  lightens_of_lost (fun _ hx => (contains_replaceValue.1 hx).2) hid
    (fun h => (contains_replaceValue.1 h).1 rfl) (excessAt_replaceValue hc)

theorem not_constantAt (hn : g.node? id = some n) (hk : ∀ v, n.kind ≠ .constant v) :
    ¬ (g.constantAt id).isSome := by
  intro h
  obtain ⟨n', v, hn', hv⟩ := constantAt_isSome.1 h
  exact hk v (Option.some.inj (hn.symm.trans hn') ▸ hv)

/-- An operator weighs more than the constant that takes its place. -/
theorem lightens_replaceByConstant (hn : g.node? id = some n) (ho : n.kind.isOperator) (v : Value) :
    g.Lightens (replaceByConstant g id v) := by
  have hnot : ¬ (g.constantAt id).isSome := not_constantAt hn fun v hv => by
    simp [hv, NodeKind.isOperator] at ho
  have hid : g.contains id := contains_iff.2 ⟨n, hn⟩
  have hnew : g.Lightens ((g.newConstant v).1.replaceValue id (g.newConstant v).2) := by
    have hn' := (extends_newConstant g v).node hn
    have hnot' : ¬ ((g.newConstant v).1.constantAt id).isSome :=
      not_constantAt hn' fun v hv => by simp [hv, NodeKind.isOperator] at ho
    refine lightens_of_excess (x := id) ?_ (fun x => ?_) ?_
    · have hone : ((g.newConstant v).1.replaceValue id (g.newConstant v).2).nodeCount <
          (g.newConstant v).1.nodeCount := nodeCount_lt (fun _ hx => (contains_replaceValue.1 hx).2)
        (contains_iff.2 ⟨n, hn'⟩) fun h => (contains_replaceValue.1 h).1 rfl
      rw [nodeCount_newConstant] at hone
      omega
    · exact (excessAt_replaceValue (fun h => absurd h hnot') x).trans (excessAt_newConstant g v x)
    · rw [excessAt_of_not_contains fun h => (contains_replaceValue.1 h).1 rfl, excessAt_eq hn]
      exact excess_pos ho
  unfold replaceByConstant constant
  dsimp only
  split
  · split
    · exact lightens_replaceValue hid fun h => absurd h hnot
    · exact hnew
  · exact hnew

/-- An operator with its constant on the right is lighter. -/
theorem lightens_swap {op : BinaryOp} (hn : g.node? m = some n) (hk : n.kind = .binary op)
    (hi : n.inputs = [x, y]) (hx : (g.constantAt x).isSome) (hy : g.constantAt y = none) :
    g.Lightens (g.modify m fun n => { n with inputs := y :: x :: n.inputs.drop 2 }) := by
  have hnode := node?_swapped hn hi
  generalize hg : (g.modify m fun n => { n with inputs := y :: x :: n.inputs.drop 2 }) = g' at hnode
  have hconst : ∀ z, (g.constantAt z).isSome → (g'.constantAt z).isSome := by
    intro z hz
    obtain ⟨nz, v, hnz, hkz⟩ := constantAt_isSome.1 hz
    refine constantAt_isSome.2 ⟨nz, v, ?_, hkz⟩
    rw [hnode, if_neg ?_, hnz]
    rintro rfl
    rw [Option.some.inj (hn.symm.trans hnz), hkz] at hk
    cases hk
  have hleft : ¬ g.constantRight n := by
    rw [constantRight_iff]
    rintro ⟨r, hr, hc⟩
    rw [hi] at hr
    cases hr
    rw [hy] at hc
    cases hc
  have hlt : g'.excessAt m < g.excessAt m := by
    have hright : g'.constantRight { n with inputs := [y, x] } :=
      constantRight_iff.2 ⟨x, rfl, hconst x hx⟩
    rw [excessAt_eq ((hnode m).trans (if_pos rfl)), excessAt_eq hn, excess_of_binary
      (n := { n with inputs := [y, x] }) hk, excess_of_binary hk, if_pos hright, if_neg hleft]
    omega
  refine lightens_of_excess (x := m) (nodeCount_congr (hg ▸ contains_modify g m _)).le
    (fun z => ?_) hlt
  by_cases hz : z = m
  · exact hz ▸ hlt.le
  · refine excessAt_le fun n' hn' _ => ⟨n', ?_, rfl, fun hright => ?_⟩
    · rwa [hnode, if_neg hz] at hn'
    · obtain ⟨r, hr, hc⟩ := constantRight_iff.1 hright
      exact constantRight_iff.2 ⟨r, hr, hconst r hc⟩

/-! ## Control -/

theorem lightens_spliced {first w : NodeId} (h : g.Splice p first w) :
    g.Lightens (g.spliced p first w) := by
  obtain ⟨nw, hnw, hkw⟩ := h.last_fixed
  refine lightens_of_lost (x := w) (fun z hz => ?_) (contains_iff.2 ⟨nw, hnw⟩)
    (fun hc => ?_) fun z => ?_
  · obtain ⟨n', hn'⟩ := contains_iff.1 hz
    obtain ⟨-, -, n₀, h₀, -⟩ := node?_spliced_eq_some.1 hn'
    exact contains_iff.2 ⟨n₀, h₀⟩
  · obtain ⟨n', hn'⟩ := contains_iff.1 hc
    exact (node?_spliced_eq_some.1 hn').2.1 rfl
  · refine excessAt_le_of_same fun n' hn' _ => ?_
    obtain ⟨-, -, n₀, h₀, rfl⟩ := node?_spliced_eq_some.1 hn'
    exact ⟨n₀, h₀, rfl, rfl,
      fun r _ nr v hnr hk => kind?_eq_some.2 ⟨_, h.node?_floating hnr (by rw [hk]; rfl), hk⟩⟩

/-- What is cut off was where control never gets, and no operator is. -/
theorem excessAt_cutUnreachable (hsk : g.Skeleton) (x : NodeId) :
    g.cutUnreachable.1.excessAt x ≤ g.excessAt x := by
  have hcut := cut_cutUnreachable hsk
  refine excessAt_le_of_same fun n' hn' ho => ?_
  obtain ⟨n, hn, hk, -⟩ := hcut.exists_old hsk hn'
  have hfloat : n.kind.isFixed = false ∧ n.kind ≠ .phi := by
    rw [hk] at ho
    revert ho
    cases n.kind <;> simp [NodeKind.isOperator, NodeKind.isFixed]
  obtain rfl := Option.some.inj ((hcut.floating hn hfloat.1 hfloat.2).symm.trans hn')
  exact ⟨n, hn, rfl, rfl, fun r _ nr v hnr hkr =>
    kind?_eq_some.2 ⟨nr, hcut.floating hnr (by rw [hkr]; rfl) (by rw [hkr]; simp), hkr⟩⟩

/-- An operator that is alive keeps its constant alive. -/
theorem excessAt_sweepDead (g : Graph) (x : NodeId) :
    (sweepDead g).1.excessAt x ≤ g.excessAt x := by
  refine excessAt_le_of_same fun n hn _ => ?_
  obtain ⟨hn, halive⟩ := node?_sweepDead.1 hn
  refine ⟨n, hn, rfl, rfl,
    fun r hr nr v hnr hk => kind?_eq_some.2 ⟨nr, node?_sweepDead.2 ⟨hnr, ?_⟩, hk⟩⟩
  exact alive_of_edge halive hn (by simp [Node.edges, hr]) (contains_iff.2 ⟨nr, hnr⟩)

/-- Eliminating dead code makes a graph lighter by as many as it takes out. -/
theorem weight_eliminateOnce (hsk : g.Skeleton) :
    (eliminateOnce g).1.weight + (eliminateOnce g).2 ≤ g.weight := by
  have hcount := nodeCount_eliminateOnce g
  have hexcess : ∑ x ∈ (eliminateOnce g).1.nodeSet,
      (eliminateOnce g).1.excessAt x ≤ ∑ x ∈ g.nodeSet, g.excessAt x :=
    sum_excessAt_le fun x => (excessAt_sweepDead _ x).trans (excessAt_cutUnreachable hsk x)
  unfold weight
  omega

theorem Lightens.cut (h : g.Lightens g') (hsk : g'.Skeleton) : g.Lightens g'.cutUnreachable.1 := by
  have hcount := nodeCount_cutUnreachable g'
  have hexcess := sum_excessAt_le (excessAt_cutUnreachable hsk)
  obtain ⟨h1, h2⟩ := h
  unfold Graph.weight at h2
  constructor
  · omega
  · unfold Graph.weight
    omega

/-! ## Reductions -/

theorem floats_of_kind {k : NodeKind} (hn : g.node? id = some n) (hk : n.kind = k)
    (hfloat : k.isFixed = false) :
    g.Floats id := fun n' hn' => by rw [← Option.some.inj (hn.symm.trans hn'), hk, hfloat]

/-- Replacing a phi by a value. -/
theorem lightens_replacePhi (hg : g.Orderly) (hn : g.node? id = some n) (hk : n.kind = .phi)
    (hx : x ∈ n.inputs) :
    (g.replaceValue id x).Orderly ∧ g.Lightens (g.replaceValue id x) := by
  constructor
  · exact hg.replaceValue (floats_of_kind hn hk rfl)
      (hg.skeleton.below id n x hn (by simp [Node.edges, hx]))
  · exact lightens_replaceValue (contains_iff.2 ⟨n, hn⟩) fun h =>
      absurd h (not_constantAt hn fun v => by simp [hk])

theorem lightens_of_collapse {phis : List NodeId} (h : Collapse phis g g') (hg : g.Orderly) :
    g'.Orderly ∧ (g' = g ∨ g.Lightens g') := by
  induction h with
  | nil => exact ⟨hg, .inl rfl⟩
  | @cons phi phis g g' n x hn hk hi _ ih =>
    obtain ⟨hg', hlight⟩ :=
      lightens_replacePhi hg hn hk (by rw [hi]; exact List.mem_singleton_self x)
    obtain ⟨hg'', hrest⟩ := ih hg'
    refine ⟨hg'', .inr ?_⟩
    rcases hrest with rfl | hrest
    · exact hlight
    · exact hlight.trans hrest

theorem orderly_replaceByConstant (hg : g.Orderly) (hn : g.node? id = some n)
    (ho : n.kind.isOperator) (v : Value) :
    (replaceByConstant g id v).Orderly := by
  have hnew : ((g.newConstant v).1.replaceValue id (g.newConstant v).2).Orderly :=
    (orderly_newConstant hg v).replaceValue
      (floats_of_isOperator ((extends_newConstant g v).node hn) ho)
      (lt_size_of_node? (node?_newConstant g v))
  unfold replaceByConstant constant
  dsimp only
  split
  · split
    · rename_i c _ hc
      obtain ⟨nc, hnc, -⟩ := kind?_eq_some.1 hc
      exact hg.replaceValue (floats_of_isOperator hn ho) (lt_size_of_node? hnc)
    · exact hnew
  · exact hnew

/-- An operator that gives way to another value. -/
theorem lightens_replaceOperator (hg : g.Orderly) (hn : g.node? id = some n)
    (ho : n.kind.isOperator) (hy : y < g.nodes.size) :
    (g.replaceValue id y).Orderly ∧ g.Lightens (g.replaceValue id y) := by
  constructor
  · exact hg.replaceValue (floats_of_isOperator hn ho) hy
  · refine lightens_replaceValue (contains_iff.2 ⟨n, hn⟩) fun h =>
      absurd h (not_constantAt hn fun v hv => ?_)
    simp [hv, NodeKind.isOperator] at ho

/-- Every reduction leaves an orderly graph that is lighter and not bigger. -/
theorem lightens_of_reduced (hg : g.Orderly) (hn : g.node? id = some n) (h : Reduced g id n g') :
    g'.Orderly ∧ g.Lightens g' := by
  have hbelow : ∀ {x n z}, g.node? z = some n → x ∈ n.inputs → x < g.nodes.size := fun hz hx =>
    hg.skeleton.below _ _ _ hz (by simp [Node.edges, hx])
  cases h with
  | folded hk | value hk | foldedUnary hk =>
    have ho : n.kind.isOperator := by rw [hk]; rfl
    exact ⟨orderly_replaceByConstant hg hn ho _, lightens_replaceByConstant hn ho _⟩
  | swapped hk _ hi hx hy =>
    exact ⟨orderly_swap hg hn hk hi, lightens_swap hn hk hi (by rw [hx]; rfl) hy⟩
  | operand hk hi hz =>
    obtain ⟨rfl, -⟩ := identity?_operand hz
    exact lightens_replaceOperator hg hn (by rw [hk]; rfl) (hbelow hn (by simp [hi]))
  | undone hk _ hinner _ hi' =>
    exact lightens_replaceOperator hg hn (by rw [hk]; rfl) (hbelow hinner (by simp [hi']))
  | phi hk hx => exact lightens_replacePhi hg hn hk hx
  | merge hk hc hcollapse =>
    obtain ⟨hg', hlight⟩ := lightens_of_collapse hcollapse hg
    obtain ⟨nm, hnm, hkm, hcm⟩ := hcollapse.node hn fun h => by simp [h, NodeKind.isMerge] at hk
    have hsplice := splice_join hnm (hkm ▸ hk) (hcm.trans hc) hcollapse.phisOf_eq_nil
    refine ⟨hsplice.orderly_spliced hg' rfl, ?_⟩
    rcases hlight with rfl | hlight
    · exact lightens_spliced hsplice
    · exact hlight.trans (lightens_spliced hsplice)
  | @branch _ _ b _ _ hk _ hc _ hs =>
    have hsplice := splice_branch hg hn hk hc hs b
    have hsk := hsplice.skeleton_spliced hg
    exact ⟨(cut_cutUnreachable hsk).orderly hsk (hsplice.openAt_spliced hg),
      (lightens_spliced hsplice).cut hsk⟩
  | guard hk _ hc =>
    have hsplice := splice_guard hg.skeleton hn hk hc
    exact ⟨hsplice.orderly_spliced hg rfl, lightens_spliced hsplice⟩

end Graph

end TieredEngine

import TieredEngine.Optimize.Canonicalize
import TieredEngine.Proofs.Graph.Rewiring
/-!
# Values that replace each other

Replacing a value leads its data edges to another one and takes its node out.
Control stays as it is, so the graph is well-formed afterwards if the new
value is available wherever the old one was: `StandsIn`,
`Formed.replaceValue`. This is so for a constant, for an operand of the old
value, for an equal node, and for what a phi gets on all its edges.
-/

namespace TieredEngine

/-- The node with its data edges at `old` led to `new`. -/
def Node.redirected (old new : NodeId) (n : Node) : Node :=
  { n with
    inputs := n.inputs.map (Graph.redirect old new)
    state := n.state.map (Graph.redirect old new) }

@[simp]
theorem Node.redirected_kind (old new : NodeId) (n : Node) :
    (n.redirected old new).kind = n.kind := rfl

theorem Node.Arity.redirected {n : Node} (h : n.Arity) (old new : NodeId) :
    (n.redirected old new).Arity := by
  revert h
  unfold Node.Arity
  rw [Node.redirected_kind]
  cases n.kind <;> simp +contextual [Node.redirected]

theorem Node.Counted.redirected {n : Node} (h : n.Counted) (old new : NodeId) :
    (n.redirected old new).Counted := by
  revert h
  unfold Node.Counted
  rw [Node.redirected_kind]
  cases n.kind <;> simp +contextual [Node.redirected]

namespace Graph

variable {g : Graph} {old new q m d x y : NodeId} {n : Node}

theorem redirect_self (old new : NodeId) : redirect old new old = new := if_pos rfl

theorem redirect_of_ne (h : x ≠ old) : redirect old new x = x := if_neg h

theorem redirect_cases (old new x : NodeId) :
    redirect old new x = new ∨ redirect old new x = x := by
  unfold redirect
  split
  · exact .inl rfl
  · exact .inr rfl

theorem node?_replaceValue (g : Graph) (old new x : NodeId) :
    (g.replaceValue old new).node? x = if x = old then none else (g.node? x).map
      (Node.redirected old new) := by
  rw [replaceValue, node?_remove, replaceAtUsages, node?_mapNodes]
  rfl

theorem node?_replaceValue_eq_some : (g.replaceValue old new).node? x = some n ↔
    x ≠ old ∧ ∃ n₀, g.node? x = some n₀ ∧ n = n₀.redirected old new := by
  rw [node?_replaceValue]
  by_cases hx : x = old
  · simp [hx]
  · rw [if_neg hx, Option.map_eq_some_iff]
    exact ⟨fun ⟨n₀, h, he⟩ => ⟨hx, n₀, h, he.symm⟩, fun ⟨_, n₀, h, he⟩ => ⟨n₀, h, he.symm⟩⟩

theorem node?_redirected (new : NodeId) (hx : x ≠ old) (hn : g.node? x = some n) :
    (g.replaceValue old new).node? x = some (n.redirected old new) :=
      node?_replaceValue_eq_some.2 ⟨hx, n, hn, rfl⟩

@[simp]
theorem size_replaceValue (g : Graph) (old new : NodeId) :
    (g.replaceValue old new).nodes.size = g.nodes.size := by
  simp [replaceValue, replaceAtUsages]

/-! ## Control stays -/

section

/-- There is no fixed node at the position. -/
def Floats (g : Graph) (x : NodeId) : Prop := ∀ n, g.node? x = some n → n.kind.isFixed = false

variable (hold : g.Floats old)

include hold

theorem ne_of_floats (hn : g.node? m = some n) (hf : n.kind.isFixed) : m ≠ old := by
  rintro rfl
  rw [hold n hn] at hf
  cases hf

theorem sameControl_replaceValue (new : NodeId) : g.SameControl (g.replaceValue old new) where
  stays m n hn hk := ⟨_, node?_redirected new (ne_of_floats hold hn hk) hn⟩
  old m n' hn' _ := by
    obtain ⟨-, n, hn, rfl⟩ := node?_replaceValue_eq_some.1 hn'
    exact ⟨n, hn, rfl, rfl⟩
  fresh m n' hn' hle := by
    obtain ⟨-, n, hn, -⟩ := node?_replaceValue_eq_some.1 hn'
    exact absurd (lt_size_of_node? hn) (Nat.not_lt.2 hle)

omit hold in
theorem owns_replaceValue : Owns (g.replaceValue old new) d x ↔ x ≠ old ∧ Owns g d x := by
  constructor
  · rintro (h | ⟨rfl, h⟩)
    · obtain ⟨n, hn, hk, hc⟩ := mem_phisOf.1 h
      obtain ⟨hne, n₀, h₀, rfl⟩ := node?_replaceValue_eq_some.1 hn
      exact ⟨hne, .inl (mem_phisOf.2 ⟨n₀, h₀, hk, hc⟩)⟩
    · cases hn : (g.replaceValue old new).node? x with
      | none => simp [kind?, hn] at h
      | some n =>
        obtain ⟨hne, n₀, h₀, rfl⟩ := node?_replaceValue_eq_some.1 hn
        exact ⟨hne, .inr ⟨rfl, by simpa [kind?, hn, h₀] using h⟩⟩
  · rintro ⟨hne, h | ⟨rfl, h⟩⟩
    · obtain ⟨n, hn, hk, hc⟩ := mem_phisOf.1 h
      exact .inl (mem_phisOf.2 ⟨_, node?_redirected _ hne hn, hk, hc⟩)
    · refine .inr ⟨rfl, ?_⟩
      rw [kind?, node?_replaceValue, if_neg hne]
      cases hn : g.node? x with
      | none => simp [kind?, hn] at h
      | some n => simpa [kind?, hn] using h

end

/-! ## Standing in -/

/-- Where control gets and the old value was available, the new one is once it
is in its place. For operators and frames it may be used that this is already
known of what the old one reads. -/
structure StandsIn (g : Graph) (old new : NodeId) : Prop where
  floats : g.Floats old
  below : new < g.nodes.size
  value : ∀ q, g.Reached q → g.Available q old →
    (∀ n, g.node? old = some n → n.kind.isOperator → ∀ y ∈ n.inputs,
      (g.replaceValue old new).Available q (redirect old new y)) →
        (g.replaceValue old new).Available q new
  frame : ∀ q n, g.Reached q → g.node? old = some n → n.kind.isFrameState →
    (∀ y ∈ n.inputs, (g.replaceValue old new).Available q (redirect old new y)) →
    (∀ s ∈ n.state, (g.replaceValue old new).StateAvailable q (redirect old new s)) →
    (g.replaceValue old new).StateAvailable q new

theorem Available.redirected (h : g.StandsIn old new) (hq : g.Reached q) (hx : g.Available q x) :
    (g.replaceValue old new).Available q (redirect old new x) := by
  induction hx with
  | @constant x n v hn hk =>
    by_cases hx : x = old
    · subst hx
      rw [redirect_self]
      refine h.value q hq (.constant hn hk) fun n' hn' ho => ?_
      obtain rfl := Option.some.inj (hn.symm.trans hn')
      simp [hk, NodeKind.isOperator] at ho
    · rw [redirect_of_ne hx]
      exact .constant (node?_redirected _ hx hn) hk
  | @parameter x n i hn hk =>
    by_cases hx : x = old
    · subst hx
      rw [redirect_self]
      refine h.value q hq (.parameter hn hk) fun n' hn' ho => ?_
      obtain rfl := Option.some.inj (hn.symm.trans hn')
      simp [hk, NodeKind.isOperator] at ho
    · rw [redirect_of_ne hx]
      exact .parameter (node?_redirected _ hx hn) hk
  | @register x d ho hd =>
    by_cases hx : x = old
    · subst hx
      rw [redirect_self]
      obtain ⟨n, hn, hr⟩ := owns_exists ho
      refine h.value q hq (.register ho hd) fun n' hn' hop => ?_
      obtain rfl := Option.some.inj (hn.symm.trans hn')
      revert hr hop
      cases n.kind <;> simp [NodeKind.isOperator, NodeKind.isRegister]
    · rw [redirect_of_ne hx]
      exact .register ((owns_replaceValue).2 ⟨hx, ho⟩)
        ((sameControl_replaceValue h.floats _).dominates.2 hd)
  | @binary x n op hn hk hi ih =>
    by_cases hx : x = old
    · subst hx
      rw [redirect_self]
      refine h.value q hq (.binary hn hk hi) fun n' hn' _ => ?_
      obtain rfl := Option.some.inj (hn.symm.trans hn')
      exact ih
    · rw [redirect_of_ne hx]
      refine .binary (node?_redirected _ hx hn) hk fun y hy => ?_
      obtain ⟨y, hy', rfl⟩ := List.mem_map.1 hy
      exact ih y hy'
  | @unary x n op hn hk hi ih =>
    by_cases hx : x = old
    · subst hx
      rw [redirect_self]
      refine h.value q hq (.unary hn hk hi) fun n' hn' _ => ?_
      obtain rfl := Option.some.inj (hn.symm.trans hn')
      exact ih
    · rw [redirect_of_ne hx]
      refine .unary (node?_redirected _ hx hn) hk fun y hy => ?_
      obtain ⟨y, hy', rfl⟩ := List.mem_map.1 hy
      exact ih y hy'

theorem StateAvailable.redirected (h : g.StandsIn old new) (hq : g.Reached q)
    (hx : g.StateAvailable q x) :
    (g.replaceValue old new).StateAvailable q (redirect old new x) := by
  induction hx with
  | @frame s n shape hn hk hi _ ih =>
    by_cases hs : s = old
    · subst hs
      rw [redirect_self]
      exact h.frame q n hq hn (by rw [hk]; rfl) (fun y hy => (hi y hy).redirected h hq)
        fun o ho => ih o ho
    · rw [redirect_of_ne hs]
      refine .frame (node?_redirected _ hs hn) hk (fun y hy => ?_) fun o ho => ?_
      · obtain ⟨y, hy', rfl⟩ := List.mem_map.1 hy
        exact (hi y hy').redirected h hq
      · obtain ⟨o, ho', rfl⟩ := Option.map_eq_some_iff.1 ho
        exact ih o ho'

/-! ## Well-formed graphs -/

/-- An edge is led to the new value or is as it was. -/
theorem mem_edges_redirected (hy : y ∈ (n.redirected old new).edges) : y = new ∨ y ∈ n.edges := by
  simp only [Node.edges, Node.redirected, List.mem_append, List.mem_map, Option.mem_toList,
    Option.map_eq_some_iff] at hy ⊢
  rcases hy with (⟨z, hz, rfl⟩ | hy) | ⟨z, hz, rfl⟩
  · rcases redirect_cases old new z with h | h <;> rw [h] <;> simp [hz]
  · simp [hy]
  · rcases redirect_cases old new z with h | h <;> rw [h] <;> simp [hz]

theorem below_replaceValue (hb : ∀ m n x, g.node? m = some n → x ∈ n.edges → x < g.nodes.size)
    (hnew : new < g.nodes.size) (hn : g.node? x = some n) (hy : y ∈ (n.redirected old new).edges) :
    y < (g.replaceValue old new).nodes.size := by
  rw [size_replaceValue]
  rcases mem_edges_redirected hy with rfl | hy
  · exact hnew
  · exact hb x n y hn hy

/-- Replacing a value does not touch control. -/
theorem Orderly.replaceValue (hg : g.Orderly) (hold : g.Floats old) (hnew : new < g.nodes.size) :
    (g.replaceValue old new).Orderly := by
  refine hg.rewired (sameControl_replaceValue hold new) (fun x n' hn' => ?_) fun x n' hn' hk => ?_
  · obtain ⟨-, n, hn, rfl⟩ := node?_replaceValue_eq_some.1 hn'
    exact ⟨(hg.skeleton.arity x n hn).redirected old new,
      fun y hy => below_replaceValue hg.skeleton.below hnew hn hy⟩
  · obtain ⟨-, n, hn, rfl⟩ := node?_replaceValue_eq_some.1 hn'
    exact ⟨n, hn, hk, rfl, List.length_map _⟩

theorem keepsFrames_replaceValue (g : Graph) (old new : NodeId) :
    g.KeepsFrames (g.replaceValue old new) := by
  intro x n' hn' _
  obtain ⟨-, n, hn, rfl⟩ := node?_replaceValue_eq_some.1 hn'
  exact ⟨x, n, hn, rfl, List.length_map _⟩

/-- A value that stands in for another one may replace it. -/
theorem Formed.replaceValue (hf : g.Formed) (h : g.StandsIn old new) :
    (g.replaceValue old new).Formed := by
  refine hf.rewired (sameControl_replaceValue h.floats new) (fun x n' hn' => ?_)
    (fun x n' hn' _ => ?_) (keepsFrames_replaceValue g old new)
  · obtain ⟨-, n, hn, rfl⟩ := node?_replaceValue_eq_some.1 hn'
    exact ⟨(hf.wired.counted x n hn).redirected old new,
      fun y hy => below_replaceValue hf.wired.below h.below hn hy⟩
  · obtain ⟨-, n, hn, rfl⟩ := node?_replaceValue_eq_some.1 hn'
    refine ⟨n, hn, rfl, rfl, by simp [Node.redirected], fun i y' hy' => ?_, fun s' hs' => ?_⟩
    · obtain ⟨y, hy, rfl⟩ : ∃ y, n.inputs[i]? = some y ∧ redirect old new y = y' := by
        simpa [Node.redirected] using hy'
      exact ⟨y, hy, fun q hq hav => hav.redirected h hq⟩
    · obtain ⟨s, hs, rfl⟩ := Option.map_eq_some_iff.1 hs'
      exact ⟨s, hs, fun q hq hav => hav.redirected h hq⟩

/-! ## Who stands in for whom -/

/-- The operator at `x` reads `y`. -/
def Reads (g : Graph) (x y : NodeId) : Prop :=
  ∃ n, g.node? x = some n ∧ n.kind.isOperator ∧ y ∈ n.inputs

/-- No value that can be computed depends on itself. -/
theorem Available.acyclic (hx : g.Available q x) : ¬ Relation.TransGen g.Reads x x := by
  have hop : ∀ {x n}, g.node? x = some n → n.kind.isOperator = false →
      ¬ Relation.TransGen g.Reads x x := by
    intro x n hn hno hc
    obtain ⟨y, ⟨n', hn', ho, -⟩, -⟩ := Relation.TransGen.head'_iff.1 hc
    obtain rfl := Option.some.inj (hn.symm.trans hn')
    rw [hno] at ho
    cases ho
  induction hx with
  | constant hn hk | parameter hn hk => exact hop hn (by rw [hk]; rfl)
  | register ho =>
    obtain ⟨n, hn, hr⟩ := owns_exists ho
    refine hop hn ?_
    revert hr
    cases n.kind <;> simp [NodeKind.isOperator, NodeKind.isRegister]
  | binary hn _ _ ih | unary hn _ _ ih =>
    -- a circle through the operator is one through an operand
    intro hc
    obtain ⟨y, ⟨n', hn', ho, hy⟩, hyx⟩ := Relation.TransGen.head'_iff.1 hc
    obtain rfl := Option.some.inj (hn.symm.trans hn')
    exact ih y hy (.tail' hyx ⟨_, hn, ho, hy⟩)

theorem floats_of_isOperator (hn : g.node? old = some n) (ho : n.kind.isOperator) :
    g.Floats old := by
  intro n' hn'
  obtain rfl := Option.some.inj (hn.symm.trans hn')
  revert ho
  cases n.kind <;> simp [NodeKind.isOperator, NodeKind.isFixed]

/-- A constant stands in for every operator. -/
theorem standsIn_constant {v : Value} (hn : g.node? old = some n) (ho : n.kind.isOperator)
    (hc : g.kind? new = some (.constant v)) : g.StandsIn old new := by
  obtain ⟨nc, hnc, hk⟩ := kind?_eq_some.1 hc
  have hne : new ≠ old := by
    rintro rfl
    obtain rfl := Option.some.inj (hn.symm.trans hnc)
    simp [hk, NodeKind.isOperator] at ho
  refine ⟨floats_of_isOperator hn ho, lt_size_of_node? hnc, fun q _ _ _ => ?_,
    fun q n' _ hn' hs _ _ => ?_⟩
  · exact .constant (node?_redirected _ hne hnc) hk
  · obtain rfl := Option.some.inj (hn.symm.trans hn')
    revert ho hs
    cases n.kind <;> simp [NodeKind.isOperator, NodeKind.isFrameState]

/-- What an operator reads stands in for it. -/
theorem standsIn_operand (hw : g.Wired) (hn : g.node? old = some n) (ho : n.kind.isOperator)
    (hx : new ∈ n.inputs) :
    g.StandsIn old new := by
  refine ⟨floats_of_isOperator hn ho, hw.below old n new hn (by simp [Node.edges, hx]),
    fun q _ hq hi => ?_, fun q n' _ hn' hs _ _ => ?_⟩
  · have hne : new ≠ old := by
      rintro rfl
      exact hq.acyclic (.single ⟨n, hn, ho, hx⟩)
    have := hi n hn ho new hx
    rwa [redirect_of_ne hne] at this
  · obtain rfl := Option.some.inj (hn.symm.trans hn')
    revert ho hs
    cases n.kind <;> simp [NodeKind.isOperator, NodeKind.isFrameState]

/-- So does what an operator that it reads reads. -/
theorem standsIn_operand_operand {inner : Node} (hw : g.Wired) (hn : g.node? old = some n)
    (ho : n.kind.isOperator) (hx : x ∈ n.inputs) (hinner : g.node? x = some inner)
    (ho' : inner.kind.isOperator) (hy : new ∈ inner.inputs) :
    g.StandsIn old new := by
  refine ⟨floats_of_isOperator hn ho, hw.below x inner new hinner (by simp [Node.edges, hy]),
    fun q _ hq hi => ?_, fun q n' _ hn' hs _ _ => ?_⟩
  · have hxy : g.Reads x new := ⟨inner, hinner, ho', hy⟩
    have hne : new ≠ old := by
      rintro rfl
      exact hq.acyclic (.tail (.single ⟨n, hn, ho, hx⟩) hxy)
    have hxne : x ≠ old := by
      rintro rfl
      exact hq.acyclic (.single ⟨n, hn, ho, hx⟩)
    have hx' := hi n hn ho x hx
    rw [redirect_of_ne hxne] at hx'
    have hnode := node?_redirected new hxne hinner
    have hmem : new ∈ (inner.redirected old new).inputs :=
      List.mem_map.2 ⟨new, hy, redirect_of_ne hne⟩
    cases hx' with
    | binary hn' _ hi' | unary hn' _ hi' =>
      obtain rfl := Option.some.inj (hnode.symm.trans hn')
      exact hi' new hmem
    | constant hn' hk | parameter hn' hk =>
      obtain rfl := Option.some.inj (hnode.symm.trans hn')
      rw [Node.redirected_kind] at hk
      simp [hk, NodeKind.isOperator] at ho'
    | register hown =>
      obtain ⟨n', hn', hr⟩ := owns_exists hown
      obtain rfl := Option.some.inj (hnode.symm.trans hn')
      rw [Node.redirected_kind] at hr
      revert ho' hr
      cases inner.kind <;> simp [NodeKind.isOperator, NodeKind.isRegister]
  · obtain rfl := Option.some.inj (hn.symm.trans hn')
    revert ho hs
    cases n.kind <;> simp [NodeKind.isOperator, NodeKind.isFrameState]

/-- Equal nodes stand in for each other. -/
theorem standsIn_equal (hn : g.node? old = some n) (hn' : g.node? new = some n) (hne : new ≠ old)
    (hk : n.kind.isPure ∨ n.kind = .phi) : g.StandsIn old new := by
  have hfl : g.Floats old := by
    intro n' hn''
    obtain rfl := Option.some.inj (hn.symm.trans hn'')
    rcases hk with hk | hk
    · revert hk
      cases n.kind <;> simp [NodeKind.isPure, NodeKind.isFixed]
    · rw [hk]
      rfl
  have hnode := node?_redirected new hne hn'
  refine ⟨hfl, lt_size_of_node? hn', fun q _ hq hi => ?_, fun q n'' _ hn'' hs hi ho => ?_⟩
  · cases hq with
    | constant h hk =>
      obtain rfl := Option.some.inj (hn.symm.trans h)
      exact .constant hnode hk
    | parameter h hk =>
      obtain rfl := Option.some.inj (hn.symm.trans h)
      exact .parameter hnode hk
    | register hown hd =>
      refine .register (.inl (mem_phisOf.2 ⟨_, hnode, ?_⟩))
        ((sameControl_replaceValue hfl _).dominates.2 hd)
      rcases hown with hown | ⟨rfl, hown⟩
      · obtain ⟨n', h, hphi, hc⟩ := mem_phisOf.1 hown
        obtain rfl := Option.some.inj (hn.symm.trans h)
        exact ⟨hphi, hc⟩
      · rw [kind?, hn] at hown
        have := hfl n hn
        revert hown this
        cases hkind : n.kind <;> simp [NodeKind.isFixed, NodeKind.isInvoke, hkind]
    | binary h hk _ =>
      obtain rfl := Option.some.inj (hn.symm.trans h)
      refine .binary hnode hk fun y hy => ?_
      obtain ⟨y, hy', rfl⟩ := List.mem_map.1 hy
      exact hi n hn (by rw [hk]; rfl) y hy'
    | unary h hk _ =>
      obtain rfl := Option.some.inj (hn.symm.trans h)
      refine .unary hnode hk fun y hy => ?_
      obtain ⟨y, hy', rfl⟩ := List.mem_map.1 hy
      exact hi n hn (by rw [hk]; rfl) y hy'
  · obtain rfl := Option.some.inj (hn.symm.trans hn'')
    obtain ⟨shape, hshape⟩ : ∃ shape, n.kind = .frameState shape := by
      revert hs
      cases n.kind <;> simp [NodeKind.isFrameState]
    refine .frame hnode hshape (fun y hy => ?_) fun o hstate => ?_
    · obtain ⟨y, hy', rfl⟩ := List.mem_map.1 hy
      exact hi y hy'
    · obtain ⟨o, ho', rfl⟩ := Option.map_eq_some_iff.1 hstate
      exact ho o ho'

/-! ## Phis -/

/-- What is available where the old value is not does not depend on it. -/
theorem Available.without (hfl : g.Floats old) (hx : g.Available q x) (hold : ¬ g.Available q old) :
    (g.replaceValue old new).Available q x := by
  have hne : ∀ {y}, g.Available q y → y ≠ old := by
    rintro y hy rfl
    exact hold hy
  induction hx with
  | constant hn hk => exact .constant (node?_redirected _ (hne (.constant hn hk)) hn) hk
  | parameter hn hk => exact .parameter (node?_redirected _ (hne (.parameter hn hk)) hn) hk
  | register ho hd =>
    exact .register (owns_replaceValue.2 ⟨hne (.register ho hd), ho⟩)
      ((sameControl_replaceValue hfl _).dominates.2 hd)
  | binary hn hk hi ih =>
    refine .binary (node?_redirected _ (hne (.binary hn hk hi)) hn) hk fun y hy => ?_
    obtain ⟨y, hy', rfl⟩ := List.mem_map.1 hy
    rw [redirect_of_ne (hne (hi y hy'))]
    exact ih y hy'
  | unary hn hk hi ih =>
    refine .unary (node?_redirected _ (hne (.unary hn hk hi)) hn) hk fun y hy => ?_
    obtain ⟨y, hy', rfl⟩ := List.mem_map.1 hy
    rw [redirect_of_ne (hne (hi y hy'))]
    exact ih y hy'

/-- A phi is only available where its merge was passed. -/
theorem Available.phi_dominates (hx : g.Available q x) (hn : g.node? x = some n)
    (hk : n.kind = .phi) (hc : n.control.head? = some m) : g.Dominates m q := by
  cases hx with
  | register ho hd =>
    exact ho.unique (.inl (mem_phisOf.2 ⟨n, hn, hk, hc⟩)) ▸ hd
  | constant hn' hk' | parameter hn' hk' | binary hn' hk' | unary hn' hk' =>
    obtain rfl := Option.some.inj (hn.symm.trans hn')
    rw [hk] at hk'
    cases hk'

/-- Over an edge by which its merge is entered for the first time, a phi that
gets one value on all edges, itself apart, gets that value. -/
theorem Formed.phi_entry {nm : Node} (hf : g.Formed) (hn : g.node? old = some n)
    (hk : n.kind = .phi) (hc : n.control.head? = some m) (hnm : g.node? m = some nm)
    (hr : g.Reached m) (hall : ∀ y ∈ n.inputs, y = old ∨ y = new) (hq : g.Follows q m)
    (hnd : ¬ g.Dominates m q) : g.Available q new ∧ ¬ g.Available q old := by
  obtain ⟨m', hm, hrest⟩ := hf.wired.phis old n hn hk
  obtain rfl : m' = m := by simpa [hm] using hc
  obtain ⟨hlen, havail⟩ := (hrest nm hnm).2 hr
  obtain ⟨nm', hnm', -, hq⟩ := hq
  obtain rfl := Option.some.inj (hnm.symm.trans hnm')
  obtain ⟨i, hi⟩ := List.getElem?_of_mem hq
  have hlt : i < n.inputs.length := by
    rw [hlen]
    exact (List.getElem?_eq_some_iff.1 hi).1
  have hy := havail i q _ hi (List.getElem?_eq_getElem hlt)
  have hno : ¬ g.Available q old := fun h => hnd (h.phi_dominates hn hk hc)
  rcases hall _ (List.getElem_mem hlt) with h | h
  · rw [h] at hy
    exact absurd hy hno
  · rw [h] at hy
    exact ⟨hy, hno⟩

/-- What a phi gets on all edges, itself apart, stands in for it. -/
theorem standsIn_phi (hf : g.Formed) (hn : g.node? old = some n) (hk : n.kind = .phi)
    (hnew : new ∈ n.inputs) (hall : ∀ y ∈ n.inputs, y = old ∨ y = new) : g.StandsIn old new := by
  have hfl : g.Floats old := by
    intro n' hn'
    obtain rfl := Option.some.inj (hn.symm.trans hn')
    rw [hk]
    rfl
  obtain ⟨m, hm, hrest⟩ := hf.wired.phis old n hn hk
  have hhead : n.control.head? = some m := by rw [hm]; rfl
  refine ⟨hfl, hf.wired.below old n new hn (by simp [Node.edges, hnew]), fun q hr hq _ => ?_,
    fun q n' _ hn' hs _ _ => ?_⟩
  · have hdom : g.Dominates m q := hq.phi_dominates hn hk hhead
    have hrm : g.Reached m := hdom.reached hr
    obtain ⟨nm, hnm, -⟩ := hrm.exists_node hf.wired.skeleton
    have hmerge := (hrest nm hnm).1
    have hstart : m ≠ Graph.start := by
      rintro rfl
      rw [kind?_of_node? hnm hf.wired.start] at hmerge
      cases hmerge
    -- on an edge over which the merge is entered for the first time the phi
    -- itself cannot come in
    have hentry : ∀ p, g.Follows p m → ¬ g.Dominates m p →
        (g.replaceValue old new).Available p new := by
      intro p hp hnd
      obtain ⟨hy, hno⟩ := hf.phi_entry hn hk hhead hnm hrm hall hp hnd
      exact hy.without hfl hno
    have hnew' : (g.replaceValue old new).Available m new := by
      refine .of_entries hstart (fun p π hπ hfo hfirst => ?_) ?_
      · refine hentry p ((sameControl_replaceValue hfl _).follows.1 hfo) fun hd => hfirst ?_
        exact hd π ((sameControl_replaceValue hfl _).way.1 hπ)
      · obtain ⟨p, hfo, -, hnd⟩ := hrm.exists_entry hstart
        exact ⟨p, (sameControl_replaceValue hfl _).follows.2 hfo, hentry p hfo hnd⟩
    exact hnew'.dominated ((sameControl_replaceValue hfl _).dominates.2 hdom)
  · obtain rfl := Option.some.inj (hn.symm.trans hn')
    simp [hk, NodeKind.isFrameState] at hs

end Graph

end TieredEngine

import TieredEngine.Optimize.Fixpoint
import TieredEngine.Proofs.Optimize.Steps
/-!
# Reductions are rewrites

On a well-formed graph no reduction meets a missing node or edge, and what it
makes of the graph is a chain of rewrites. So the optimizer always gives a
graph, it comes from the first one by rewrites, and it is well-formed and has
no edge to a removed node: `optimize_rewrites`.
-/

namespace TieredEngine

/-! ## Operators -/

section

variable {g : Graph} {arguments : List Value} {ρ : Bindings} {h : ℕ} {id x y : NodeId} {n : Node}
    {a v : Value}

theorem DenotesIn.binary_inv {op : BinaryOp} (hn : g.node? id = some n) (hk : n.kind = .binary op)
    (hi : n.inputs = [x, y]) (hd : DenotesIn g arguments ρ h id v) :
    ∃ j a b, h = j + 1 ∧ DenotesIn g arguments ρ j x a ∧
      DenotesIn g arguments ρ j y b ∧ op.apply a b = .ok v := by
  cases hd with
  | binary hn' hk' hx hy ha hb ho =>
    obtain rfl := Option.some.inj (hn.symm.trans hn')
    obtain rfl := NodeKind.binary.inj (hk.symm.trans hk')
    rw [hi] at hx hy
    cases hx
    cases hy
    exact ⟨_, _, _, rfl, ha, hb, ho⟩
  | constant hn' hk' | parameter hn' hk' | unary hn' hk' | register hn' hk' =>
    obtain rfl := Option.some.inj (hn.symm.trans hn')
    simp [hk, NodeKind.isRegister] at hk'

theorem DenotesIn.unary_inv {op : UnaryOp} (hn : g.node? id = some n) (hk : n.kind = .unary op)
    (hi : n.inputs = [x]) (hd : DenotesIn g arguments ρ h id v) :
    ∃ j a, h = j + 1 ∧ DenotesIn g arguments ρ j x a ∧ op.apply a = .ok v := by
  cases hd with
  | unary hn' hk' hx ha ho =>
    obtain rfl := Option.some.inj (hn.symm.trans hn')
    obtain rfl := NodeKind.unary.inj (hk.symm.trans hk')
    rw [hi] at hx
    cases hx
    exact ⟨_, _, rfl, ha, ho⟩
  | constant hn' hk' | parameter hn' hk' | binary hn' hk' | register hn' hk' =>
    obtain rfl := Option.some.inj (hn.symm.trans hn')
    simp [hk, NodeKind.isRegister] at hk'

theorem DenotesIn.eq_constant (hc : g.constantAt x = some a) (hd : DenotesIn g arguments ρ h x v) :
    v = a := by
  obtain ⟨k, hk, hka⟩ := Option.bind_eq_some_iff.1 hc
  obtain ⟨n, hn, rfl⟩ := Graph.kind?_eq_some.1 hk
  have hconst : n.kind = .constant a := by
    revert hka
    cases n.kind <;> simp [NodeKind.constant?]
  exact hd.denotes.unique (.constant hn hconst)

end

theorem UnaryOp.apply_apply {op : UnaryOp} {a b v : Value} (ha : op.apply a = .ok b)
    (hb : op.apply b = .ok v) : v = a := by
  cases op <;> cases a <;> simp only [UnaryOp.apply, reduceCtorEq, Except.ok.injEq] at ha <;>
    subst ha <;>
    simpa [UnaryOp.apply, eq_comm] using hb

namespace Optimize

open TieredEngine.Graph

/-- The operator gives one of its operands whatever that is. -/
theorem identity?_operand {op : BinaryOp} {x y z : NodeId} {c : Option Value}
    (h : identity? op x y c = some (.operand z)) :
    z = x ∧ ∃ b, c = some b ∧ ∀ a v, op.apply a b = .ok v → v = a := by
  cases op with
  | add =>
    simp only [identity?, Option.ite_none_right_eq_some, Option.some.injEq,
      Identity.operand.injEq] at h
    refine ⟨h.2.symm, .int 0, h.1, fun a v hv => ?_⟩
    cases a <;> simp_all [BinaryOp.apply, BinaryOp.onInts]
  | sub =>
    simp only [identity?] at h
    split at h
    · refine ⟨by simpa [eq_comm] using h, .int 0, ‹_›, fun a v hv => ?_⟩
      cases a <;> simp_all [BinaryOp.apply, BinaryOp.onInts]
    · split at h <;> simp at h
  | mul =>
    simp only [identity?] at h
    split at h
    · refine ⟨by simpa [eq_comm] using h, .int 1, ‹_›, fun a v hv => ?_⟩
      cases a <;> simp_all [BinaryOp.apply, BinaryOp.onInts]
    · split at h <;> simp at h
  | equal | lessThan => simp [identity?] at h

/-- The operator gives a constant for this operand, or for two equal ones. -/
theorem identity?_value {op : BinaryOp} {x y : NodeId} {c : Option Value} {u : Value}
    (h : identity? op x y c = some (.value u)) :
    (∃ b, c = some b ∧ ∀ a v, op.apply a b = .ok v → v = u) ∨
      (x = y ∧ ∀ a v, op.apply a a = .ok v → v = u) := by
  cases op with
  | add => simp [identity?] at h
  | sub =>
    simp only [identity?] at h
    split at h
    · simp at h
    · simp only [Option.ite_none_right_eq_some, Option.some.injEq, Identity.value.injEq] at h
      refine .inr ⟨h.1, fun a v hv => ?_⟩
      cases a <;> simp_all [BinaryOp.apply, BinaryOp.onInts]
  | mul =>
    simp only [identity?] at h
    split at h
    · simp at h
    · simp only [Option.ite_none_right_eq_some, Option.some.injEq, Identity.value.injEq] at h
      refine .inl ⟨.int 0, h.1, fun a v hv => ?_⟩
      cases a <;> simp_all [BinaryOp.apply, BinaryOp.onInts]
  | equal | lessThan =>
    simp only [identity?, Option.ite_none_right_eq_some, Option.some.injEq,
      Identity.value.injEq] at h
    refine .inr ⟨h.1, fun a v hv => ?_⟩
    cases a <;> simp_all [BinaryOp.apply, BinaryOp.onInts]

variable {g g' : Graph} {id x y p : NodeId} {n : Node} {v : Value}

/-! ## Values -/

/-- An operator whose value is known may be replaced by a constant. -/
theorem rewrites_replaceByConstant (hf : g.Formed) (hn : g.node? id = some n)
    (ho : n.kind.isOperator)
    (hv : ∀ arguments ρ h w, DenotesIn g arguments ρ h id w → 0 < h ∧ w = v) :
    Rewrites g (replaceByConstant g id v) := by
  have hknown : ∀ {g₁ : Graph} {c}, g.Extends g₁ → g₁.kind? c = some (.constant v) →
      g₁.Rewrite (g₁.replaceValue id c) := by
    intro g₁ c he hc
    have hn' := he.node hn
    obtain ⟨nc, hnc, hk⟩ := kind?_eq_some.1 hc
    refine .simplify ⟨⟨n, hn', ho⟩, standsIn_constant hn' ho hc, fun arguments ρ h w hd => ?_⟩
    obtain ⟨hpos, rfl⟩ := hv arguments ρ h w (hd.of_extends hf.wired.below he (lt_size_of_node? hn))
    exact ⟨0, hpos, .constant hnc hk⟩
  have hnew : Rewrites g ((g.newConstant v).1.replaceValue id (g.newConstant v).2) :=
    .tail (.single (.constant v))
      (hknown (extends_newConstant g v) (kind?_eq_some.2 ⟨_, node?_newConstant g v, rfl⟩))
  unfold replaceByConstant constant
  dsimp only
  split
  · split
    · exact .single (hknown (.refl g) ‹_›)
    · exact hnew
  · exact hnew

/-! ## Phis and merges -/

/-- The phi of a merge that joins nothing has another value as its only
input. -/
theorem input_ne_of_phi {m : NodeId} {nm : Node} (hf : g.Formed) (hm : g.node? m = some nm)
    (hc : nm.control = [p]) (hx : id ∈ g.phisOf m) (hn : g.node? id = some n)
    (hi : n.inputs = [x]) : x ≠ id := by
  obtain ⟨n', hn', hk, hh⟩ := mem_phisOf.1 hx
  obtain rfl := Option.some.inj (hn.symm.trans hn')
  obtain ⟨m', hm', hrest⟩ := hf.wired.phis id n hn hk
  obtain rfl : m' = m := by simpa [hm'] using hh
  obtain ⟨hmerge, hrest⟩ := hrest nm hm
  have hr := hf.trim m' nm hm (NodeKind.isFixed_of_isMerge hmerge)
  obtain ⟨-, havail⟩ := hrest hr
  rw [hc] at havail
  rintro rfl
  have hdom : g.Dominates m' p := (havail 0 p x rfl (by rw [hi]; rfl)).phi_dominates hn hk hh
  have hstart : m' ≠ Graph.start := by
    rintro rfl
    rw [kind?_of_node? hm hf.wired.start] at hmerge
    cases hmerge
  obtain ⟨q, ⟨nm', hnm', -, hq⟩, -, hnd⟩ := hr.exists_entry hstart
  obtain rfl := Option.some.inj (hm.symm.trans hnm')
  rw [hc, List.mem_singleton] at hq
  exact hnd (hq ▸ hdom)

/-- The phis of a merge that joins nothing are rewritten one after the other. -/
theorem rewrites_of_collapse {m : NodeId} {nm : Node} {phis : List NodeId} (hc : nm.control = [p])
    (hk : nm.kind.isMerge) (h : Collapse phis g g') :
    g.Formed → g.node? m = some nm → (∀ phi ∈ phis, phi ∈ g.phisOf m) →
      phis.Nodup → Rewrites g g' ∧ g'.node? m = some nm := by
  induction h with
  | nil => exact fun _ hm _ _ => ⟨.refl, hm⟩
  | @cons phi phis g g' n x hn hkp hi _ ih =>
    intro hf hm hphis hnd
    rw [List.nodup_cons] at hnd
    have hne := input_ne_of_phi hf hm hc (hphis phi List.mem_cons_self) hn hi
    have hrw : g.Rewrite (g.replaceValue phi x) := .phi hn hkp (by simp [hi]) hne (by simp [hi])
    have hpm : m ≠ phi := by
      rintro rfl
      obtain rfl := Option.some.inj (hm.symm.trans hn)
      rw [hkp] at hk
      cases hk
    have hm' : (g.replaceValue phi x).node? m = some nm := by
      have hcount := hf.wired.counted m nm hm
      rw [node?_redirected x hpm hm]
      obtain ⟨hin, hst⟩ : nm.inputs = [] ∧ nm.state = none := by
        revert hcount hk
        unfold Node.Counted
        cases nm.kind <;> simp +contextual [NodeKind.isMerge]
      obtain ⟨kind, inputs, control, state⟩ := nm
      dsimp only at hin hst
      subst hin hst
      rfl
    obtain ⟨h1, h2⟩ := ih (hrw.formed hf) hm' (fun z hz => mem_phisOf_replaceValue.2
      ⟨fun he => hnd.1 (he ▸ hz), hphis z (List.mem_cons_of_mem _ hz)⟩) hnd.2
    exact ⟨.head hrw h1, h2⟩

/-! ## Any node -/

/-- Whatever a reduction makes of a well-formed graph, it is a chain of
rewrites. -/
theorem rewrites_of_reduced (hf : g.Formed) (hn : g.node? id = some n) (h : Reduced g id n g') :
    Rewrites g g' := by
  have hoperator : ∀ {op : BinaryOp}, n.kind = .binary op → n.kind.isOperator := fun hk => by
    rw [hk]; rfl
  have hoperator' : ∀ {op : UnaryOp}, n.kind = .unary op → n.kind.isOperator := fun hk => by
    rw [hk]; rfl
  cases h with
  | folded hk hi ha hb hv =>
    refine rewrites_replaceByConstant hf hn (hoperator hk) fun arguments ρ h w hd => ?_
    obtain ⟨j, a', b', rfl, ha', hb', hw⟩ := hd.binary_inv hn hk hi
    rw [ha'.eq_constant ha, hb'.eq_constant hb, hv] at hw
    exact ⟨by omega, (Except.ok.inj hw).symm⟩
  | swapped hk hc hi _ _ => exact .single (.swap hn hk hc hi)
  | operand hk hi hz =>
    obtain ⟨rfl, b, hb, happly⟩ := identity?_operand hz
    refine .single (.simplify
      ⟨⟨n, hn, hoperator hk⟩, standsIn_operand hf.wired hn (hoperator hk) (by simp [hi]), ?_⟩)
    intro arguments ρ h v hd
    obtain ⟨j, a, b', rfl, ha, hb', hv⟩ := hd.binary_inv hn hk hi
    rw [hb'.eq_constant hb] at hv
    exact ⟨j, by omega, happly a v hv ▸ ha⟩
  | value hk hi hv =>
    refine rewrites_replaceByConstant hf hn (hoperator hk) fun arguments ρ h w hd => ?_
    obtain ⟨j, a, b, rfl, ha, hb, hw⟩ := hd.binary_inv hn hk hi
    refine ⟨by omega, ?_⟩
    rcases identity?_value hv with ⟨b', hb', happly⟩ | ⟨rfl, happly⟩
    · rw [hb.eq_constant hb'] at hw
      exact happly a w hw
    · rw [ha.denotes.unique hb.denotes] at hw
      exact happly b w hw
  | foldedUnary hk hi ha hv =>
    refine rewrites_replaceByConstant hf hn (hoperator' hk) fun arguments ρ h w hd => ?_
    obtain ⟨j, a', rfl, ha', hw⟩ := hd.unary_inv hn hk hi
    rw [ha'.eq_constant ha, hv] at hw
    exact ⟨by omega, (Except.ok.inj hw).symm⟩
  | undone hk hi hinner hk' hi' =>
    refine .single (.simplify ⟨⟨n, hn, hoperator' hk⟩, standsIn_operand_operand hf.wired hn
      (hoperator' hk) (by simp [hi]) hinner (by rw [hk']; rfl) (by simp [hi']), ?_⟩)
    intro arguments ρ h v hd
    obtain ⟨j, b, rfl, hb, hv⟩ := hd.unary_inv hn hk hi
    obtain ⟨j, a, rfl, ha, hb⟩ := hb.unary_inv hinner hk' hi'
    exact ⟨j, by omega, UnaryOp.apply_apply hb hv ▸ ha⟩
  | phi hk hx hne hall => exact .single (.phi hn hk hx hne hall)
  | merge hk hc hcollapse =>
    obtain ⟨h1, h2⟩ := rewrites_of_collapse hc hk hcollapse hf hn (fun _ h => h) (g.phisOf_nodup id)
    exact h1.tail (.join h2 hk hc hcollapse.phisOf_eq_nil)
  | branch hk hi hc hb hs => exact .single (.branch hn hk hi hc hb hs)
  | guard hk hi hc hknown => exact .single (.guard hn hk hi hc hknown)

/-! ## Rounds -/

theorem reduceAll_rewrites (ids : List NodeId) : ∀ (g : Graph) (c : ReductionCounts), g.Formed →
    ∃ g' c', reduceAll ids g c = .ok (g', c') ∧ Rewrites g g' := by
  induction ids with
  | nil => exact fun g c _ => ⟨g, c, rfl, .refl⟩
  | cons id ids ih =>
    intro g c hf
    obtain ⟨r, hr, hreduced⟩ := reduceNode_gives hf.orderly id
    rw [reduceAll, hr]
    cases r with
    | none => exact ih g c hf
    | some r =>
      obtain ⟨kind, g₁⟩ := r
      obtain ⟨n, hn, hred⟩ := hreduced kind g₁ rfl
      have hrw := rewrites_of_reduced hf hn hred
      obtain ⟨g', c', h1, h2⟩ := ih g₁ (c.count kind) (hrw.formed hf)
      exact ⟨g', c', h1, hrw.trans h2⟩

/-! ## Sharing -/

/-- What a sweep remembers: a node that it met is still as it was, or had an
edge that is dead by now. -/
def Remembers (s : Sweep) (left : List NodeId) : Prop :=
  ∀ n id, (n, id) ∈ s.met → id ∉ left ∧ (s.graph.node? id = some n ∨ hasDeadEdge s.graph n)

theorem hasDeadEdge_replaceValue {old new : NodeId} (h : hasDeadEdge g n) :
    hasDeadEdge (g.replaceValue old new) n := by
  obtain ⟨e, he, hdead⟩ := List.any_eq_true.1 h
  refine List.any_eq_true.2 ⟨e, he, ?_⟩
  rw [Bool.not_eq_true', Graph.contains, Option.isSome_eq_false_iff,
    Option.isNone_iff_eq_none] at hdead ⊢
  rw [node?_replaceValue, hdead]
  simp

/-- A node without an edge to the old value stays as it is. -/
theorem redirected_eq {old new : NodeId} (h : old ∉ n.edges) : n.redirected old new = n := by
  simp only [Node.edges, List.mem_append, Option.mem_toList, not_or] at h
  have hin : n.inputs.map (redirect old new) = n.inputs := by
    refine (List.map_congr_left fun y hy => ?_).trans (List.map_id _)
    exact redirect_of_ne fun he => h.1.1 (he ▸ hy)
  have hst : n.state.map (redirect old new) = n.state := by
    cases hs : n.state with
    | none => rfl
    | some s => exact congrArg some (redirect_of_ne fun he => h.2 (he ▸ hs))
  rw [Node.redirected, hin, hst]

/-- Sharing a node leaves the graph as it is, or replaces the node by an equal
one; the counts play no part in it. -/
theorem shareNode_cases {s : Sweep} {left : List NodeId} (h : Remembers s (id :: left)) :
    (∃ met, (met = s.met ∨ ∃ n, s.graph.node? id = some n ∧ met = (n, id) :: s.met) ∧
      ∀ c, shareNode { s with counts := c } id = ⟨s.graph, c, met⟩) ∨
    ∃ n first, s.graph.node? id = some n ∧ s.graph.node? first = some n ∧ first ≠ id ∧
      (n.kind.isPure ∨ n.kind = .phi) ∧ ∀ c, shareNode { s with counts := c } id =
        ⟨s.graph.replaceValue id first, c.count .valueNumbered, s.met⟩ := by
  unfold shareNode
  dsimp only
  cases hn : s.graph.node? id with
  | none => exact .inl ⟨s.met, .inl rfl, fun _ => rfl⟩
  | some n =>
    dsimp only
    by_cases hskip : !(n.kind.isPure || n.kind = .phi) || hasDeadEdge s.graph n
    · exact .inl ⟨s.met, .inl rfl, fun _ => if_pos hskip⟩
    · simp only [if_neg hskip]
      simp only [Bool.or_eq_true, Bool.not_eq_true', not_or, Bool.not_eq_true,
        Bool.not_eq_false] at hskip
      obtain ⟨hkind, hdead⟩ := hskip
      cases hlookup : s.met.lookup n with
      | none => exact .inl ⟨(n, id) :: s.met, .inr ⟨n, rfl, rfl⟩, fun _ => rfl⟩
      | some first =>
        obtain ⟨hfirst, hsame⟩ := h n first (mem_of_lookup hlookup)
        exact .inr ⟨n, first, rfl, hsame.resolve_right (by simp [hdead]),
          fun he => hfirst (he ▸ List.mem_cons_self), by simpa using hkind, fun _ => rfl⟩

theorem remembers_shareNode {s : Sweep} {left : List NodeId} (h : Remembers s (id :: left))
    (hid : id ∉ left) :
    Remembers (shareNode s id) left := by
  have hweaken : Remembers s left :=
    fun n f hf => ⟨fun hm => (h n f hf).1 (List.mem_cons_of_mem _ hm), (h n f hf).2⟩
  rcases shareNode_cases h with ⟨met, hmet, hs⟩ | ⟨n, first, -, -, -, -, hs⟩
  · rw [hs s.counts]
    rcases hmet with rfl | ⟨n, hn, rfl⟩
    · exact hweaken
    · intro n' f hf
      rcases List.mem_cons.1 hf with he | hf
      · cases he
        exact ⟨hid, .inl hn⟩
      · exact hweaken n' f hf
  · rw [hs s.counts]
    intro n' f hf
    obtain ⟨hfl, hold⟩ := h n' f hf
    refine ⟨fun hm => hfl (List.mem_cons_of_mem _ hm), ?_⟩
    have hfid : f ≠ id := fun he => hfl (he ▸ List.mem_cons_self)
    rcases hold with hold | hold
    · by_cases hedge : id ∈ n'.edges
      · refine .inr (List.any_eq_true.2 ⟨id, hedge, ?_⟩)
        simp [Graph.contains, node?_replaceValue]
      · exact .inl ((node?_redirected first hfid hold).trans (by rw [redirected_eq hedge]))
    · exact .inr (hasDeadEdge_replaceValue hold)

/-- A sweep starts with nothing to remember. -/
theorem remembers_nil (g : Graph) (c : ReductionCounts) (ids : List NodeId) :
    Remembers ⟨g, c, []⟩ ids := fun n id h => by
  cases h

section

open Relation (ReflTransGen)

variable {R : Graph → Graph → Prop}
    (hR : ∀ {g : Graph} {id first : NodeId} {n : Node}, g.node? id = some n → g.node? first = some
      n → first ≠ id → n.kind.isPure ∨ n.kind = .phi → R g (g.replaceValue id first))

include hR

theorem shareNode_steps {s : Sweep} {left : List NodeId} (h : Remembers s (id :: left)) :
    ReflTransGen R s.graph (shareNode s id).graph := by
  rcases shareNode_cases h with ⟨met, -, hs⟩ | ⟨n, first, hn, hn', hne, hk, hs⟩
  · rw [hs s.counts]
  · rw [hs s.counts]
    exact .single (hR hn hn' hne hk)

/-- Sharing replaces one node after the other by an equal one. -/
theorem shareValues_steps (g : Graph) (c : ReductionCounts) :
    ReflTransGen R g (shareValues g c).1 := by
  have hsweep : ∀ (ids : List NodeId) (s : Sweep), ids.Nodup → Remembers s ids →
      ReflTransGen R s.graph (ids.foldl shareNode s).graph := by
    intro ids
    induction ids with
    | nil => exact fun _ _ _ => .refl
    | cons id ids ih =>
      intro s hnd hs
      rw [List.nodup_cons] at hnd
      exact (shareNode_steps hR hs).trans (ih _ hnd.2 (remembers_shareNode hs hnd.1))
  exact hsweep g.nodeIds ⟨g, c, []⟩ g.nodeIds_nodup (remembers_nil g c _)

end

theorem shareValues_rewrites (g : Graph) (c : ReductionCounts) : Rewrites g (shareValues g c).1 :=
  shareValues_steps Rewrite.share g c

/-! ## The optimizer -/

theorem rounds_rewrites (cap : ℕ) : ∀ (g : Graph) (c : ReductionCounts), g.Formed →
    ∃ g' c', rounds cap g c = .ok (g', c') ∧ Rewrites g g' := by
  induction cap with
  | zero => exact fun g c _ => ⟨g, c, rfl, .refl⟩
  | succ cap ih =>
    intro g c hf
    have hshare := shareValues_rewrites g { c with rounds := c.rounds + 1 }
    obtain ⟨g₁, c₁, h1, h2⟩ :=
      reduceAll_rewrites (shareValues g { c with rounds := c.rounds + 1 }).1.nodeIds
        (shareValues g { c with rounds := c.rounds + 1 }).1
        (shareValues g { c with rounds := c.rounds + 1 }).2 (hshare.formed hf)
    have hround : round g c = .ok (g₁, c₁) := h1
    have hg₁ : Rewrites g g₁ := hshare.trans h2
    rw [rounds, hround]
    simp only [bind, Except.bind]
    split
    · exact ⟨g₁, c₁, rfl, hg₁⟩
    · obtain ⟨g', c', h3, h4⟩ := ih g₁ c₁ (hg₁.formed hf)
      exact ⟨g', c', h3, hg₁.trans h4⟩

theorem eliminateDead_rewrites (hf : g.Formed) : Rewrites g (eliminateDead g).1 := by
  have hpass : ∀ (fuel : ℕ) (g : Graph), g.Formed → Rewrites g (eliminateUpTo fuel g).1 := by
    intro fuel
    induction fuel with
    | zero => exact fun _ _ => .refl
    | succ fuel ih =>
      intro g hf
      have hone : (eliminateOnce g).1 = (sweepDead g).1 := by
        rw [eliminateOnce, cutUnreachable_of_trim hf.wired.skeleton hf.trim]
      have hrw : g.Rewrite (eliminateOnce g).1 := hone ▸ .sweep
      rw [eliminateUpTo]
      dsimp only
      split
      · exact .single hrw
      · exact .head hrw (ih _ (hrw.formed hf))
  exact hpass _ g hf

theorem optimizeUpTo_rewrites (cap left : ℕ) :
    ∀ (g : Graph) (s : Summary), g.Formed → (left = 0 → g.Clean) →
      ∃ g' s', optimizeUpTo cap left g s = .ok (g', s') ∧ Rewrites g g' ∧ g'.Clean := by
  induction left with
  | zero => exact fun g s _ hc => ⟨g, s, rfl, .refl, hc rfl⟩
  | succ left ih =>
    intro g s hf _
    obtain ⟨g₁, c, h1, h2⟩ := rounds_rewrites (max cap 1) g {} hf
    have hcanon : canonicalize cap g = .ok (g₁, c) := h1
    have hf₁ := h2.formed hf
    have hrw : Rewrites g (eliminateDead g₁).1 := h2.trans (eliminateDead_rewrites hf₁)
    have hclean := (formed_eliminateDead hf₁).2
    rw [optimizeUpTo, hcanon]
    simp only [bind, Except.bind]
    split
    · exact ⟨_, _, rfl, hrw, hclean⟩
    · obtain ⟨g', s', h3, h4, h5⟩ := ih _ _ (hrw.formed hf) fun _ => hclean
      exact ⟨g', s', h3, hrw.trans h4, h5⟩

/-- The optimizer rewrites every well-formed graph to one without edges to
removed nodes. -/
theorem optimize_rewrites (cap : ℕ) (hf : g.Formed) :
    ∃ g' s, optimize cap g = .ok (g', s) ∧ Rewrites g g' ∧ g'.Clean :=
  optimizeUpTo_rewrites _ _ g {} hf fun h => by omega

end Optimize

end TieredEngine

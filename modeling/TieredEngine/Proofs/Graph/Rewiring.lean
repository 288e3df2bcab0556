import TieredEngine.Proofs.Graph.Appending
/-!
# Graphs with the same control

Two graphs with the same fixed nodes and the same control edges have the same
ways of control. If what the nodes of the first read is still available in the
second, the second is well-formed when the first is: `Formed.rewired`.
-/

namespace TieredEngine

namespace Graph

variable {g g' : Graph} {q m d x : NodeId} {n : Node} {π : List NodeId}

/-- Both graphs have the same fixed nodes, and nodes keep their control
edges. -/
structure SameControl (g g' : Graph) : Prop where
  stays : ∀ m n, g.node? m = some n → n.kind.isFixed → ∃ n', g'.node? m = some n'
  old : ∀ m n', g'.node? m = some n' → m < g.nodes.size → ∃ n, g.node? m = some n ∧
    n'.kind = n.kind ∧ n'.control = n.control
  fresh : ∀ m n', g'.node? m = some n' → g.nodes.size ≤ m → n'.kind.isFixed = false

section

variable (h : g.SameControl g')

include h

theorem SameControl.forth (hn : g.node? m = some n) (hk : n.kind.isFixed) :
    ∃ n', g'.node? m = some n' ∧ n'.kind = n.kind ∧ n'.control = n.control := by
  obtain ⟨n', hn'⟩ := h.stays m n hn hk
  obtain ⟨n₀, hn₀, hkind, hc⟩ := h.old m n' hn' (lt_size_of_node? hn)
  obtain rfl := Option.some.inj (hn.symm.trans hn₀)
  exact ⟨n', hn', hkind, hc⟩

theorem SameControl.back {n' : Node} (hn' : g'.node? m = some n') (hk : n'.kind.isFixed) :
    ∃ n, g.node? m = some n ∧ n'.kind = n.kind ∧ n'.control = n.control := by
  refine h.old m n' hn' (Nat.lt_of_not_le fun hle => ?_)
  rw [h.fresh m n' hn' hle] at hk
  cases hk

theorem SameControl.follows : g'.Follows q m ↔ g.Follows q m := by
  constructor
  · rintro ⟨n', hn', hk, hq⟩
    obtain ⟨n, hn, hkind, hc⟩ := h.back hn' hk
    exact ⟨n, hn, hkind ▸ hk, hc ▸ hq⟩
  · rintro ⟨n, hn, hk, hq⟩
    obtain ⟨n', hn', hkind, hc⟩ := h.forth hn hk
    exact ⟨n', hn', hkind ▸ hk, hc ▸ hq⟩

theorem SameControl.way : g'.Way m π ↔ g.Way m π :=
  ⟨Way.mono fun _ _ => h.follows.1, Way.mono fun _ _ => h.follows.2⟩

theorem SameControl.reached : g'.Reached m ↔ g.Reached m := exists_congr fun _ => h.way

theorem SameControl.dominates :
    g'.Dominates d m ↔ g.Dominates d m := forall_congr' fun _ => imp_congr_left h.way

theorem SameControl.kind {k : NodeKind} (hk : g.kind? m = some k) (hf : k.isFixed) :
    g'.kind? m = some k := by
  obtain ⟨n, hn, rfl⟩ := kind?_eq_some.1 hk
  obtain ⟨n', hn', hkind, -⟩ := h.forth hn hf
  exact kind?_eq_some.2 ⟨n', hn', hkind⟩

theorem SameControl.goesOn {k : NodeKind} (hgo : g.GoesOn m k) : g'.GoesOn m k := by
  refine hgo.congr (fun s => h.follows) fun s k ⟨ns, hns, hfix, _⟩ hk => h.kind hk ?_
  exact kind?_of_node? hns hk ▸ hfix

end

/-- The node of the second graph reads, place by place, what the node of the
first does or something that is available wherever that was. -/
structure Reading (g g' : Graph) (n n' : Node) : Prop where
  kind : n'.kind = n.kind
  control : n'.control = n.control
  length : n'.inputs.length = n.inputs.length
  inputs : ∀ (i : ℕ) y', n'.inputs[i]? = some y' → ∃ y, n.inputs[i]? = some y ∧
    ∀ q, g.Reached q → g.Available q y → g'.Available q y'
  state : ∀ s', n'.state = some s' → ∃ s, n.state = some s ∧
    ∀ q, g.Reached q → g.StateAvailable q s → g'.StateAvailable q s'

/-- Control gets to the nodes that control comes from. -/
theorem Orderly.reached_control (hg : g.Orderly) (hn : g.node? m = some n) (hk : n.kind.isFixed)
    (hq : q ∈ n.control) :
    g.Reached q := by
  obtain ⟨k, h1, h2, -⟩ := hg.skeleton.behind m n q hn hk (hg.trim m n hn hk) hq
  obtain ⟨nq, hnq, rfl⟩ := kind?_eq_some.1 h1
  exact hg.trim q nq hnq h2

theorem Formed.reached_control (hf : g.Formed) (hn : g.node? m = some n) (hk : n.kind.isFixed)
    (hq : q ∈ n.control) :
    g.Reached q := hf.orderly.reached_control hn hk hq

/-- Of two graphs with the same control both have a skeleton, if the nodes
have the right number of edges and phis keep theirs. -/
theorem Skeleton.rewired (hs : g.Skeleton) (h : g.SameControl g')
    (hnode : ∀ x n', g'.node? x = some n' → n'.Arity ∧ ∀ y ∈ n'.edges, y < g'.nodes.size)
    (hphi : ∀ x n', g'.node? x = some n' → n'.kind = .phi → ∃ n, g.node? x = some n ∧
      n.kind = .phi ∧
      n'.control = n.control ∧ n'.inputs.length = n.inputs.length) : g'.Skeleton where
  start := h.kind hs.start rfl
  only m n' hn' hk := by
    obtain ⟨n, hn, hkind, -⟩ := h.back hn' (by rw [hk]; rfl)
    exact hs.only m n hn (hkind.symm.trans hk)
  below m n' x hn' := (hnode m n' hn').2 x
  arity m n' hn' := (hnode m n' hn').1
  behind m n' q hn' hk hr hq := by
    obtain ⟨n, hn, hkind, hc⟩ := h.back hn' hk
    obtain ⟨k, h1, h2, h3⟩ := hs.behind m n q hn (hkind ▸ hk) (h.reached.1 hr) (hc ▸ hq)
    exact ⟨k, h.kind h1 h2, h2, hkind ▸ h3⟩
  phis x n' hn' hk := by
    obtain ⟨n, hn, hkind, hc, hlen⟩ := hphi x n' hn' hk
    obtain ⟨m, hm, hrest⟩ := hs.phis x n hn hkind
    refine ⟨m, hc.trans hm, fun nm' hnm' => ?_⟩
    obtain ⟨nm, hnm, hkm, hcm⟩ := h.old m nm' hnm' (hs.below x n m hn (by simp [Node.edges, hm]))
    obtain ⟨hmerge, hrest⟩ := hrest nm hnm
    exact ⟨hkm ▸ hmerge, fun hr => by rw [hlen, hcm, hrest (h.reached.1 hr)]⟩

theorem Trim.rewired (ht : g.Trim) (h : g.SameControl g') : g'.Trim := by
  intro m n' hn' hk
  obtain ⟨n, hn, hkind, -⟩ := h.back hn' hk
  exact h.reached.2 (ht m n hn (hkind ▸ hk))

theorem OpenAt.rewired (ho : g.OpenAt []) (h : g.SameControl g') : g'.OpenAt [] where
  nodup := List.nodup_nil
  free := by simp
  goesOn m n' hn' hk hr hm := by
    obtain ⟨n, hn, hkind, -⟩ := h.back hn' hk
    rw [hkind]
    exact h.goesOn (ho.goesOn m n hn (hkind ▸ hk) (h.reached.1 hr) hm)

/-- A graph with the same control is orderly if its nodes have the right
number of edges and its phis keep theirs. -/
theorem Orderly.rewired (hg : g.Orderly) (h : g.SameControl g')
    (hnode : ∀ x n', g'.node? x = some n' → n'.Arity ∧ ∀ y ∈ n'.edges, y < g'.nodes.size)
    (hphi : ∀ x n', g'.node? x = some n' → n'.kind = .phi → ∃ n, g.node? x = some n ∧
      n.kind = .phi ∧
      n'.control = n.control ∧ n'.inputs.length = n.inputs.length) : g'.Orderly := by
  exact ⟨hg.skeleton.rewired h hnode hphi, hg.trim.rewired h, hg.closed.rewired h⟩

/-- A graph with the same control, whose fixed nodes and phis read what is
available, is well-formed. -/
theorem Formed.rewired (hf : g.Formed) (h : g.SameControl g')
    (hnode : ∀ x n', g'.node? x = some n' → n'.Counted ∧ ∀ y ∈ n'.edges, y < g'.nodes.size)
    (hread : ∀ x n', g'.node? x = some n' → n'.kind.isFixed ∨
        n'.kind = .phi → ∃ n, g.node? x = some n ∧ g.Reading g' n n') (hframes : g.KeepsFrames g') :
    g'.Formed := by
  have hw := hf.wired
  have hg' : g'.Orderly := by
    refine hf.orderly.rewired h (fun x n' hn' => ⟨(hnode x n' hn').1.arity, (hnode x n' hn').2⟩)
      fun x n' hn' hk => ?_
    obtain ⟨n, hn, hrd⟩ := hread x n' hn' (.inr hk)
    exact ⟨n, hn, hrd.kind.symm.trans hk, hrd.control, hrd.length⟩
  refine ⟨hg'.skeleton.wired (fun m n' hn' => (hnode m n' hn').1) (fun m n' hn' hk => ?_)
    (fun m n' q x hn' hk hr hq hx => ?_)
    (fun m n' q s hn' hk hr hq hs => ?_) (fun x n' m nm' hn' hk hm hnm' hr i q y' hq hy' => ?_),
    hg'.trim, hg'.closed, hf.frames.kept hframes⟩
  · obtain ⟨n, hn, hkind, hc⟩ := h.back hn' hk
    exact hc ▸ hw.distinct m n hn (hkind ▸ hk)
  · obtain ⟨n, hn, hrd⟩ := hread m n' hn' (.inl hk)
    obtain ⟨i, hi⟩ := List.getElem?_of_mem hx
    obtain ⟨y, hy, hav⟩ := hrd.inputs i x hi
    have hk' : n.kind.isFixed := hrd.kind ▸ hk
    have hq' : q ∈ n.control := hrd.control ▸ hq
    exact hav q (hf.reached_control hn hk' hq')
      (hw.inputs m n q y hn hk' (h.reached.1 hr) hq' (List.mem_of_getElem? hy))
  · obtain ⟨n, hn, hrd⟩ := hread m n' hn' (.inl hk)
    obtain ⟨s₀, hs₀, hav⟩ := hrd.state s hs
    have hk' : n.kind.isFixed := hrd.kind ▸ hk
    have hq' : q ∈ n.control := hrd.control ▸ hq
    exact hav q (hf.reached_control hn hk' hq') (hw.states m n q s₀ hn hk' (h.reached.1 hr) hq' hs₀)
  · obtain ⟨n, hn, hrd⟩ := hread x n' hn' (.inr hk)
    obtain ⟨m', hm', hrest⟩ := hw.phis x n hn (hrd.kind.symm.trans hk)
    obtain rfl : m = m' := by simpa [hrd.control, hm'] using hm.symm
    obtain ⟨nm, hnm, hkm, hcm⟩ := h.old m nm' hnm' (hw.below x n m hn (by simp [Node.edges, hm']))
    obtain ⟨hmerge, hrest⟩ := hrest nm hnm
    obtain ⟨-, havail⟩ := hrest (h.reached.1 hr)
    obtain ⟨y, hy, hav⟩ := hrd.inputs i y' hy'
    rw [hcm] at hq
    exact hav q (hf.reached_control hnm (NodeKind.isFixed_of_isMerge hmerge)
      (List.mem_of_getElem? hq)) (havail i q y hq hy)

end Graph

end TieredEngine

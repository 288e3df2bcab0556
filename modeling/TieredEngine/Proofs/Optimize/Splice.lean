import TieredEngine.Proofs.Optimize.Redirect
/-!
# Nodes spliced out of the control chain

A fixed node that sets no register may be taken out when what follows it is
put behind its predecessor: ways of control lose the node and nothing else, so
what was available stays available. A branch whose side is known goes with
that side, and leaves the other side where control never gets.
-/

namespace TieredEngine

/-- The node with its control edges at `old` led to `new`. -/
def Node.rerouted (old new : NodeId) (n : Node) : Node :=
  { n with control := n.control.map (Graph.redirect old new) }

@[simp]
theorem Node.rerouted_kind (old new : NodeId) (n : Node) : (n.rerouted old new).kind = n.kind := rfl

theorem Node.Arity.rerouted {n : Node} (h : n.Arity) (old new : NodeId) :
    (n.rerouted old new).Arity := by
  revert h
  unfold Node.Arity
  rw [Node.rerouted_kind]
  cases n.kind <;> simp +contextual [Node.rerouted]

theorem Node.Counted.rerouted {n : Node} (h : n.Counted) (old new : NodeId) :
    (n.rerouted old new).Counted := by
  revert h
  unfold Node.Counted
  rw [Node.rerouted_kind]
  cases n.kind <;> simp +contextual [Node.rerouted]

namespace Graph

variable {g : Graph} {p first w q m d x s : NodeId} {n : Node} {π : List NodeId}

/-- What is available behind a node that sets nothing was available before. -/
theorem Available.before (h : g.Available m x) (hown : ∀ y, ¬ Owns g m y) (hf : g.Follows q m) :
    g.Available q x := by
  induction h with
  | constant hn hk => exact .constant hn hk
  | parameter hn hk => exact .parameter hn hk
  | register ho hd =>
    refine .register ho (hd.of_follows ?_ hf)
    rintro rfl
    exact hown _ ho
  | binary hn hk _ ih => exact .binary hn hk ih
  | unary hn hk _ ih => exact .unary hn hk ih

theorem StateAvailable.before (h : g.StateAvailable m x) (hown : ∀ y, ¬ Owns g m y)
    (hf : g.Follows q m) :
    g.StateAvailable q x := by
  induction h with
  | frame hn hk hi _ ih => exact .frame hn hk (fun y hy => (hi y hy).before hown hf) ih

/-- Behind a branch there are its sides, and control comes there from the
branch alone. -/
theorem Orderly.side_of_branch (hg : g.Orderly) (hk : g.kind? q = some .branch)
    (hfo : g.Follows q m) :
    ∃ n, g.node? m = some n ∧ n.kind.isSide ∧ n.control = [q] := by
  obtain ⟨nb, hnb, hkb⟩ := kind?_eq_some.1 hk
  have hfix : nb.kind.isFixed := by rw [hkb]; rfl
  have hgo := hg.closed.goesOn q nb hnb hfix (hg.trim q nb hnb hfix) (by simp)
  rw [hkb] at hgo
  obtain ⟨a, b, ha, hb, hab⟩ := hgo
  have hside : ∃ n, g.node? m = some n ∧ n.kind.isSide := by
    rcases (hab m).1 hfo with rfl | rfl
    · obtain ⟨n, hn, hk⟩ := kind?_eq_some.1 ha
      exact ⟨n, hn, by rw [hk]; rfl⟩
    · obtain ⟨n, hn, hk⟩ := kind?_eq_some.1 hb
      exact ⟨n, hn, by rw [hk]; rfl⟩
  obtain ⟨n, hn, hside⟩ := hside
  obtain ⟨n', hn', -, hc⟩ := hfo
  obtain rfl := Option.some.inj (hn.symm.trans hn')
  have hlen : n.control.length = 1 := by
    have harity := hg.skeleton.arity m n hn
    revert harity hside
    unfold Node.Arity
    cases n.kind <;> simp +contextual [NodeKind.isSide]
  obtain ⟨y, hy⟩ := List.length_eq_one_iff.1 hlen
  rw [hy] at hc
  exact ⟨n, hn, hside, by rw [hy, List.mem_singleton.1 hc]⟩

/-- What comes behind `w` may be put behind `p`: between them there is `w`
alone, or a branch, at `first`, with its side. -/
structure Splice (g : Graph) (p first w : NodeId) : Prop where
  head : ∃ n, g.node? first = some n ∧ n.kind.isFixed ∧ n.kind.isSide = false ∧
    n.kind.isInvoke = false ∧ n.control = [p]
  last : ∃ n, g.node? w = some n ∧ n.kind.isOpen ∧ n.kind.isInvoke = false
  between : w = first ∨ (g.kind? first = some .branch ∧ g.Follows first w)
  phis : g.phisOf first = [] ∧ g.phisOf w = []

/-- The graph without the nodes between. -/
def spliced (g : Graph) (p first w : NodeId) : Graph :=
  ((g.replaceControl w p).remove w).remove first

theorem node?_spliced_eq_some : (g.spliced p first w).node? x = some n ↔
    x ≠ first ∧ x ≠ w ∧ ∃ n₀, g.node? x = some n₀ ∧ n = n₀.rerouted w p := by
  rw [spliced, node?_remove, node?_remove, replaceControl, node?_mapNodes]
  by_cases h1 : x = first
  · simp [h1]
  by_cases h2 : x = w
  · simp [h2]
  rw [if_neg h1, if_neg h2, Option.map_eq_some_iff]
  exact ⟨fun ⟨n₀, h, he⟩ => ⟨h1, h2, n₀, h, he.symm⟩, fun ⟨_, _, n₀, h, he⟩ => ⟨n₀, h, he.symm⟩⟩

theorem keepsFrames_spliced (g : Graph) (p first w : NodeId) :
    g.KeepsFrames (g.spliced p first w) := by
  intro x n' hn' _
  obtain ⟨-, -, n, hn, rfl⟩ := node?_spliced_eq_some.1 hn'
  exact ⟨x, n, hn, rfl, rfl⟩

theorem node?_rerouted (hx : x ≠ first) (hx' : x ≠ w) (hn : g.node? x = some n) :
    (g.spliced p first w).node? x = some (n.rerouted w p) :=
      node?_spliced_eq_some.2 ⟨hx, hx', n, hn, rfl⟩

@[simp]
theorem size_spliced (g : Graph) (p first w : NodeId) :
    (g.spliced p first w).nodes.size = g.nodes.size := by
  simp [spliced, replaceControl]

/-- Taking one node out twice is taking it out once. -/
theorem spliced_self (g : Graph) (p w : NodeId) :
    g.spliced p w w = (g.replaceControl w p).remove w := by
  unfold spliced remove
  simp [Array.setIfInBounds_setIfInBounds]

theorem follows_spliced : (g.spliced p first w).Follows q m ↔
    m ≠ first ∧ m ≠ w ∧ ((q ≠ w ∧ g.Follows q m) ∨ (q = p ∧ g.Follows w m)) := by
  constructor
  · rintro ⟨n, hn, hf, hq⟩
    obtain ⟨h1, h2, n₀, h₀, rfl⟩ := node?_spliced_eq_some.1 hn
    obtain ⟨y, hy, rfl⟩ := List.mem_map.1 hq
    refine ⟨h1, h2, ?_⟩
    by_cases hyw : y = w
    · subst hyw
      exact .inr ⟨redirect_self _ _, n₀, h₀, hf, hy⟩
    · rw [redirect_of_ne hyw]
      exact .inl ⟨hyw, n₀, h₀, hf, hy⟩
  · rintro ⟨h1, h2, ⟨hq, n, hn, hf, hmem⟩ | ⟨rfl, n, hn, hf, hmem⟩⟩
    · exact ⟨_, node?_rerouted h1 h2 hn, hf, List.mem_map.2 ⟨q, hmem, redirect_of_ne hq⟩⟩
    · exact ⟨_, node?_rerouted h1 h2 hn, hf, List.mem_map.2 ⟨w, hmem, redirect_self _ _⟩⟩

namespace Splice

variable (h : g.Splice p first w)

include h

theorem follows_first : g.Follows p first := by
  obtain ⟨n, hn, hf, -, -, hc⟩ := h.head
  exact ⟨n, hn, hf, by simp [hc]⟩

theorem eq_of_follows_first (hq : g.Follows q first) : q = p := by
  obtain ⟨n, hn, -, -, -, hc⟩ := h.head
  obtain ⟨n', hn', -, hq⟩ := hq
  obtain rfl := Option.some.inj (hn.symm.trans hn')
  simpa [hc] using hq

theorem not_owns_first : ¬ Owns g first x := by
  rintro (ho | ⟨rfl, ho⟩)
  · rw [h.phis.1] at ho
    cases ho
  · obtain ⟨n, hn, -, -, hi, -⟩ := h.head
    simp [kind?, hn, hi] at ho

theorem not_owns_last : ¬ Owns g w x := by
  rintro (ho | ⟨rfl, ho⟩)
  · rw [h.phis.2] at ho
    cases ho
  · obtain ⟨n, hn, -, hi⟩ := h.last
    simp [kind?, hn, hi] at ho

theorem last_fixed : ∃ n, g.node? w = some n ∧ n.kind.isFixed := by
  obtain ⟨n, hn, hopen, -⟩ := h.last
  exact ⟨n, hn, (NodeKind.isOpen_iff.1 hopen).1⟩

/-- What is available behind the nodes between was available before them. -/
theorem available_before (hx : g.Available w x) : g.Available p x := by
  rcases h.between with rfl | ⟨-, hfo⟩
  · exact hx.before (fun _ => h.not_owns_last) h.follows_first
  · exact (hx.before (fun _ => h.not_owns_last) hfo).before
      (fun _ => h.not_owns_first) h.follows_first

theorem stateAvailable_before (hx : g.StateAvailable w x) : g.StateAvailable p x := by
  rcases h.between with rfl | ⟨-, hfo⟩
  · exact hx.before (fun _ => h.not_owns_last) h.follows_first
  · exact (hx.before (fun _ => h.not_owns_last) hfo).before
      (fun _ => h.not_owns_first) h.follows_first

/-- From the node before to the last one. -/
theorem way_last (hp : g.Way p π) : ∃ π', g.Way w π' ∧ ∀ x ∈ π', x = first ∨ x = p ∨ x ∈ π := by
  rcases h.between with rfl | ⟨-, hfo⟩
  · exact ⟨p :: π, .step hp h.follows_first, by simp +contextual⟩
  · exact ⟨first :: p :: π, .step (.step hp h.follows_first) hfo, by simp +contextual⟩

section

variable (hg : g.Orderly)

include hg

theorem reached_first : g.Reached first := by
  obtain ⟨n, hn, hk, -⟩ := h.head
  exact hg.trim first n hn hk

theorem first_ne_start : first ≠ Graph.start := hg.skeleton.ne_start_of_follows h.follows_first

/-- The side of a branch between comes from the branch alone. -/
theorem control_last (hne : w ≠ first) :
    ∃ n, g.node? w = some n ∧ n.kind.isSide ∧ n.control = [first] := by
  obtain ⟨hk, hfo⟩ := h.between.resolve_left hne
  exact hg.side_of_branch hk hfo

theorem last_ne_start : w ≠ Graph.start := by
  rcases h.between with rfl | ⟨-, hfo⟩
  · exact h.first_ne_start hg
  · exact hg.skeleton.ne_start_of_follows hfo

theorem first_dominates_last : g.Dominates first w := by
  by_cases hne : w = first
  · exact hne ▸ .refl _
  · refine dominates_of_follows (h.last_ne_start hg) fun q ⟨n', hn', _, hq⟩ => ?_
    obtain ⟨n, hn, -, hc⟩ := h.control_last hg hne
    obtain rfl := Option.some.inj (hn.symm.trans hn')
    rw [hc] at hq
    exact List.mem_singleton.1 hq ▸ .refl _

/-- Control comes to the nodes between from outside. -/
theorem not_first_dominates : ¬ g.Dominates first p := by
  obtain ⟨q, hfo, -, hnd⟩ := (h.reached_first hg).exists_entry (h.first_ne_start hg)
  exact h.eq_of_follows_first hfo ▸ hnd

theorem ne_first : p ≠ first := by
  rintro rfl
  exact h.not_first_dominates hg (.refl _)

theorem ne_last : p ≠ w := by
  rintro rfl
  exact h.not_first_dominates hg (h.first_dominates_last hg)

theorem eq_of_follows_last (hq : g.Follows q w) (hne : w ≠ first) : q = first := by
  obtain ⟨n, hn, -, hc⟩ := h.control_last hg hne
  obtain ⟨n', hn', -, hq⟩ := hq
  obtain rfl := Option.some.inj (hn.symm.trans hn')
  simpa [hc] using hq

/-- What follows the nodes between is neither of them. -/
theorem next_ne (hm : g.Follows w m) : m ≠ first ∧ m ≠ w := by
  have hfirst : m ≠ first := by
    rintro rfl
    exact h.ne_last hg (h.eq_of_follows_first hm).symm
  refine ⟨hfirst, ?_⟩
  rintro rfl
  exact hfirst (h.eq_of_follows_last hg hm hfirst)

/-- Control goes on from the node before to the nodes between, and nowhere
else. -/
theorem open_before : ∃ k, g.kind? p = some k ∧ k.isOpen ∧ ∀ m, g.Follows p m ↔ m = first := by
  obtain ⟨n, hn, hfix, hside, -, hc⟩ := h.head
  obtain ⟨k, hk, hkf, -⟩ := hg.skeleton.behind first n p hn hfix (h.reached_first hg) (by simp [hc])
  obtain ⟨np, hnp, rfl⟩ := kind?_eq_some.1 hk
  have hgo := hg.closed.goesOn p np hnp hkf (hg.trim p np hnp hkf) (by simp)
  have hopen : np.kind.isOpen := by
    refine NodeKind.isOpen_iff.2
      ⟨hkf, Bool.eq_false_iff.2 fun ht => hgo.not_follows ht first h.follows_first, fun hb => ?_⟩
    obtain ⟨n', hn', hside', -⟩ := hg.side_of_branch (hb ▸ hk) h.follows_first
    obtain rfl := Option.some.inj (hn.symm.trans hn')
    rw [hside] at hside'
    cases hside'
  obtain ⟨s, hs⟩ := hgo.single hopen
  exact ⟨np.kind, hk, hopen, (hs first).1 h.follows_first ▸ hs⟩

/-- Ways of control lose the nodes between. -/
theorem way_of_spliced (hw : (g.spliced p first w).Way m π) :
    m ≠ first ∧ m ≠ w ∧ ∃ π', g.Way m π' ∧ ∀ x ∈ π', x = first ∨ x = w ∨ x ∈ π := by
  induction hw with
  | start => exact ⟨(h.first_ne_start hg).symm, (h.last_ne_start hg).symm, [], .start, by simp⟩
  | @step q π m _ hfo ih =>
    obtain ⟨-, -, π', hπ', hsub⟩ := ih
    obtain ⟨h1, h2, ⟨-, hfo'⟩ | ⟨rfl, hfo'⟩⟩ := follows_spliced.1 hfo
    · refine ⟨h1, h2, q :: π', .step hπ' hfo', fun x hx => ?_⟩
      rcases List.mem_cons.1 hx with rfl | hx
      · simp
      · rcases hsub x hx with hx | hx | hx <;> simp [hx]
    · obtain ⟨π'', hπ'', hsub'⟩ := h.way_last hπ'
      refine ⟨h1, h2, w :: π'', .step hπ'' hfo', fun x hx => ?_⟩
      rcases List.mem_cons.1 hx with rfl | hx
      · simp
      · rcases hsub' x hx with hx | hx | hx
        · simp [hx]
        · simp [hx]
        · rcases hsub x hx with hx | hx | hx <;> simp [hx]

theorem reached_of_spliced (hr : (g.spliced p first w).Reached m) :
    g.Reached m ∧ m ≠ first ∧ m ≠ w := by
  obtain ⟨π, hπ⟩ := hr
  obtain ⟨h1, h2, π', hπ', -⟩ := h.way_of_spliced hg hπ
  exact ⟨⟨π', hπ'⟩, h1, h2⟩

theorem dominates_spliced (hd : g.Dominates d m) (h1 : d ≠ first) (h2 : d ≠ w) :
    (g.spliced p first w).Dominates d m := by
  intro π hπ
  obtain ⟨-, -, π', hπ', hsub⟩ := h.way_of_spliced hg hπ
  rcases List.mem_cons.1 (hd π' hπ') with rfl | hmem
  · exact List.mem_cons_self
  · rcases hsub d hmem with rfl | rfl | hmem
    · exact absurd rfl h1
    · exact absurd rfl h2
    · exact List.mem_cons_of_mem _ hmem

omit hg in
/-- A floating node is not among the nodes between. -/
theorem node?_floating (hn : g.node? x = some n) (hk : n.kind.isFixed = false) :
    (g.spliced p first w).node? x = some (n.rerouted w p) := by
  refine node?_rerouted ?_ ?_ hn
  · rintro rfl
    obtain ⟨n', hn', hk', -⟩ := h.head
    obtain rfl := Option.some.inj (hn.symm.trans hn')
    rw [hk] at hk'
    cases hk'
  · rintro rfl
    obtain ⟨n', hn', hk'⟩ := h.last_fixed
    obtain rfl := Option.some.inj (hn.symm.trans hn')
    rw [hk] at hk'
    cases hk'

omit hg in
theorem owns_spliced (ho : Owns g d x) : Owns (g.spliced p first w) d x := by
  have h1 : d ≠ first := by
    rintro rfl
    exact h.not_owns_first ho
  have h2 : d ≠ w := by
    rintro rfl
    exact h.not_owns_last ho
  rcases ho with ho | ⟨rfl, ho⟩
  · obtain ⟨n, hn, hk, hc⟩ := mem_phisOf.1 ho
    refine .inl (mem_phisOf.2 ⟨_, h.node?_floating hn (by rw [hk]; rfl), hk, ?_⟩)
    simp [Node.rerouted, hc, redirect_of_ne h2]
  · refine .inr ⟨rfl, ?_⟩
    cases hn : g.node? x with
    | none => simp [kind?, hn] at ho
    | some n =>
      rw [kind?, node?_rerouted h1 h2 hn]
      simpa [kind?, hn] using ho

theorem available_spliced (hx : g.Available q x) : (g.spliced p first w).Available q x := by
  refine hx.transfer (fun y n hn hk _ => ⟨_, h.node?_floating hn hk, rfl, rfl⟩) fun d y ho hd => ?_
  refine ⟨h.owns_spliced ho, h.dominates_spliced hg hd ?_ ?_⟩
  · rintro rfl
    exact h.not_owns_first ho
  · rintro rfl
    exact h.not_owns_last ho

theorem stateAvailable_spliced (hx : g.StateAvailable q x) :
    (g.spliced p first w).StateAvailable q x := by
  refine hx.transfer (fun y n hn hk _ => ⟨_, h.node?_floating hn hk, rfl, rfl, rfl⟩)
    fun d y ho hd => ?_
  refine ⟨h.owns_spliced ho, h.dominates_spliced hg hd ?_ ?_⟩
  · rintro rfl
    exact h.not_owns_first ho
  · rintro rfl
    exact h.not_owns_last ho

/-! ## The graph stays well-formed -/

/-- An edge of a node that control still gets to is as it was, or comes from
the node before. -/
theorem edge_cases (hn : g.node? m = some n) (hk : n.kind.isFixed)
    (hr : (g.spliced p first w).Reached m) (hq : q ∈ (n.rerouted w p).control) :
    (q ∈ n.control ∧ q ≠ first ∧ q ≠ w) ∨ (q = p ∧ w ∈ n.control) := by
  obtain ⟨y, hy, rfl⟩ := List.mem_map.1 hq
  by_cases hyw : y = w
  · subst hyw
    exact .inr ⟨redirect_self _ _, hy⟩
  refine .inl ?_
  rw [redirect_of_ne hyw]
  refine ⟨hy, ?_, hyw⟩
  rintro rfl
  obtain ⟨hkb, -⟩ := h.between.resolve_left (Ne.symm hyw)
  obtain ⟨n', hn', -, hc⟩ := hg.side_of_branch hkb ⟨n, hn, hk, hy⟩
  obtain rfl := Option.some.inj (hn.symm.trans hn')
  obtain ⟨π, hπ⟩ := hr
  cases hπ with
  | start => exact hg.skeleton.not_follows_start ⟨n, hn, hk, hy⟩
  | step hq hfo =>
    obtain ⟨hqf, hqw, -⟩ := h.way_of_spliced hg hq
    obtain ⟨-, -, ⟨-, n', hn', -, hmem⟩ | ⟨-, n', hn', -, hmem⟩⟩ := follows_spliced.1 hfo
    all_goals
      obtain rfl := Option.some.inj (hn.symm.trans hn')
      rw [hc] at hmem
    · exact hqf (List.mem_singleton.1 hmem)
    · exact hyw (List.mem_singleton.1 hmem).symm

omit h hg in
theorem kind?_spliced {k : NodeKind} (hk : g.kind? m = some k) (h1 : m ≠ first) (h2 : m ≠ w) :
    (g.spliced p first w).kind? m = some k := by
  obtain ⟨n, hn, rfl⟩ := kind?_eq_some.1 hk
  exact kind?_eq_some.2 ⟨_, node?_rerouted h1 h2 hn, rfl⟩

/-- The merge of a phi is not among the nodes between. -/
theorem phi_control (hn : g.node? x = some n) (hk : n.kind = .phi) :
    (n.rerouted w p).control = n.control := by
  obtain ⟨m, hm, -⟩ := hg.skeleton.phis x n hn hk
  have hne : m ≠ w := by
    rintro rfl
    have hmem : x ∈ g.phisOf m := mem_phisOf.2 ⟨n, hn, hk, by rw [hm]; rfl⟩
    rw [h.phis.2] at hmem
    cases hmem
  simp [Node.rerouted, hm, redirect_of_ne hne]

theorem skeleton_spliced : (g.spliced p first w).Skeleton := by
  have hs := hg.skeleton
  refine ⟨?_, ?_, ?_, ?_, ?_, ?_⟩
  · exact kind?_spliced hs.start (h.first_ne_start hg).symm (h.last_ne_start hg).symm
  · intro m n hn hk
    obtain ⟨-, -, n₀, h₀, rfl⟩ := node?_spliced_eq_some.1 hn
    exact hs.only m n₀ h₀ hk
  · intro m n x hn hx
    obtain ⟨-, -, n₀, h₀, rfl⟩ := node?_spliced_eq_some.1 hn
    rw [size_spliced]
    have hedge : x = p ∨ x ∈ n₀.edges := by
      simp only [Node.edges, Node.rerouted, List.mem_append, List.mem_map] at hx ⊢
      rcases hx with (hx | ⟨y, hy, rfl⟩) | hx
      · simp [hx]
      · rcases redirect_cases w p y with h | h <;> rw [h] <;> simp [hy]
      · exact .inr (.inr hx)
    rcases hedge with rfl | hx
    · obtain ⟨k, hk, -⟩ := h.open_before hg
      obtain ⟨np, hnp, -⟩ := kind?_eq_some.1 hk
      exact lt_size_of_node? hnp
    · exact hs.below m n₀ x h₀ hx
  · intro m n hn
    obtain ⟨-, -, n₀, h₀, rfl⟩ := node?_spliced_eq_some.1 hn
    exact (hs.arity m n₀ h₀).rerouted w p
  · intro m n q hn hk hr hq
    obtain ⟨-, -, n₀, h₀, rfl⟩ := node?_spliced_eq_some.1 hn
    rcases h.edge_cases hg h₀ hk hr hq with ⟨hq, hqf, hqw⟩ | ⟨rfl, hmem⟩
    · obtain ⟨k, h1, h2, h3⟩ := hs.behind m n₀ q h₀ hk (h.reached_of_spliced hg hr).1 hq
      exact ⟨k, kind?_spliced h1 hqf hqw, h2, h3⟩
    · obtain ⟨k, h1, hopen, -⟩ := h.open_before hg
      refine ⟨k, kind?_spliced h1 (h.ne_first hg) (h.ne_last hg), (NodeKind.isOpen_iff.1 hopen).1,
        fun hside => ?_⟩
      obtain ⟨k', h1', -, hb⟩ := hs.behind m n₀ w h₀ hk (h.reached_of_spliced hg hr).1 hmem
      obtain ⟨nw, hnw, hopen', -⟩ := h.last
      rw [kind?, hnw, Option.map_some, Option.some.injEq, hb hside] at h1'
      exact absurd h1' (NodeKind.isOpen_iff.1 hopen').2.2
  · intro x n hn hk
    obtain ⟨-, -, n₀, h₀, rfl⟩ := node?_spliced_eq_some.1 hn
    obtain ⟨m, hc, hrest⟩ := hs.phis x n₀ h₀ hk
    refine ⟨m, (h.phi_control hg h₀ hk).trans hc, fun nm hnm => ?_⟩
    obtain ⟨-, -, nm₀, hnm₀, rfl⟩ := node?_spliced_eq_some.1 hnm
    obtain ⟨hmerge, hlen⟩ := hrest nm₀ hnm₀
    refine ⟨hmerge, fun hr => ?_⟩
    simpa [Node.rerouted] using hlen (h.reached_of_spliced hg hr).1

omit hg in
theorem wired_spliced (hf : g.Formed) : (g.spliced p first w).Wired := by
  have hw := hf.wired
  have hg := hf.orderly
  refine (h.skeleton_spliced hg).wired ?_ ?_ ?_ ?_ ?_
  · intro m n hn
    obtain ⟨-, -, n₀, h₀, rfl⟩ := node?_spliced_eq_some.1 hn
    exact (hw.counted m n₀ h₀).rerouted w p
  · intro m n hn hk
    obtain ⟨h1, -, n₀, h₀, rfl⟩ := node?_spliced_eq_some.1 hn
    have hnot : p ∉ n₀.control := by
      intro hmem
      obtain ⟨-, -, -, hopen⟩ := h.open_before hg
      exact h1 ((hopen m).1 ⟨n₀, h₀, hk, hmem⟩)
    refine List.Nodup.map_on (fun y hy z hz hyz => ?_) (hw.distinct m n₀ h₀ hk)
    by_cases hyw : y = w <;> by_cases hzw : z = w
    · rw [hyw, hzw]
    · rw [hyw, redirect_self, redirect_of_ne hzw] at hyz
      exact absurd (hyz ▸ hz) hnot
    · rw [hzw, redirect_self, redirect_of_ne hyw] at hyz
      exact absurd (hyz ▸ hy) hnot
    · rwa [redirect_of_ne hyw, redirect_of_ne hzw] at hyz
  · intro m n q x hn hk hr hq hx
    obtain ⟨-, -, n₀, h₀, rfl⟩ := node?_spliced_eq_some.1 hn
    have hr₀ := (h.reached_of_spliced hg hr).1
    rcases h.edge_cases hg h₀ hk hr hq with ⟨hq, -⟩ | ⟨rfl, hmem⟩
    · exact h.available_spliced hg (hw.inputs m n₀ q x h₀ hk hr₀ hq hx)
    · exact h.available_spliced hg (h.available_before (hw.inputs m n₀ w x h₀ hk hr₀ hmem hx))
  · intro m n q s hn hk hr hq hs
    obtain ⟨-, -, n₀, h₀, rfl⟩ := node?_spliced_eq_some.1 hn
    have hr₀ := (h.reached_of_spliced hg hr).1
    rcases h.edge_cases hg h₀ hk hr hq with ⟨hq, -⟩ | ⟨rfl, hmem⟩
    · exact h.stateAvailable_spliced hg (hw.states m n₀ q s h₀ hk hr₀ hq hs)
    · exact h.stateAvailable_spliced hg
        (h.stateAvailable_before (hw.states m n₀ w s h₀ hk hr₀ hmem hs))
  · intro x n m nm hn hk hc hnm hr i q y hq hy
    obtain ⟨-, -, n₀, h₀, rfl⟩ := node?_spliced_eq_some.1 hn
    obtain ⟨-, -, nm₀, hnm₀, rfl⟩ := node?_spliced_eq_some.1 hnm
    obtain ⟨m', hc', hrest⟩ := hw.phis x n₀ h₀ hk
    rw [h.phi_control hg h₀ hk, hc', List.cons.injEq] at hc
    obtain ⟨-, havail⟩ := (hrest nm₀ (hc.1 ▸ hnm₀)).2 (hc.1 ▸ (h.reached_of_spliced hg hr).1)
    obtain ⟨z, hz, rfl⟩ : ∃ z, nm₀.control[i]? = some z ∧ redirect w p z = q := by
      simpa [Node.rerouted] using hq
    have hav := havail i z y hz hy
    by_cases hzw : z = w
    · subst hzw
      rw [redirect_self]
      exact h.available_spliced hg (h.available_before hav)
    · rw [redirect_of_ne hzw]
      exact h.available_spliced hg hav

theorem openAt_spliced : (g.spliced p first w).OpenAt [] := by
  refine ⟨List.nodup_nil, by simp, fun m n hn hk hr _ => ?_⟩
  obtain ⟨h1, h2, n₀, h₀, rfl⟩ := node?_spliced_eq_some.1 hn
  obtain ⟨kp, hkp, hopen, hp⟩ := h.open_before hg
  by_cases hmp : m = p
  · subst hmp
    obtain ⟨nw, hnw, hwopen, -⟩ := h.last
    have hfix := (NodeKind.isOpen_iff.1 hwopen).1
    obtain ⟨s, hs⟩ :=
      (hg.closed.goesOn w nw hnw hfix (hg.trim w nw hnw hfix) (by simp)).single hwopen
    rw [kind?, h₀, Option.map_some, Option.some.injEq] at hkp
    refine .of_isOpen (s := s) (hkp ▸ hopen) fun s' => ?_
    rw [follows_spliced]
    constructor
    · rintro ⟨hs1, -, ⟨-, hfo⟩ | ⟨-, hfo⟩⟩
      · exact absurd ((hp s').1 hfo) hs1
      · exact (hs s').1 hfo
    · rintro rfl
      have hfo := (hs s').2 rfl
      exact ⟨(h.next_ne hg hfo).1, (h.next_ne hg hfo).2, .inr ⟨rfl, hfo⟩⟩
  · have hne : ∀ s, g.Follows m s → s ≠ first ∧ s ≠ w := by
      intro s hfo
      have hsf : s ≠ first := by
        rintro rfl
        exact hmp (h.eq_of_follows_first hfo)
      refine ⟨hsf, ?_⟩
      rintro rfl
      exact h1 (h.eq_of_follows_last hg hfo hsf)
    have hgo := hg.closed.goesOn m n₀ h₀ hk (h.reached_of_spliced hg hr).1 (by simp)
    refine hgo.congr (fun s => ?_) fun s k hfo hk => kind?_spliced hk (hne s hfo).1 (hne s hfo).2
    rw [follows_spliced]
    constructor
    · rintro ⟨-, -, ⟨-, hfo⟩ | ⟨rfl, -⟩⟩
      · exact hfo
      · exact absurd rfl hmp
    · intro hfo
      exact ⟨(hne s hfo).1, (hne s hfo).2, .inl ⟨h2, hfo⟩⟩

/-- Without a single node control still gets everywhere. -/
theorem trim_spliced (hw : w = first) : (g.spliced p first w).Trim := by
  intro m n hn hk
  subst hw
  -- by the way to the node in the graph that still has the other one
  have hreach : ∀ {m π}, g.Way m π → (m ≠ w → (g.spliced p w w).Reached m) ∧
      (m = w → (g.spliced p w w).Reached p) := by
    intro m π hπ
    induction hπ with
    | start => exact ⟨fun _ => ⟨[], .start⟩, fun hm => absurd hm (h.last_ne_start hg).symm⟩
    | @step q π m _ hfo ih =>
      constructor
      · intro hm
        by_cases hq : q = w
        · exact (ih.2 hq).step (follows_spliced.2 ⟨hm, hm, .inr ⟨rfl, hq ▸ hfo⟩⟩)
        · exact (ih.1 hq).step (follows_spliced.2 ⟨hm, hm, .inl ⟨hq, hfo⟩⟩)
      · rintro rfl
        obtain rfl := h.eq_of_follows_first hfo
        exact ih.1 (h.ne_last hg)
  obtain ⟨h1, -, n₀, h₀, rfl⟩ := node?_spliced_eq_some.1 hn
  obtain ⟨π, hπ⟩ := hg.trim m n₀ h₀ hk
  exact (hreach hπ).1 h1

theorem orderly_spliced (hw : w = first) : (g.spliced p first w).Orderly :=
  ⟨h.skeleton_spliced hg, h.trim_spliced hg hw, h.openAt_spliced hg⟩

omit hg in
/-- A single node that sets nothing may be spliced out of a well-formed
graph. -/
theorem formed_spliced (hf : g.Formed) (hw : w = first) : (g.spliced p first w).Formed :=
  ⟨h.wired_spliced hf, h.trim_spliced hf.orderly hw, h.openAt_spliced hf.orderly,
    hf.frames.kept (keepsFrames_spliced g p first w)⟩

end

end Splice

end Graph

end TieredEngine

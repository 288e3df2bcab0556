import TieredEngine.Proofs.Optimize.Weight
/-!
# Normal forms

On a verified graph with control everywhere the passes never fail. Each change
that they count makes the graph lighter, so there are at most three for each
node; rounds that are not cut short end with one that changes nothing, and
then another run changes nothing either: `passes_normalize`.
-/

namespace TieredEngine

namespace Graph

variable {g : Graph} {m : NodeId} {n : Node}

/-! ## Verified graphs with control everywhere -/

/-- A verified graph whose fixed nodes are all reached and whose branches have
both sides. -/
structure Proper (g : Graph) : Prop where
  verified : g.verify = .ok ()
  reached : ∀ m k, g.kind? m = some k → k.isFixed → g.Reached m
  sides : ∀ m, g.kind? m = some .branch → (∃ a ∈ g.successors m, g.kind? a = some .onTrue) ∧
    ∃ b ∈ g.successors m, g.kind? b = some .onFalse

theorem follows_of_successors_eq {s : NodeId} (h : g.successors m = [s]) (s' : NodeId) :
    g.Follows m s' ↔ s' = s := by
  rw [follows_iff_mem_successors, h, List.mem_singleton]

/-- Behind a branch with both sides there is nothing else. -/
theorem goesOn_of_sides {a b : NodeId} (hlen : (g.successors m).length = 2)
    (ha : a ∈ g.successors m) (hka : g.kind? a = some .onTrue) (hb : b ∈ g.successors m)
    (hkb : g.kind? b = some .onFalse) :
    g.GoesOn m .branch := by
  refine ⟨a, b, hka, hkb, fun s => ?_⟩
  have hne : a ≠ b := by
    rintro rfl
    rw [hka] at hkb
    cases hkb
  obtain ⟨c, d, hcd⟩ := List.length_eq_two.1 hlen
  rw [follows_iff_mem_successors]
  rw [hcd] at ha hb ⊢
  simp only [List.mem_cons, List.not_mem_nil, or_false] at ha hb ⊢
  rcases ha with rfl | rfl <;> rcases hb with rfl | rfl
  · exact absurd rfl hne
  · exact Iff.rfl
  · exact or_comm
  · exact absurd rfl hne

theorem Proper.goesOn (h : g.Proper) (hn : g.node? m = some n) (hk : n.kind.isFixed) :
    g.GoesOn m n.kind := by
  have hlen := length_successors_of_verify h.verified hn hk
  by_cases hb : n.kind = .branch
  · obtain ⟨⟨a, ha, hka⟩, b, hb', hkb⟩ := h.sides m (kind?_eq_some.2 ⟨n, hn, hb⟩)
    rw [hb] at hlen ⊢
    exact goesOn_of_sides hlen ha hka hb' hkb
  · by_cases ht : n.kind.isTerminal
    · refine GoesOn.of_isTerminal ht fun s hs => ?_
      have hzero : successorCount n.kind = 0 := by
        revert ht
        cases n.kind <;> simp [NodeKind.isTerminal, successorCount]
      rw [hzero, List.length_eq_zero_iff] at hlen
      rw [follows_iff_mem_successors, hlen] at hs
      cases hs
    · have hone : successorCount n.kind = 1 := by
        revert hk ht hb
        cases n.kind <;> simp [NodeKind.isFixed, NodeKind.isTerminal, successorCount]
      obtain ⟨s, hs⟩ := List.length_eq_one_iff.1 (hlen.trans hone)
      exact GoesOn.of_isOpen (NodeKind.isOpen_iff.2 ⟨hk, by simpa using ht, hb⟩)
        (follows_of_successors_eq hs)

theorem Proper.orderly (h : g.Proper) : g.Orderly where
  skeleton := (verify_eq_ok_iff.1 h.verified).skeleton
  trim m n hn hk := h.reached m n.kind (kind?_eq_some.2 ⟨n, hn, rfl⟩) hk
  closed := ⟨List.nodup_nil, by simp, fun _ _ hn hk _ _ => h.goesOn hn hk⟩

theorem Proper.iff_entries :
    g.Proper ↔ g.verify = .ok () ∧ (∀ e ∈ g.entries, e.2.kind.isFixed → g.Reached e.1) ∧
    ∀ e ∈ g.entries, e.2.kind = .branch →
      (∃ a ∈ g.successors e.1, g.kind? a = some .onTrue) ∧
        ∃ b ∈ g.successors e.1, g.kind? b = some .onFalse := by
  constructor
  · intro h
    refine ⟨h.verified, fun e he hk => ?_, fun e he hk => ?_⟩
    · exact h.reached e.1 e.2.kind (kind?_eq_some.2 ⟨e.2, mem_entries.1 he, rfl⟩) hk
    · exact h.sides e.1 (kind?_eq_some.2 ⟨e.2, mem_entries.1 he, hk⟩)
  · rintro ⟨hv, hreached, hsides⟩
    refine ⟨hv, fun m k hm hk => ?_, fun m hm => ?_⟩
    · obtain ⟨n, hn, rfl⟩ := kind?_eq_some.1 hm
      exact hreached (m, n) (mem_entries.2 hn) hk
    · obtain ⟨n, hn, hk⟩ := kind?_eq_some.1 hm
      exact hsides (m, n) (mem_entries.2 hn) hk

instance : Decidable g.Proper := decidable_of_iff _ Proper.iff_entries.symm

end Graph

namespace Optimize

open TieredEngine.Graph

variable {g g' g'' : Graph} {k j : ℕ} {id : NodeId}

/-! ## Counted changes -/

/-- Some counted changes lead from one graph to another, each paid for by the
weight. -/
structure Advances (g : Graph) (k : ℕ) (g' : Graph) : Prop where
  orderly : g'.Orderly
  count : g'.nodeCount ≤ g.nodeCount
  weight : g'.weight + k ≤ g.weight
  idle : k = 0 → g' = g

theorem Advances.refl (hg : g.Orderly) :
    Advances g 0 g := ⟨hg, Nat.le_refl _, Nat.le_refl _, fun _ => rfl⟩

theorem Advances.trans (h : Advances g k g') (h' : Advances g' j g'') : Advances g (k + j) g'' where
  orderly := h'.orderly
  count := h'.count.trans h.count
  weight := by
    have := h.weight
    have := h'.weight
    omega
  idle hz := by
    obtain ⟨rfl, rfl⟩ := Nat.add_eq_zero_iff.1 hz
    rw [h'.idle rfl, h.idle rfl]

theorem Advances.of_lightens (hg : g'.Orderly) (h : g.Lightens g') : Advances g 1 g' :=
  ⟨hg, h.count, h.weight, by omega⟩

theorem Advances.le (h : Advances g k g') : k ≤ 3 * g.nodeCount := by
  have := h.weight
  have := g.weight_le
  omega

namespace ReductionCounts

theorem total_count (c : ReductionCounts) (kind : Reduction) :
    (c.count kind).total = c.total + 1 := by
  cases kind <;> simp only [count, total] <;> omega

theorem total_foldl_count (made : List Reduction) (c : ReductionCounts) :
    (made.foldl count c).total = c.total + made.length := by
  induction made generalizing c with
  | nil => rfl
  | cons kind made ih =>
    rw [List.foldl_cons, ih, total_count, List.length_cons]
    omega

theorem total_plus (c d : ReductionCounts) : (c.plus d).total = c.total + d.total := by
  simp only [plus, total]
  omega

end ReductionCounts

/-! ## Passes of a round -/

/-- Reducing nodes one after the other: which reductions are made does not
depend on the counts. -/
theorem reduceAll_advances (ids : List NodeId) :
    ∀ g : Graph, g.Orderly → ∃ (g' : Graph) (made : List Reduction),
      (∀ c, reduceAll ids g c = .ok (g', made.foldl ReductionCounts.count c)) ∧
      Advances g made.length g' := by
  induction ids with
  | nil => exact fun g hg => ⟨g, [], fun _ => rfl, .refl hg⟩
  | cons id ids ih =>
    intro g hg
    obtain ⟨r, hr, hreduced⟩ := reduceNode_gives hg id
    cases r with
    | none =>
      obtain ⟨g', made, h1, h2⟩ := ih g hg
      refine ⟨g', made, fun c => ?_, h2⟩
      rw [reduceAll, hr]
      exact h1 c
    | some r =>
      obtain ⟨kind, g₁⟩ := r
      obtain ⟨n, hn, hred⟩ := hreduced kind g₁ rfl
      obtain ⟨hg₁, hlight⟩ := lightens_of_reduced hg hn hred
      obtain ⟨g', made, h1, h2⟩ := ih g₁ hg₁
      refine ⟨g', kind :: made, fun c => ?_, ?_⟩
      · rw [reduceAll, hr]
        exact h1 (c.count kind)
      · rw [List.length_cons, Nat.add_comm]
        exact (Advances.of_lightens hg₁ hlight).trans h2

/-- What is shared floats, so control is what it was. -/
theorem orderly_share {first : NodeId} {n : Node} (hg : g.Orderly) (hn : g.node? id = some n)
    (hfirst : g.node? first = some n) (hk : n.kind.isPure ∨ n.kind = .phi) :
    (g.replaceValue id first).Orderly := by
  have hfloat : n.kind.isFixed = false := by
    rcases hk with hk | hk
    · revert hk
      cases n.kind <;> simp [NodeKind.isPure, NodeKind.isFixed]
    · rw [hk]
      rfl
  exact hg.replaceValue (floats_of_kind hn rfl hfloat) (lt_size_of_node? hfirst)

theorem shareNode_advances {s : Sweep} {left : List NodeId} (hg : s.graph.Orderly)
    (h : Remembers s (id :: left)) :
    ∃ made : List Reduction, (∀ c, shareNode { s with counts := c } id =
        { shareNode s id with counts := made.foldl ReductionCounts.count c }) ∧
      Advances s.graph made.length (shareNode s id).graph := by
  rcases shareNode_cases h with ⟨met, -, hs⟩ | ⟨n, first, hn, hn', hne, hk, hs⟩
  · refine ⟨[], fun c => ?_, ?_⟩
    · rw [hs, hs s.counts]
      rfl
    · rw [hs s.counts]
      exact .refl hg
  · refine ⟨[.valueNumbered], fun c => ?_, ?_⟩
    · rw [hs, hs s.counts]
      rfl
    · rw [hs s.counts]
      refine .of_lightens (orderly_share hg hn hn' hk) ?_
      refine lightens_replaceValue (contains_iff.2 ⟨n, hn⟩) fun hconst => ⟨hne, ?_⟩
      rwa [constantAt, kind?, hn', ← hn, ← kind?, ← constantAt]

theorem sweep_advances (ids : List NodeId) :
    ∀ s : Sweep, ids.Nodup → s.graph.Orderly → Remembers s ids →
    ∃ made : List Reduction, (∀ c, ids.foldl shareNode { s with counts := c } =
        { ids.foldl shareNode s with counts := made.foldl ReductionCounts.count c }) ∧
      Advances s.graph made.length (ids.foldl shareNode s).graph := by
  induction ids with
  | nil => exact fun s _ hg _ => ⟨[], fun _ => rfl, .refl hg⟩
  | cons id ids ih =>
    intro s hnd hg hs
    rw [List.nodup_cons] at hnd
    obtain ⟨made, h1, h2⟩ := shareNode_advances hg hs
    obtain ⟨made', h3, h4⟩ := ih (shareNode s id) hnd.2 h2.orderly (remembers_shareNode hs hnd.1)
    refine ⟨made ++ made', fun c => ?_, ?_⟩
    · rw [List.foldl_cons, List.foldl_cons, h1, h3, List.foldl_append]
    · rw [List.length_append]
      exact h2.trans h4

theorem shareValues_advances (hg : g.Orderly) :
    ∃ (g' : Graph) (made : List Reduction),
      (∀ c, shareValues g c = (g', made.foldl ReductionCounts.count c)) ∧
      Advances g made.length g' := by
  obtain ⟨made, h1, h2⟩ :=
    sweep_advances g.nodeIds ⟨g, {}, []⟩ g.nodeIds_nodup hg (remembers_nil g {} _)
  refine ⟨_, made, fun c => ?_, h2⟩
  rw [shareValues, h1 c]

theorem round_advances (hg : g.Orderly) : ∃ (g' : Graph) (made : List Reduction),
    (∀ c,
        round g c = .ok (g', made.foldl ReductionCounts.count { c with rounds := c.rounds + 1 })) ∧
      Advances g made.length g' := by
  obtain ⟨g₁, made, h1, h2⟩ := shareValues_advances hg
  obtain ⟨g₂, made', h3, h4⟩ := reduceAll_advances g₁.nodeIds g₁ h2.orderly
  refine ⟨g₂, made ++ made', fun c => ?_, ?_⟩
  · rw [round, h1, List.foldl_append]
    exact h3 _
  · rw [List.length_append]
    exact h2.trans h4

/-! ## Canonicalization -/

/-- A round changes nothing. -/
def Settled (g : Graph) : Prop :=
  ∀ c : ReductionCounts, round g c = .ok (g, { c with rounds := c.rounds + 1 })

/-- Rounds end with one that changes nothing, unless there are as many as the
cap allows and each makes a reduction. -/
theorem rounds_advances (cap : ℕ) : ∀ (g : Graph) (c : ReductionCounts), g.Orderly →
    ∃ g' c' k, rounds cap g c = .ok (g', c') ∧ c'.total = c.total + k ∧ Advances g k g' ∧
      (k < cap → Settled g' ∧ ∃ j < cap, ∃ c₀ : ReductionCounts, rounds j g c = .ok (g', c₀) ∧
        c' = { c₀ with rounds := c₀.rounds + 1 }) := by
  induction cap with
  | zero => exact fun g c hg => ⟨g, c, 0, rfl, rfl, .refl hg, fun h => absurd h (by omega)⟩
  | succ cap ih =>
    intro g c hg
    obtain ⟨g₁, made, h1, h2⟩ := round_advances hg
    have htotal : (made.foldl ReductionCounts.count { c with rounds := c.rounds + 1 }).total =
        c.total + made.length := ReductionCounts.total_foldl_count made _
    have hround : ∀ cap, rounds (cap + 1) g c = if made.length = 0
        then .ok (g₁, made.foldl ReductionCounts.count { c with rounds := c.rounds + 1 })
        else rounds cap g₁
          (made.foldl ReductionCounts.count { c with rounds := c.rounds + 1 }) := by
      intro cap
      rw [rounds, h1]
      simp only [bind, Except.bind, htotal, Nat.add_eq_left]
      rfl
    cases made with
    | nil =>
      obtain rfl := h2.idle rfl
      exact ⟨g₁, _, 0, hround cap, rfl, h2, fun _ => ⟨h1, 0, by omega, c, rfl, rfl⟩⟩
    | cons kind made =>
      obtain ⟨g', c', k, h3, h4, h5, h6⟩ := ih g₁
        ((kind :: made).foldl ReductionCounts.count { c with rounds := c.rounds + 1 }) h2.orderly
      refine ⟨g', c', (kind :: made).length + k, (hround cap).trans h3, by omega, h2.trans h5,
        fun hk => ?_⟩
      obtain ⟨hsettled, j, hj, c₀, hrun, hlast⟩ := h6 (by rw [List.length_cons] at hk; omega)
      exact ⟨hsettled, j + 1, by omega, c₀, (hround j).trans hrun, hlast⟩

theorem canonicalize_advances (cap : ℕ) (hg : g.Orderly) :
    ∃ g' c, canonicalize cap g = .ok (g', c) ∧ Advances g c.total g' ∧
      (c.total < max cap 1 → Settled g' ∧
      ∃ j < max cap 1, ∃ c₀ : ReductionCounts, rounds j g {} = .ok (g', c₀) ∧
        c = { c₀ with rounds := c₀.rounds + 1 }) := by
  obtain ⟨g', c, k, h1, h2, h3, h4⟩ := rounds_advances (max cap 1) g {} hg
  obtain rfl : c.total = k := h2.trans (Nat.zero_add k)
  exact ⟨g', c, h1, h3, h4⟩

theorem canonicalize_of_settled (h : Settled g) (cap : ℕ) :
    canonicalize cap g = .ok (g, { rounds := 1 }) := by
  obtain ⟨cap', hcap⟩ := Nat.exists_eq_succ_of_ne_zero (by omega : max cap 1 ≠ 0)
  rw [canonicalize, hcap, rounds, h]
  rfl

/-! ## The optimizer -/

theorem eliminateDead_advances (hg : g.Orderly) :
    Advances g (eliminateDead g).2 (eliminateDead g).1 := by
  have hcount := nodeCount_eliminateOnce g
  have hweight := weight_eliminateOnce hg.skeleton
  have hsweep : eliminateOnce g = sweepDead g := by
    rw [eliminateOnce, cutUnreachable_of_trim hg.skeleton hg.trim]
    simp only [Nat.zero_add]
  rw [eliminateDead_eq hg.skeleton]
  refine ⟨hsweep ▸ orderly_sweepDead hg, by omega, hweight, fun hz => ?_⟩
  rw [hsweep] at hz ⊢
  rw [sweepDead, List.eq_nil_of_length_eq_zero hz]
  rfl

/-- The summary after one more round. -/
def Summary.after (s : Summary) (c : ReductionCounts) (removed : ℕ) : Summary where
  rounds := s.rounds + 1
  reductions := s.reductions.plus c
  deadNodes := s.deadNodes + removed

/-- The changes that a run of the optimizer counts. -/
def Summary.total (s : Summary) : ℕ := s.reductions.total + s.deadNodes

theorem Summary.total_after (s : Summary) (c : ReductionCounts) (removed : ℕ) :
    (s.after c removed).total = s.total + c.total + removed := by
  simp only [total, after, ReductionCounts.total_plus]
  omega

/-- The optimizer ends with a round that changes nothing, unless there are as
many as the cap allows and each makes a change. -/
theorem optimizeUpTo_advances (cap left : ℕ) : ∀ (g : Graph) (s : Summary), g.Orderly →
    ∃ g' s' k, optimizeUpTo cap left g s = .ok (g', s') ∧ s'.total = s.total + k ∧ Advances g k g' ∧
      (k < left → Settled g' ∧ eliminateDead g' = (g', 0) ∧
        ∃ j < left, ∃ s₀ : Summary, optimizeUpTo cap j g s = .ok (g', s₀) ∧
          s' = s₀.after { rounds := 1 } 0) := by
  induction left with
  | zero => exact fun g s hg => ⟨g, s, 0, rfl, rfl, .refl hg, fun h => absurd h (by omega)⟩
  | succ left ih =>
    intro g s hg
    obtain ⟨g₁, c, h1, h2, h3⟩ := canonicalize_advances cap hg
    have helim := eliminateDead_advances h2.orderly
    have hround : ∀ left, optimizeUpTo cap (left + 1) g s = if c.total + (eliminateDead g₁).2 = 0
        then .ok ((eliminateDead g₁).1, s.after c (eliminateDead g₁).2)
        else optimizeUpTo cap left (eliminateDead g₁).1 (s.after c (eliminateDead g₁).2) := by
      intro left
      rw [optimizeUpTo, h1]
      simp only [bind, Except.bind]
      rfl
    by_cases hidle : c.total + (eliminateDead g₁).2 = 0
    · obtain ⟨hc, hd⟩ := Nat.add_eq_zero_iff.1 hidle
      obtain rfl := h2.idle hc
      have hdead : eliminateDead g₁ = (g₁, 0) := Prod.ext (helim.idle hd) hd
      have hsettled := (h3 (by omega)).1
      -- a settled graph takes one round
      obtain rfl : c = { rounds := 1 } :=
        (Prod.mk.inj (Except.ok.inj (h1.symm.trans (canonicalize_of_settled hsettled cap)))).2
      refine ⟨g₁, s.after { rounds := 1 } 0, 0, ?_, rfl, .refl hg,
        fun _ => ⟨hsettled, hdead, 0, by omega, s, rfl, rfl⟩⟩
      rw [hround, if_pos hidle, hdead]
    · obtain ⟨g', s', k, h4, h5, h6, h7⟩ := ih _ (s.after c (eliminateDead g₁).2) helim.orderly
      refine ⟨g', s', c.total + (eliminateDead g₁).2 + k, ?_, ?_, (h2.trans helim).trans h6,
        fun hk => ?_⟩
      · rw [hround, if_neg hidle, h4]
      · rw [h5, s.total_after]
        omega
      · obtain ⟨hsettled, hdead, j, hj, s₀, hrun, hlast⟩ := h7 (by omega)
        refine ⟨hsettled, hdead, j + 1, by omega, s₀, ?_, hlast⟩
        rw [hround, if_neg hidle, hrun]

theorem optimize_of_settled (h : Settled g) (hd : eliminateDead g = (g, 0)) (cap : ℕ) :
    optimize cap g = .ok (g, { rounds := 1, reductions := { rounds := 1 } }) := by
  obtain ⟨cap', hcap⟩ := Nat.exists_eq_succ_of_ne_zero (by omega : max cap 1 ≠ 0)
  rw [optimize, hcap, optimizeUpTo, canonicalize_of_settled h]
  simp only [bind, Except.bind, hd]
  rfl

/-! ## Normal forms -/

/-- Canonicalization and the optimizer give a graph that is not bigger, after
at most three changes for each node. With a higher cap the last round of each
changes nothing, and neither does another run. -/
theorem passes_normalize (cap : ℕ) (h : g.Proper) :
    (∃ g' c, canonicalize cap g = .ok (g', c) ∧ g'.nodeCount ≤ g.nodeCount ∧
      c.total ≤ 3 * g.nodeCount ∧ (3 * g.nodeCount < cap →
        (∃ j < cap, ∃ c₀, rounds j g {} = .ok (g', c₀) ∧ round g' c₀ = .ok (g', c) ∧
            c.total = c₀.total) ∧
          ∀ cap', ∃ c', canonicalize cap' g' = .ok (g', c') ∧ c'.total = 0)) ∧
    ∃ g' s, optimize cap g = .ok (g', s) ∧ g'.nodeCount ≤ g.nodeCount ∧
      s.reductions.total + s.deadNodes ≤ 3 * g.nodeCount ∧
      (3 * g.nodeCount < cap →
        (∃ j < cap, ∃ s₀ c, optimizeUpTo cap j g {} = .ok (g', s₀) ∧
          canonicalize cap g' = .ok (g', c) ∧ c.total = 0 ∧
          eliminateDead g' = (g', 0) ∧ s = s₀.after c 0) ∧
          ∀ cap', ∃ s', optimize cap' g' = .ok (g', s') ∧ s'.reductions.total = 0 ∧
            s'.deadNodes = 0) := by
  constructor
  · obtain ⟨g', c, h1, h2, h3⟩ := canonicalize_advances cap h.orderly
    have hle := h2.le
    refine ⟨g', c, h1, h2.count, hle, fun hcap => ?_⟩
    rw [Nat.max_eq_left (by omega)] at h3
    obtain ⟨hsettled, j, hj, c₀, hrun, rfl⟩ := h3 (by omega)
    exact ⟨⟨j, hj, c₀, hrun, hsettled c₀, rfl⟩,
      fun cap' => ⟨_, canonicalize_of_settled hsettled cap', rfl⟩⟩
  · obtain ⟨g', s, k, h1, h2, h3, h4⟩ :=
      optimizeUpTo_advances (max cap 1) (max cap 1) g {} h.orderly
    have hle := h3.le
    have htotal : s.reductions.total + s.deadNodes = k := h2.trans (Nat.zero_add k)
    refine ⟨g', s, h1, h3.count, by omega, fun hcap => ?_⟩
    rw [Nat.max_eq_left (by omega)] at h4
    obtain ⟨hsettled, hdead, j, hj, s₀, hrun, rfl⟩ := h4 (by omega)
    exact ⟨⟨j, hj, s₀, _, hrun, canonicalize_of_settled hsettled cap, rfl, hdead, rfl⟩,
      fun cap' => ⟨_, optimize_of_settled hsettled hdead cap', rfl, rfl⟩⟩

/-- The sum of a constant and a parameter, doubly negated, is checked twice
and returned behind a branch on a constant. -/
def scenic : Graph where
  name := "scenic"
  nodes :=
    #[some { kind := .start }, some { kind := .parameter 0 }, some { kind := .constant (.int 0) },
    some { kind := .binary .add, inputs := [2, 1] }, some { kind := .unary .negate, inputs := [3] },
    some { kind := .unary .negate, inputs := [4] },
      some { kind := .guard (.type .int) .typeGuardFailure, inputs := [5], control := [0] },
    some { kind := .guard (.type .int) .typeGuardFailure, inputs := [1], control := [6] },
      some { kind := .constant (.bool true) },
    some { kind := .branch, inputs := [8], control := [7] },
      some { kind := .onTrue, control := [9] },
    some { kind := .onFalse, control := [9] },
      some { kind := .ret, inputs := [5], control := [10] },
    some { kind := .ret, inputs := [2], control := [11] }]
  shared := []

theorem passes_normalize_scenic : scenic.Proper ∧ scenic.nodeCount = 14 ∧
    (∃ g' c, canonicalize 43 scenic = .ok (g', c) ∧ g'.nodeCount ≤ 14 ∧ c.total ≤ 42 ∧
      ∀ cap', ∃ c', canonicalize cap' g' = .ok (g', c') ∧ c'.total = 0) ∧
    ∃ g' s, optimize 43 scenic = .ok (g', s) ∧ g'.nodeCount ≤ 14 ∧
      s.reductions.total + s.deadNodes ≤ 42 ∧
      ∀ cap', ∃ s', optimize cap' g' = .ok (g', s') ∧ s'.reductions.total = 0 ∧
        s'.deadNodes = 0 := by
  have hproper : scenic.Proper := by decide
  have hcount : scenic.nodeCount = 14 := rfl
  obtain ⟨⟨g₁, c, h1, h2, h3, h4⟩, g₂, s, h5, h6, h7, h8⟩ := passes_normalize 43 hproper
  exact ⟨hproper, hcount, ⟨g₁, c, h1, h2, h3, (h4 (by decide)).2⟩, g₂, s, h5, h6, h7,
    (h8 (by decide)).2⟩

end Optimize

end TieredEngine

import TieredEngine.Proofs.Graph.Counting
import TieredEngine.Proofs.Optimize.Sweep
/-!
# What dead code elimination leaves

A node is live if control gets to it, or if a live node reads it once merges
and phis are trimmed (`Live`, `survivor`). Elimination leaves exactly the live
nodes, trimmed, and tells how many it took out; one pass is enough, so a
second run finds nothing: `eliminateDead_leaves_live`.
-/

namespace TieredEngine

open Optimize

namespace Graph

/-! ## Live nodes -/

theorem reached_iff {g : Graph} {m : NodeId} : g.Reached m ↔ m = Graph.start ∨ m ∈ g.reachable := by
  by_cases hs : Graph.start < g.nodes.size
  · rw [mem_reachable hs, or_iff_right_of_imp]
    rintro rfl
    exact reached_start g
  · have hnot : ∀ {q m}, ¬ g.Follows q m :=
      fun hf => hs (Nat.lt_of_le_of_lt (Nat.zero_le _) hf.lt_size)
    have hnil : g.reachable = [] := by
      unfold reachable breadthFirst positions
      rw [Nat.eq_zero_of_not_pos hs]
      rfl
    rw [hnil]
    constructor
    · rintro ⟨π, hπ⟩
      cases hπ with
      | start => exact .inl rfl
      | step _ hf => exact absurd hf hnot
    · rintro (rfl | h)
      · exact reached_start g
      · cases h

instance (g : Graph) (m : NodeId) : Decidable (g.Reached m) := decidable_of_iff _ reached_iff.symm

/-- What is left of a node: a merge keeps the edges from where control gets,
and a phi of a merge to which control gets keeps the inputs that belong to
these edges. -/
def survivor (g : Graph) (n : Node) : Node :=
  match n.kind with
  | .merge | .loopBegin => { n with control := n.control.filter fun q => g.Reached q }
  | .phi =>
    match n.control.head?.bind fun m => if g.Reached m then g.node? m else none with
    | some merge =>
      { n with inputs := ((n.inputs.zip merge.control).filter fun e => g.Reached e.2).map Prod.fst }
    | none => n
  | _ => n

/-- Control gets there, or what is left of a live node reads the value or the
frame. -/
inductive Live (g : Graph) : NodeId → Prop
  | control {m} : g.Reached m → Live g m
  | value {x n y ny} : Live g x → g.node? x = some n → y ∈ (g.survivor n).dataEdges →
      g.node? y = some ny → ny.kind.isFixed = false → Live g y

/-- Control gets to every fixed node that a live node reads, and to the merge
of every live phi. -/
def ReadsReached (g : Graph) : Prop := ∀ x n, g.Live x → g.node? x = some n →
  (∀ y ∈ (g.survivor n).dataEdges, ∀ ny, g.node? y = some ny → ny.kind.isFixed → g.Reached y) ∧
    (n.kind = .phi → ∀ m ∈ n.control, g.Reached m)

variable {g g' : Graph} {q m x y : NodeId} {n n' : Node}

@[simp]
theorem survivor_kind (g : Graph) (n : Node) : (g.survivor n).kind = n.kind := by
  unfold survivor
  split
  · rfl
  · rfl
  · split <;> rfl
  · rfl

theorem survivor_of_isMerge (hk : n.kind.isMerge) :
    g.survivor n = { n with control := n.control.filter fun q => g.Reached q } := by
  rcases NodeKind.isMerge_iff.1 hk with hk | hk <;> simp only [survivor, hk]

theorem survivor_of_other (hm : n.kind.isMerge = false)
    (hp : n.kind = .phi → ∀ m ∈ n.control.head?, ¬ g.Reached m) :
    g.survivor n = n := by
  unfold survivor
  split
  · simp_all [NodeKind.isMerge]
  · simp_all [NodeKind.isMerge]
  · rename_i hk
    have hnone : (n.control.head?.bind fun m => if g.Reached m then g.node? m else none) = none :=
      Option.bind_eq_none_iff.2 fun m hc => if_neg (hp hk m hc)
    rw [hnone]
  · rfl

theorem survivor_of_phi {nm : Node} (hk : n.kind = .phi) (hc : n.control.head? = some m)
    (hr : g.Reached m) (hm : g.node? m = some nm) :
    g.survivor n = { n with
      inputs := ((n.inputs.zip nm.control).filter fun e => g.Reached e.2).map Prod.fst } := by
  simp only [survivor, hk, hc, Option.bind_some, if_pos hr, hm]

theorem survivor_control (hk : n.kind.isFixed = false) : (g.survivor n).control = n.control := by
  unfold survivor
  split
  · simp_all [NodeKind.isFixed]
  · simp_all [NodeKind.isFixed]
  · split <;> rfl
  · rfl

theorem survivor_edges_subset (g : Graph) (n : Node) : (g.survivor n).edges ⊆ n.edges := by
  intro y hy
  unfold survivor at hy
  split at hy
  · simp only [Node.edges, List.mem_append, List.mem_filter] at hy ⊢
    exact hy.imp_left (Or.imp_right And.left)
  · simp only [Node.edges, List.mem_append, List.mem_filter] at hy ⊢
    exact hy.imp_left (Or.imp_right And.left)
  · split at hy
    · simp only [Node.edges, List.mem_append, List.mem_map, List.mem_filter] at hy ⊢
      refine hy.imp_left (Or.imp_left ?_)
      rintro ⟨e, ⟨he, -⟩, rfl⟩
      exact (List.of_mem_zip he).1
    · exact hy
  · exact hy

/-! ## Cutting leaves survivors -/

theorem keepMarked_zip {α β : Type} (p : β → Bool) (xs : List α) (ys : List β) :
    keepMarked xs (ys.map p) = ((xs.zip ys).filter fun e => p e.2).map Prod.fst := by
  unfold keepMarked
  rw [List.zip_map_right, List.filter_map, List.map_map]
  rfl

theorem Cut.survivor (h : g.Cut g') (hsk : g.Skeleton) (hn : g.node? x = some n)
    (hfix : n.kind.isFixed → g.Reached x) :
    g'.node? x = some (g.survivor n) := by
  have hdecide : ∀ (live : NodeId → Bool) (l : List NodeId), (∀ q ∈ l, live q ↔ g.Reached q) →
      ∀ q ∈ l, live q = decide (g.Reached q) := fun live l hl q hq => by
    rw [Bool.eq_iff_iff, decide_eq_true_iff]
    exact hl q hq
  by_cases hmerge : n.kind.isMerge
  · obtain ⟨live, hlive, hm, -⟩ := h.merge x n hn hmerge (hfix (NodeKind.isFixed_of_isMerge hmerge))
    rw [hm, survivor_of_isMerge hmerge, List.filter_congr (hdecide live _ hlive)]
  rw [Bool.not_eq_true] at hmerge
  by_cases hphi : n.kind = .phi → ∀ m ∈ n.control.head?, ¬ g.Reached m
  · rw [survivor_of_other hmerge hphi]
    exact h.other x n hn hfix hmerge fun hk m hc => hphi hk m hc
  · push Not at hphi
    obtain ⟨hk, m, hc, hr⟩ := hphi
    obtain ⟨m', hm', hrest⟩ := hsk.phis x n hn hk
    obtain rfl : m' = m := by simpa [hm'] using hc
    obtain ⟨nm, hnm, -⟩ := hr.exists_node hsk
    obtain ⟨live, hlive, -, hp⟩ := h.merge m' nm hnm (hrest nm hnm).1 hr
    rw [hp x n hn hk hc, survivor_of_phi hk hc hr hnm, List.map_congr_left (hdecide live _ hlive),
      keepMarked_zip]

theorem Cut.node?_iff (h : g.Cut g') (hsk : g.Skeleton) :
    g'.node? x = some n' ↔
      ∃ n, g.node? x = some n ∧ (n.kind.isFixed → g.Reached x) ∧ n' = g.survivor n := by
  constructor
  · intro hn'
    obtain ⟨n, hn, -, hfix⟩ := h.exists_node hsk hn'
    exact ⟨n, hn, hfix, Option.some.inj (hn'.symm.trans (h.survivor hsk hn hfix))⟩
  · rintro ⟨n, hn, hfix, rfl⟩
    exact h.survivor hsk hn hfix

/-! ## Sweeping leaves live nodes -/

theorem Live.exists_node (hsk : g.Skeleton) (h : g.Live x) :
    ∃ n, g.node? x = some n ∧ (n.kind.isFixed → g.Reached x) := by
  cases h with
  | control hr =>
    obtain ⟨n, hn, -⟩ := hr.exists_node hsk
    exact ⟨n, hn, fun _ => hr⟩
  | value _ _ _ hny hk => exact ⟨_, hny, fun hk' => by rw [hk] at hk'; cases hk'⟩

/-- Control edges lead to fixed nodes. -/
theorem Skeleton.fixed_of_control (hsk : g.Skeleton) (hn : g.node? x = some n)
    (hfix : n.kind.isFixed → g.Reached x) (hq : q ∈ n.control) {nq : Node}
    (hnq : g.node? q = some nq) : nq.kind.isFixed := by
  by_cases hk : n.kind.isFixed
  · obtain ⟨k, hkq, hkf, -⟩ := hsk.behind x n q hn hk (hfix hk) hq
    rwa [kind?_of_node? hnq hkq]
  by_cases hphi : n.kind = .phi
  · obtain ⟨m, hm, hrest⟩ := hsk.phis x n hn hphi
    rw [hm, List.mem_singleton] at hq
    subst hq
    exact NodeKind.isFixed_of_isMerge (hrest nq hnq).1
  · rw [(hsk.arity x n hn).control_eq_nil (by simpa using hk) hphi] at hq
    cases hq

/-- What the sweep of the trimmed graph finds is live. -/
theorem mem_alive_iff_live (h : g.Cut g') (hsk : g.Skeleton) : x ∈ alive g' ↔ g.Live x := by
  have hsk' := h.skeleton hsk
  constructor
  · refine visit_sound (fun rest new x => by rw [List.mem_append, or_comm]) (P := g.Live)
      (fun x hx y hy => ?_)
      _ _ _ (fun a ha => .control ((h.reached hsk).1 ((mem_reachable hsk'.start_lt).1 ha))) x
    obtain ⟨n', hn', hy, hc⟩ := mem_liveEdges.1 hy
    obtain ⟨n, hn, hfix, rfl⟩ := (h.node?_iff hsk).1 hn'
    obtain ⟨ny', hny'⟩ := contains_iff.1 hc
    obtain ⟨ny, hny, hfixy, rfl⟩ := (h.node?_iff hsk).1 hny'
    by_cases hk : ny.kind.isFixed
    · exact .control (hfixy hk)
    rw [Bool.not_eq_true] at hk
    have hdata : y ∈ (g.survivor n).dataEdges := by
      simp only [Node.edges, Node.dataEdges, List.mem_append] at hy ⊢
      rcases hy with (hy | hy) | hy
      · exact .inl hy
      · have hfixed := hsk'.fixed_of_control hn'
          (fun hkn => (h.reached hsk).2 (hfix (by simpa using hkn))) hy hny'
        rw [survivor_kind, hk] at hfixed
        cases hfixed
      · exact .inr hy
    exact .value hx hn hdata hny hk
  · intro hx
    induction hx with
    | control hr => exact alive_of_reached hsk' ((h.reached hsk).2 hr)
    | @value x n y ny hx hn hy hny hk ih =>
      obtain ⟨n', hn', hfix⟩ := hx.exists_node hsk
      obtain rfl := Option.some.inj (hn.symm.trans hn')
      refine alive_of_edge ih (h.survivor hsk hn hfix) ?_
        (contains_iff.2 ⟨_, h.survivor hsk hny fun hky => ?_⟩)
      · simp only [Node.edges, Node.dataEdges, List.mem_append] at hy ⊢
        exact hy.elim (fun h => .inl (.inl h)) .inr
      · rw [hk] at hky
        cases hky

theorem node?_eliminateOnce (hsk : g.Skeleton) :
    (eliminateOnce g).1.node? x = some n' ↔
      ∃ n, g.node? x = some n ∧ g.Live x ∧ n' = g.survivor n := by
  have hcut := cut_cutUnreachable hsk
  have hone : (eliminateOnce g).1 = (sweepDead g.cutUnreachable.1).1 := rfl
  rw [hone, node?_sweepDead, hcut.node?_iff hsk, mem_alive_iff_live hcut hsk]
  constructor
  · rintro ⟨⟨n, hn, -, rfl⟩, hl⟩
    exact ⟨n, hn, hl, rfl⟩
  · rintro ⟨n, hn, hl, rfl⟩
    obtain ⟨n', hn', hfix⟩ := hl.exists_node hsk
    obtain rfl := Option.some.inj (hn.symm.trans hn')
    exact ⟨⟨n, hn, hfix, rfl⟩, hl⟩

/-! ## One pass is enough -/

theorem sweepDead_of_alive (h : ∀ x, g.contains x → x ∈ alive g) : sweepDead g = (g, 0) := by
  have hempty : (g.nodeIds.filter fun id => !(alive g).contains id) = [] := by
    refine List.filter_eq_nil_iff.2 fun x hx => ?_
    obtain ⟨e, he, rfl⟩ := List.mem_map.1 hx
    simpa using h e.1 (contains_iff.2 ⟨e.2, mem_entries.1 he⟩)
  simp only [sweepDead, hempty]
  rfl

/-- What is alive stays alive when the rest is swept. -/
theorem alive_sweepDead (hsk : g.Skeleton) (ht : g.Trim) (hx : x ∈ alive g) :
    x ∈ alive (sweepDead g).1 := by
  have hsame := sameControl_sweepDead hsk ht
  have hsk' := skeleton_sweepDead hsk ht
  refine (visit_sound (fun rest new x => by rw [List.mem_append, or_comm]) (P := fun x =>
    x ∈ alive g ∧ x ∈ alive (sweepDead g).1) (fun x hx y hy => ?_) _ _ _ (fun a ha => ?_) x hx).2
  · obtain ⟨n, hn, hy, hc⟩ := mem_liveEdges.1 hy
    have hay := alive_of_edge hx.1 hn hy hc
    obtain ⟨ny, hny⟩ := contains_iff.1 hc
    exact ⟨hay, alive_of_edge hx.2 (node?_sweepDead.2 ⟨hn, hx.1⟩) hy
      (contains_iff.2 ⟨ny, node?_sweepDead.2 ⟨hny, hay⟩⟩)⟩
  · have hr := (mem_reachable hsk.start_lt).1 ha
    exact ⟨alive_of_reached hsk hr, alive_of_reached hsk' (hsame.reached.2 hr)⟩

theorem eliminateOnce_eliminateOnce (hsk : g.Skeleton) :
    eliminateOnce (eliminateOnce g).1 = ((eliminateOnce g).1, 0) := by
  have hcut := cut_cutUnreachable hsk
  have hskc := hcut.skeleton hsk
  have htc := hcut.trim hsk
  have hone : (eliminateOnce g).1 = (sweepDead g.cutUnreachable.1).1 := rfl
  have hswept : sweepDead (eliminateOnce g).1 = ((eliminateOnce g).1, 0) := by
    refine sweepDead_of_alive fun x hx => ?_
    obtain ⟨n, hn⟩ := contains_iff.1 hx
    exact alive_sweepDead hskc htc (node?_sweepDead.1 hn).2
  have hcut' := cutUnreachable_of_trim (skeleton_sweepDead hskc htc) (trim_sweepDead hskc htc)
  rw [← hone] at hcut'
  simp only [eliminateOnce] at hcut' hswept ⊢
  simp only [hcut', hswept]

theorem nodeCount_pos (hsk : g.Skeleton) : 0 < g.nodeCount := by
  obtain ⟨n, hn, -⟩ := kind?_eq_some.1 hsk.start
  exact List.length_pos_of_mem (mem_entries (e := (Graph.start, n)).2 hn)

theorem eliminateDead_eq (hsk : g.Skeleton) : eliminateDead g = eliminateOnce g := by
  obtain ⟨k, hk⟩ := Nat.exists_eq_succ_of_ne_zero (nodeCount_pos hsk).ne'
  unfold eliminateDead
  rw [hk, eliminateUpTo]
  dsimp only
  split
  · rename_i hzero
    exact Prod.ext rfl hzero.symm
  · rw [eliminateUpTo, eliminateOnce_eliminateOnce hsk]
    rfl

/-! ## Counting -/

theorem contains_modify (g : Graph) (id : NodeId) (f : Node → Node) :
    (g.modify id f).contains = g.contains := by
  funext x
  unfold contains
  rw [node?_modify]
  split
  · subst x
    rw [Option.isSome_map]
  · rfl

theorem contains_trimMerge (g : Graph) (m : NodeId) : (g.trimMerge m).contains = g.contains := by
  have hfold : ∀ (f : Node → Node) (ids : List NodeId) (g : Graph),
      (ids.foldl (fun g id => g.modify id f) g).contains = g.contains := by
    intro f ids
    induction ids with
    | nil => exact fun _ => rfl
    | cons id ids ih => exact fun g => (ih _).trans (contains_modify g id f)
  unfold trimMerge
  split
  · rfl
  · dsimp only
    split
    · rfl
    · rw [contains_modify, hfold]

/-- Trimming takes no node out. -/
theorem nodeCount_trimMerges (ms : List NodeId) (g : Graph) :
    (ms.foldl trimMerge g).nodeCount = g.nodeCount := by
  induction ms generalizing g with
  | nil => rfl
  | cons m ms ih => exact (ih _).trans (nodeCount_congr (contains_trimMerge g m))

theorem nodeCount_cutUnreachable (g : Graph) :
    g.cutUnreachable.2 + g.cutUnreachable.1.nodeCount = g.nodeCount := by
  unfold cutUnreachable
  dsimp only
  split
  · exact Nat.zero_add _
  · dsimp only
    rw [nodeCount_trimMerges]
    refine nodeCount_removeAll (g.entries_filter_nodup _) fun x hx => ?_
    obtain ⟨e, he, rfl⟩ := List.mem_map.1 hx
    exact contains_iff.2 ⟨e.2, mem_entries.1 (List.mem_filter.1 he).1⟩

theorem nodeCount_sweepDead (g : Graph) :
    (sweepDead g).2 + (sweepDead g).1.nodeCount = g.nodeCount := by
  refine nodeCount_removeAll (g.nodeIds_nodup.filter _) fun x hx => ?_
  obtain ⟨e, he, rfl⟩ := List.mem_map.1 (List.mem_filter.1 hx).1
  exact contains_iff.2 ⟨e.2, mem_entries.1 he⟩

/-- A pass tells how many nodes it takes out. -/
theorem nodeCount_eliminateOnce (g : Graph) :
    (eliminateOnce g).2 + (eliminateOnce g).1.nodeCount = g.nodeCount := by
  have hcut := nodeCount_cutUnreachable g
  have hsweep := nodeCount_sweepDead g.cutUnreachable.1
  have htwo : (eliminateOnce g).2 = g.cutUnreachable.2 + (sweepDead g.cutUnreachable.1).2 := rfl
  have hone : (eliminateOnce g).1 = (sweepDead g.cutUnreachable.1).1 := rfl
  rw [htwo, hone]
  omega

/-! ## The check still passes -/

/-- What is left of a node reads live nodes only. -/
theorem clean_eliminateOnce (hv : g.Verified) (hreads : g.ReadsReached) :
    (eliminateOnce g).1.Clean := by
  have hsk := hv.skeleton
  have hcut := cut_cutUnreachable hsk
  intro x n' hn' y hy
  obtain ⟨n, hn, hl, rfl⟩ := (node?_eliminateOnce hsk).1 hn'
  obtain ⟨n₁, hn₁, hfix⟩ := hl.exists_node hsk
  obtain rfl := Option.some.inj (hn.symm.trans hn₁)
  obtain ⟨ny, hny⟩ := contains_iff.1 (hv.clean x n hn y (survivor_edges_subset g n hy))
  have hkeep : g.Live y → (eliminateOnce g).1.contains y := fun h =>
    contains_iff.2 ⟨_, (node?_eliminateOnce hsk).2 ⟨ny, hny, h, rfl⟩⟩
  have hdata : y ∈ (g.survivor n).dataEdges → g.Live y := by
    intro hd
    by_cases hk : ny.kind.isFixed
    · exact .control ((hreads x n hl hn).1 y hd ny hny hk)
    · exact .value hl hn hd hny (by simpa using hk)
  apply hkeep
  simp only [Node.edges, List.mem_append] at hy
  rcases hy with (hy | hy) | hy
  · exact hdata (List.mem_append_left _ hy)
  · by_cases hk : n.kind.isFixed
    · obtain ⟨n₂, hn₂, -, -, -, -, hmem⟩ := hcut.fixed hsk hn hk (hfix hk)
      obtain rfl := Option.some.inj ((hcut.survivor hsk hn hfix).symm.trans hn₂)
      exact .control ((hmem y).1 hy).2
    · rw [Bool.not_eq_true] at hk
      rw [survivor_control hk] at hy
      by_cases hphi : n.kind = .phi
      · exact .control ((hreads x n hl hn).2 hphi y hy)
      · rw [(hv.arity x n hn).control_eq_nil hk hphi] at hy
        cases hy
  · exact hdata (List.mem_append_right _ hy)

theorem verified_eliminateOnce (hv : g.Verified) (hreads : g.ReadsReached) :
    (eliminateOnce g).1.Verified := by
  have hsk := hv.skeleton
  have hcut := cut_cutUnreachable hsk
  have hskc := hcut.skeleton hsk
  have htc := hcut.trim hsk
  have hkept : g.KeepsFrames (eliminateOnce g).1 :=
    (hcut.keepsFrames hsk).trans (keepsFrames_sweepDead g.cutUnreachable.1)
  refine (skeleton_sweepDead hskc htc).verified (trim_sweepDead hskc htc)
    (clean_eliminateOnce hv hreads)
    (hkept.transfer (P := fun shape k => k = shape.valueCount) hv.frames) fun m n' hn' hk => ?_
  obtain ⟨n, hn, hl, rfl⟩ := (node?_eliminateOnce hsk).1 hn'
  obtain ⟨n₁, hn₁, hfix⟩ := hl.exists_node hsk
  obtain rfl := Option.some.inj (hn.symm.trans hn₁)
  rw [survivor_kind] at hk ⊢
  rw [← hv.successors m n hn hk]
  refine length_successors_congr fun s => ?_
  rw [(sameControl_sweepDead hskc htc).follows, hcut.follows hsk]
  exact and_iff_left (hfix hk)

/-- Dead code elimination of a verified graph leaves exactly the live nodes:
those to which control gets, and what these read, directly or through others.
A merge keeps the edges from where control gets, its phis keep the inputs that
belong to these edges, and nothing else changes. The number of nodes that are
taken out is told, and a second run takes out nothing and changes nothing. If
control gets to every fixed node that a live node reads and to the merges of
the live phis, then no node that is left has an edge to a removed one, and the
check passes again. -/
theorem eliminateDead_leaves_live (h : g.verify = .ok ()) :
    (∀ x, (eliminateDead g).1.contains x ↔ g.Live x) ∧
    (∀ x n, g.node? x = some n → g.Live x → (eliminateDead g).1.node? x = some (g.survivor n)) ∧
    (eliminateDead g).2 + (eliminateDead g).1.nodeCount = g.nodeCount ∧
    eliminateDead (eliminateDead g).1 = ((eliminateDead g).1, 0) ∧
    (g.ReadsReached → (eliminateDead g).1.Clean ∧ (eliminateDead g).1.verify = .ok ()) := by
  have hv := verify_eq_ok_iff.1 h
  have hsk := hv.skeleton
  have hcut := cut_cutUnreachable hsk
  have hsk' : (eliminateOnce g).1.Skeleton := skeleton_sweepDead (hcut.skeleton hsk) (hcut.trim hsk)
  rw [eliminateDead_eq hsk]
  refine ⟨fun x => ?_, fun x n hn hl => ?_, nodeCount_eliminateOnce g, ?_, fun hreads => ?_⟩
  · constructor
    · intro hx
      obtain ⟨n', hn'⟩ := contains_iff.1 hx
      obtain ⟨n, -, hl, -⟩ := (node?_eliminateOnce hsk).1 hn'
      exact hl
    · intro hl
      obtain ⟨n, hn, -⟩ := hl.exists_node hsk
      exact contains_iff.2 ⟨_, (node?_eliminateOnce hsk).2 ⟨n, hn, hl, rfl⟩⟩
  · exact (node?_eliminateOnce hsk).2 ⟨n, hn, hl, rfl⟩
  · rw [eliminateDead_eq hsk', eliminateOnce_eliminateOnce hsk]
  · exact ⟨clean_eliminateOnce hv hreads, verify_eq_ok_iff.2 (verified_eliminateOnce hv hreads)⟩

/-- A loop to which control never gets leads into a merge; the phi gets a
constant from there. -/
def detour : Graph where
  name := "detour"
  nodes :=
    #[some { kind := .start }, some { kind := .parameter 0 }, some { kind := .constant (.int 7) },
    some { kind := .loopBegin, control := [5] },
      some { kind := .branch, inputs := [1], control := [3] },
    some { kind := .onTrue, control := [4] }, some { kind := .onFalse, control := [4] },
    some { kind := .merge, control := [6, 0] },
      some { kind := .phi, inputs := [2, 1], control := [7] },
    some { kind := .ret, inputs := [8], control := [7] }]
  shared := []

theorem eliminateDead_detour :
    detour.verify = .ok () ∧ (eliminateDead detour).2 = 5 ∧
      (eliminateDead detour).1.node? 8 = some { kind := .phi, inputs := [1], control := [7] } ∧
      eliminateDead (eliminateDead detour).1 = ((eliminateDead detour).1, 0) ∧
      (eliminateDead detour).1.verify = .ok () := by
  have hv : detour.verify = .ok () := by decide
  obtain ⟨hlive, hnode, -, hagain, hclean⟩ := eliminateDead_leaves_live hv
  have hreads : detour.ReadsReached := by
    intro x n hx hn
    have hmem : x ∈ (eliminateDead detour).1.nodeIds := by
      obtain ⟨n', hn'⟩ := contains_iff.1 ((hlive x).2 hx)
      exact List.mem_map.2 ⟨(x, n'), mem_entries.2 hn', rfl⟩
    have hall : ∀ x ∈ (eliminateDead detour).1.nodeIds, ∀ n ∈ detour.node? x,
        (∀ y ∈ (detour.survivor n).dataEdges, ∀ ny ∈ detour.node? y, ny.kind.isFixed →
            detour.Reached y) ∧
          (n.kind = .phi → ∀ m ∈ n.control, detour.Reached m) := by decide
    exact hall x hmem n hn
  refine ⟨hv, by decide, ?_, hagain, (hclean hreads).2⟩
  have hphi :=
    hnode 8 { kind := .phi, inputs := [2, 1], control := [7] } rfl ((hlive 8).1 (by decide))
  rw [hphi]
  decide

end Graph

end TieredEngine

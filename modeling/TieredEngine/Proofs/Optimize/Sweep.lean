import TieredEngine.Optimize.DeadCode
import TieredEngine.Proofs.Optimize.Cut
/-!
# Sweeping dead nodes

In a well-formed graph every node that is alive has all its edges: what
control gets to reads available values, and those read available values again.
So elimination keeps the graph well-formed and leaves no edge to a removed
node: `formed_eliminateDead`.
-/

namespace TieredEngine

open Optimize

namespace Graph

variable {g : Graph} {q m d x y : NodeId} {n : Node}

/-! ## What is alive -/

/-- The node is passed by control, or it can be computed somewhere. -/
inductive Used (g : Graph) (x : NodeId) : Prop
  | control : g.Reached x → Used g x
  | value {p} : g.Reached p → g.Available p x → Used g x
  | frame {p} : g.Reached p → g.StateAvailable p x → Used g x

theorem Used.contains (hw : g.Wired) (h : g.Used x) : g.contains x := by
  rw [Graph.contains, Option.isSome_iff_exists]
  cases h with
  | control hr =>
    obtain ⟨n, hn, -⟩ := hr.exists_node hw.skeleton
    exact ⟨n, hn⟩
  | value _ ha => exact ha.exists_node
  | frame _ hs => exact hs.exists_node

/-- What is used reads what is used. -/
theorem Used.edge (hf : g.Formed) (h : g.Used x) (hn : g.node? x = some n) (hy : y ∈ n.edges) :
    g.Used y := by
  have hw := hf.wired
  have hcount := hw.counted x n hn
  have hcontrol : ∀ {m n}, g.Reached m → g.node? m = some n → n.kind.isFixed →
      ∀ y ∈ n.edges, g.Used y := by
    intro m n hr hn hk y hy
    have hq : y ∈ n.control → g.Used y := fun hq => .control (hf.reached_control hn hk hq)
    simp only [Node.edges, List.mem_append, Option.mem_toList] at hy
    by_cases hs : n.kind = .start
    · have hcount := hw.counted m n hn
      simp only [Node.Counted, hs] at hcount
      simp [hcount] at hy
    obtain ⟨p, hp⟩ := Counted.exists_control (hw.counted m n hn) hk hs
    have hrp := hf.reached_control hn hk hp
    rcases hy with (hy | hy) | hy
    · exact .value hrp (hw.inputs m n p y hn hk hr hp hy)
    · exact hq hy
    · exact .frame hrp (hw.states m n p y hn hk hr hp hy)
  cases h with
  | control hr =>
    obtain ⟨n', hn', hk⟩ := hr.exists_node hw.skeleton
    obtain rfl := Option.some.inj (hn.symm.trans hn')
    exact hcontrol hr hn hk y hy
  | value hr ha =>
    cases ha with
    | constant hn' hk | parameter hn' hk =>
      obtain rfl := Option.some.inj (hn.symm.trans hn')
      simp only [Node.Counted, hk] at hcount
      simp [Node.edges, hcount] at hy
    | binary hn' hk hi | unary hn' hk hi =>
      obtain rfl := Option.some.inj (hn.symm.trans hn')
      simp only [Node.Counted, hk] at hcount
      simp only [Node.edges, hcount, List.append_nil, Option.toList_none] at hy
      exact .value hr (hi y hy)
    | register ho hd =>
      have hrd := hd.reached hr
      rcases ho with ho | ⟨rfl, -⟩
      · obtain ⟨n', hn', hk, hc⟩ := mem_phisOf.1 ho
        obtain rfl := Option.some.inj (hn.symm.trans hn')
        obtain ⟨m, hm, hrest⟩ := hw.phis x n hn hk
        obtain rfl : m = _ := by simpa [hm] using hc
        obtain ⟨nm, hnm, hkm⟩ := hrd.exists_node hw.skeleton
        obtain ⟨hlen, havail⟩ := (hrest nm hnm).2 hrd
        simp only [Node.Counted, hk] at hcount
        simp only [Node.edges, hcount.2, Option.toList_none, List.append_nil, hm, List.mem_append,
          List.mem_singleton] at hy
        rcases hy with hy | rfl
        · obtain ⟨i, hi⟩ := List.getElem?_of_mem hy
          have hlt : i < nm.control.length := hlen ▸ (List.getElem?_eq_some_iff.1 hi).1
          exact .value (hf.reached_control hnm hkm (List.getElem_mem hlt))
            (havail i _ y (List.getElem?_eq_getElem hlt) hi)
        · exact .control hrd
      · obtain ⟨n', hn', hk⟩ := hrd.exists_node hw.skeleton
        obtain rfl := Option.some.inj (hn.symm.trans hn')
        exact hcontrol hrd hn hk y hy
  | frame hr hs =>
    cases hs with
    | frame hn' hk hi ho =>
      obtain rfl := Option.some.inj (hn.symm.trans hn')
      simp only [Node.Counted, hk] at hcount
      simp only [Node.edges, hcount.2, List.append_nil, List.mem_append, Option.mem_toList] at hy
      rcases hy with hy | hy
      · exact .value hr (hi y hy)
      · exact .frame hr (ho y hy)

theorem mem_liveEdges :
    y ∈ liveEdges g x ↔ ∃ n, g.node? x = some n ∧ y ∈ n.edges ∧ g.contains y := by
  unfold liveEdges
  cases g.node? x with
  | none => simp
  | some n => simp

theorem used_of_alive (hf : g.Formed) (h : x ∈ alive g) : g.Used x := by
  refine visit_sound (fun rest new x => by rw [List.mem_append, or_comm]) (P := g.Used)
    (fun x hx y hy => ?_) _ _ _ (fun a ha => ?_) x h
  · obtain ⟨n, hn, hy, -⟩ := mem_liveEdges.1 hy
    exact hx.edge hf hn hy
  · exact .control ((mem_reachable hf.wired.skeleton.start_lt).1 ha)

theorem alive_of_reached (hsk : g.Skeleton) (hr : g.Reached m) : m ∈ alive g := by
  obtain ⟨n, hn, -⟩ := hr.exists_node hsk
  refine visit_complete (fun rest new x => by rw [List.mem_append, or_comm]) _ _ _ (Nat.le_refl _) m
    (List.mem_range.2 (lt_size_of_node? hn)) (.inl ((mem_reachable hsk.start_lt).2 hr))

theorem alive_of_edge (hx : x ∈ alive g) (hn : g.node? x = some n) (hy : y ∈ n.edges)
    (hc : g.contains y) : y ∈ alive g := by
  obtain ⟨ny, hny⟩ := Option.isSome_iff_exists.1 hc
  exact visit_complete (fun rest new x => by rw [List.mem_append, or_comm]) _ _ _ (Nat.le_refl _) y
    (List.mem_range.2 (lt_size_of_node? hny)) (.inr ⟨x, hx, mem_liveEdges.2 ⟨n, hn, hy, hc⟩⟩)

theorem node?_sweepDead : (sweepDead g).1.node? x = some n ↔ g.node? x = some n ∧ x ∈ alive g := by
  unfold sweepDead
  dsimp only
  rw [node?_removeAll]
  by_cases hx : x ∈ alive g
  · simp [hx]
  · cases hn : g.node? x with
    | none => simp
    | some n' =>
      have hmem : x ∈ g.nodeIds.filter fun id => !(alive g).contains id :=
        List.mem_filter.2 ⟨List.mem_map.2 ⟨(x, n'), mem_entries.2 hn, rfl⟩, by simpa using hx⟩
      rw [if_pos hmem]
      simp [hx]

/-! ## The swept graph -/

theorem node?_sweepDead_of_fixed (hsk : g.Skeleton) (ht : g.Trim) (hn : g.node? m = some n)
    (hk : n.kind.isFixed) :
    (sweepDead g).1.node? m = some n :=
  node?_sweepDead.2 ⟨hn, alive_of_reached hsk (ht m n hn hk)⟩

theorem sameControl_sweepDead (hsk : g.Skeleton) (ht : g.Trim) : g.SameControl (sweepDead g).1 where
  stays _ n hn hk := ⟨n, node?_sweepDead_of_fixed hsk ht hn hk⟩
  old _ n hn _ := ⟨n, (node?_sweepDead.1 hn).1, rfl, rfl⟩
  fresh _ _ hn hle := absurd (lt_size_of_node? (node?_sweepDead.1 hn).1) (Nat.not_lt.2 hle)

theorem keepsFrames_sweepDead (g : Graph) : g.KeepsFrames (sweepDead g).1 :=
  fun x n hn _ => ⟨x, n, (node?_sweepDead.1 hn).1, rfl, rfl⟩

theorem size_sweepDead (g : Graph) : (sweepDead g).1.nodes.size = g.nodes.size := size_removeAll g _

theorem skeleton_sweepDead (hsk : g.Skeleton) (ht : g.Trim) : (sweepDead g).1.Skeleton := by
  refine hsk.rewired (sameControl_sweepDead hsk ht) (fun x n hn => ?_) fun x n hn hk => ?_
  · obtain ⟨hn, -⟩ := node?_sweepDead.1 hn
    exact ⟨hsk.arity x n hn, fun y hy => size_sweepDead g ▸ hsk.below x n y hn hy⟩
  · exact ⟨n, (node?_sweepDead.1 hn).1, hk, rfl, rfl⟩

theorem trim_sweepDead (hsk : g.Skeleton) (ht : g.Trim) :
    (sweepDead g).1.Trim := ht.rewired (sameControl_sweepDead hsk ht)

theorem orderly_sweepDead (hg : g.Orderly) : (sweepDead g).1.Orderly where
  skeleton := skeleton_sweepDead hg.skeleton hg.trim
  trim := trim_sweepDead hg.skeleton hg.trim
  closed := hg.closed.rewired (sameControl_sweepDead hg.skeleton hg.trim)

section

variable (hf : g.Formed)

include hf

theorem Available.swept (hx : g.Available q x) (ha : x ∈ alive g) :
    (sweepDead g).1.Available q x := by
  have hinput : ∀ {z n y}, z ∈ alive g → g.node? z = some n → y ∈ n.inputs → g.Available q y →
      y ∈ alive g := fun hz hn hy hav =>
    alive_of_edge hz hn (by simp [Node.edges, hy]) (Option.isSome_iff_exists.2 hav.exists_node)
  induction hx with
  | constant hn hk => exact .constant (node?_sweepDead.2 ⟨hn, ha⟩) hk
  | parameter hn hk => exact .parameter (node?_sweepDead.2 ⟨hn, ha⟩) hk
  | register ho hd =>
    refine .register ?_ ((sameControl_sweepDead hf.orderly.skeleton hf.trim).dominates.2 hd)
    rcases ho with ho | ⟨rfl, ho⟩
    · obtain ⟨n, hn, hk, hc⟩ := mem_phisOf.1 ho
      exact .inl (mem_phisOf.2 ⟨n, node?_sweepDead.2 ⟨hn, ha⟩, hk, hc⟩)
    · refine .inr ⟨rfl, ?_⟩
      obtain ⟨n, hn, -⟩ := owns_exists (.inr ⟨rfl, ho⟩)
      simpa [kind?, hn, node?_sweepDead.2 ⟨hn, ha⟩] using ho
  | binary hn hk hi ih =>
    exact .binary (node?_sweepDead.2 ⟨hn, ha⟩) hk fun y hy => ih y hy (hinput ha hn hy (hi y hy))
  | unary hn hk hi ih =>
    exact .unary (node?_sweepDead.2 ⟨hn, ha⟩) hk fun y hy => ih y hy (hinput ha hn hy (hi y hy))

theorem StateAvailable.swept (hx : g.StateAvailable q x) (ha : x ∈ alive g) :
    (sweepDead g).1.StateAvailable q x := by
  induction hx with
  | frame hn hk hi ho ih =>
    refine .frame (node?_sweepDead.2 ⟨hn, ha⟩) hk (fun y hy => ?_) fun o hs => ?_
    · exact (hi y hy).swept hf (alive_of_edge ha hn (by simp [Node.edges, hy])
        (Option.isSome_iff_exists.2 (hi y hy).exists_node))
    · exact ih o hs (alive_of_edge ha hn (by simp [Node.edges, hs])
        (Option.isSome_iff_exists.2 (ho o hs).exists_node))

/-- No edge of the swept graph leads to a removed node. -/
theorem clean_sweepDead : (sweepDead g).1.Clean := by
  intro m n hn x hx
  obtain ⟨hn, ha⟩ := node?_sweepDead.1 hn
  have hc := ((used_of_alive hf ha).edge hf hn hx).contains hf.wired
  obtain ⟨nx, hnx⟩ := Option.isSome_iff_exists.1 hc
  exact Option.isSome_iff_exists.2 ⟨nx, node?_sweepDead.2 ⟨hnx, alive_of_edge ha hn hx hc⟩⟩

theorem formed_sweepDead : (sweepDead g).1.Formed := by
  refine hf.rewired (sameControl_sweepDead hf.orderly.skeleton hf.trim) (fun x n hn => ?_)
    (fun x n hn _ => ?_) (keepsFrames_sweepDead g)
  · obtain ⟨hn, -⟩ := node?_sweepDead.1 hn
    exact ⟨hf.wired.counted x n hn, fun y hy => size_sweepDead g ▸ hf.wired.below x n y hn hy⟩
  · obtain ⟨hn, hx⟩ := node?_sweepDead.1 hn
    have halive : ∀ {y}, y ∈ n.edges → (∃ ny, g.node? y = some ny) → y ∈ alive g :=
      fun hy hc => alive_of_edge hx hn hy (Option.isSome_iff_exists.2 hc)
    refine ⟨n, hn, rfl, rfl, rfl, fun i y hy => ⟨y, hy, fun q _ hav => ?_⟩,
      fun s hs => ⟨s, hs, fun q _ hav => ?_⟩⟩
    · exact hav.swept hf (halive (by simp [Node.edges, List.mem_of_getElem? hy]) hav.exists_node)
    · exact hav.swept hf (halive (by simp [Node.edges, hs]) hav.exists_node)

/-! ## Elimination -/

theorem formed_eliminateOnce : (eliminateOnce g).1.Formed ∧ (eliminateOnce g).1.Clean := by
  have hcut := formed_cutUnreachable hf.wired hf.closed hf.frames
  exact ⟨formed_sweepDead hcut, clean_sweepDead hcut⟩

/-- Dead code elimination leaves a well-formed graph without edges to removed
nodes. -/
theorem formed_eliminateDead : (eliminateDead g).1.Formed ∧ (eliminateDead g).1.Clean := by
  have hpass : ∀ (fuel : ℕ) (g : Graph), g.Formed → (fuel = 0 → g.Clean) →
      (eliminateUpTo fuel g).1.Formed ∧ (eliminateUpTo fuel g).1.Clean := by
    intro fuel
    induction fuel with
    | zero => exact fun g hf hc => ⟨hf, hc rfl⟩
    | succ fuel ih =>
      intro g hf _
      have hone := formed_eliminateOnce hf
      rw [eliminateUpTo]
      dsimp only
      split
      · exact hone
      · exact ih _ hone.1 fun _ => hone.2
  exact hpass _ g hf fun h => by simp at h

end

end Graph

end TieredEngine

import TieredEngine.Proofs.Graph.Skeleton
/-!
# Well-formed graphs

`Wired` is what a graph keeps while it is built and while it is reduced: every
node has as many edges as its kind asks for, control can get to every fixed
node and goes on from all of them but some open ends, and whatever a fixed
node or a phi reads is available where it is read. A wired graph without open
ends and without edges to removed nodes passes both checks:
`verify_of_formed`, `verifyFrameStates_of_formed`.
-/

namespace TieredEngine

/-- The node has as many edges as its kind asks for; the number of a phi's
inputs depends on its merge. A frame state was made for its inputs, but words
may have been too short to count them. -/
def Node.Counted (n : Node) : Prop :=
  match n.kind with
  | .start | .parameter _ | .constant _ => n.inputs = [] ∧ n.control = [] ∧ n.state = none
  | .ret | .branch => n.inputs.length = 1 ∧ n.control.length = 1 ∧ n.state = none
  | .onTrue | .onFalse => n.inputs = [] ∧ n.control.length = 1 ∧ n.state = none
  | .merge | .loopBegin => n.inputs = [] ∧ 1 ≤ n.control.length ∧ n.state = none
  | .invoke .. => n.control.length = 1 ∧ n.state.isSome
  | .guard .. => n.inputs.length = 1 ∧ n.control.length = 1 ∧ n.state.isSome
  | .deoptimize _ => n.inputs = [] ∧ n.control.length = 1 ∧ n.state.isSome
  | .binary _ => n.inputs.length = 2 ∧ n.control = [] ∧ n.state = none
  | .unary _ => n.inputs.length = 1 ∧ n.control = [] ∧ n.state = none
  | .phi => n.control.length = 1 ∧ n.state = none
  | .frameState shape => shape.NarrowedFrom n.inputs.length ∧ n.control = []

theorem Node.Counted.arity {n : Node} (h : n.Counted) : n.Arity := by
  revert h
  unfold Node.Counted Node.Arity
  cases n.kind <;> simp +contextual

/-- Control goes on behind a node of this kind over one edge. -/
def NodeKind.isOpen (k : NodeKind) : Bool := k.isFixed && !k.isTerminal && k ≠ .branch

/-- Whether the node computes its value from its inputs. -/
def NodeKind.isOperator : NodeKind → Bool
  | .binary _ | .unary _ => true
  | _ => false

theorem NodeKind.isOpen_iff {k : NodeKind} :
    k.isOpen ↔ k.isFixed ∧ k.isTerminal = false ∧ k ≠ .branch := by
  simp [NodeKind.isOpen, and_assoc]

theorem NodeKind.isFixed_of_canDeoptimize {k : NodeKind} (h : k.canDeoptimize) : k.isFixed := by
  cases k <;> simp_all [NodeKind.canDeoptimize, NodeKind.isFixed]

namespace Graph

/-- Control goes on behind a node as its kind asks for. -/
def GoesOn (g : Graph) (m : NodeId) : NodeKind → Prop
  | .ret | .deoptimize _ => ∀ s, ¬ g.Follows m s
  | .branch =>
    ∃ a b, g.kind? a = some .onTrue ∧ g.kind? b = some .onFalse ∧ ∀ s, g.Follows m s ↔ s = a ∨ s = b
  | _ => ∃ s, ∀ s', g.Follows m s' ↔ s' = s

/-- Where control gets, a graph is put together well: every node has the edges
its kind asks for, control comes from fixed nodes, and what is read is
available. -/
structure Wired (g : Graph) : Prop where
  start : g.kind? Graph.start = some .start
  only : ∀ m n, g.node? m = some n → n.kind = .start → m = Graph.start
  below : ∀ m n x, g.node? m = some n → x ∈ n.edges → x < g.nodes.size
  counted : ∀ m n, g.node? m = some n → n.Counted
  distinct : ∀ m n, g.node? m = some n → n.kind.isFixed → n.control.Nodup
  behind : ∀ m n q, g.node? m = some n → n.kind.isFixed → g.Reached m → q ∈ n.control →
    ∃ k, g.kind? q = some k ∧ k.isFixed ∧ (n.kind.isSide → k = .branch)
  inputs : ∀ m n q x, g.node? m = some n → n.kind.isFixed → g.Reached m → q ∈ n.control →
    x ∈ n.inputs → g.Available q x
  states : ∀ m n q s, g.node? m = some n → n.kind.isFixed → g.Reached m → q ∈ n.control →
    n.state = some s → g.StateAvailable q s
  /-- The inputs of a phi belong to the edges of its merge. -/
  phis : ∀ x n, g.node? x = some n → n.kind = .phi → ∃ m, n.control = [m] ∧
    ∀ nm, g.node? m = some nm → nm.kind.isMerge ∧
    (g.Reached m → n.inputs.length = nm.control.length ∧
      ∀ (i : ℕ) q y, nm.control[i]? = some q → n.inputs[i]? = some y → g.Available q y)

/-- Control gets to every fixed node. -/
def Trim (g : Graph) : Prop := ∀ m n, g.node? m = some n → n.kind.isFixed → g.Reached m

/-- Control goes on as it should behind all nodes but some open ends, behind
which there is nothing yet. -/
structure OpenAt (g : Graph) (ends : List NodeId) : Prop where
  nodup : ends.Nodup
  free : ∀ q ∈ ends, ∃ k, g.kind? q = some k ∧ k.isOpen ∧ ∀ s, ¬ g.Follows q s
  goesOn : ∀ m n, g.node? m = some n → n.kind.isFixed → g.Reached m → m ∉ ends → g.GoesOn m n.kind

/-- A graph that is put together well, with control everywhere and no open
end, whose frame states count their inputs. -/
structure Formed (g : Graph) : Prop where
  wired : g.Wired
  trim : g.Trim
  closed : g.OpenAt []
  frames : g.FramesCounted

/-- Control gets everywhere and goes on everywhere; nothing is said about the
values that are read. -/
structure Orderly (g : Graph) : Prop where
  skeleton : g.Skeleton
  trim : g.Trim
  closed : g.OpenAt []

variable {g g' : Graph} {m : NodeId} {n : Node}

/-! ## The control skeleton -/

theorem Wired.skeleton (hw : g.Wired) : g.Skeleton where
  start := hw.start
  only := hw.only
  below := hw.below
  arity m n hn := (hw.counted m n hn).arity
  behind := hw.behind
  phis x n hn hk := by
    obtain ⟨m, hm, hrest⟩ := hw.phis x n hn hk
    exact ⟨m, hm, fun nm hnm => ⟨(hrest nm hnm).1, fun hr => ((hrest nm hnm).2 hr).1⟩⟩

/-- What is well-formed beyond its control skeleton. -/
theorem Skeleton.wired (hs : g.Skeleton) (hcounted : ∀ m n, g.node? m = some n → n.Counted)
    (hdistinct : ∀ m n, g.node? m = some n → n.kind.isFixed → n.control.Nodup)
    (hinputs : ∀ m n q x, g.node? m = some n → n.kind.isFixed → g.Reached m → q ∈ n.control →
        x ∈ n.inputs → g.Available q x)
    (hstates : ∀ m n q s, g.node? m = some n → n.kind.isFixed → g.Reached m → q ∈ n.control →
      n.state = some s → g.StateAvailable q s)
    (hphis : ∀ x n m nm, g.node? x = some n → n.kind = .phi → n.control = [m] →
      g.node? m = some nm → g.Reached m →
      ∀ (i : ℕ) q y, nm.control[i]? = some q → n.inputs[i]? = some y → g.Available q y) :
        g.Wired where
  start := hs.start
  only := hs.only
  below := hs.below
  counted := hcounted
  distinct := hdistinct
  behind := hs.behind
  inputs := hinputs
  states := hstates
  phis x n hn hk := by
    obtain ⟨m, hm, hrest⟩ := hs.phis x n hn hk
    exact ⟨m, hm, fun nm hnm =>
      ⟨(hrest nm hnm).1, fun hr => ⟨(hrest nm hnm).2 hr, hphis x n m nm hn hk hm hnm hr⟩⟩⟩

theorem Wired.ne_start_of_follows (hw : g.Wired) {q : NodeId} (h : g.Follows q m) :
    m ≠ Graph.start :=
  hw.skeleton.ne_start_of_follows h

/-- Only merges have several predecessors. -/
theorem Wired.eq_of_follows (hw : g.Wired) {q q' : NodeId} (hn : g.node? m = some n)
    (hk : n.kind.isMerge = false) (h : g.Follows q m) (h' : g.Follows q' m) :
    q = q' := hw.skeleton.eq_of_follows hn hk h h'

theorem Formed.orderly (hf : g.Formed) : g.Orderly := ⟨hf.wired.skeleton, hf.trim, hf.closed⟩

/-! ## Going on -/

theorem GoesOn.congr {k : NodeKind} (h : g.GoesOn m k) (hf : ∀ s, g'.Follows m s ↔ g.Follows m s)
    (hk : ∀ s k, g.Follows m s → g.kind? s = some k → g'.kind? s = some k) : g'.GoesOn m k := by
  cases k with
  | ret | deoptimize _ => exact fun s hs => h s ((hf s).1 hs)
  | branch =>
    obtain ⟨a, b, ha, hb, h⟩ := h
    exact ⟨a, b, hk a _ ((h a).2 (.inl rfl)) ha, hk b _ ((h b).2 (.inr rfl)) hb,
      fun s => (hf s).trans (h s)⟩
  | _ =>
    obtain ⟨s, h⟩ := h
    exact ⟨s, fun s' => (hf s').trans (h s')⟩

theorem GoesOn.of_isOpen {k : NodeKind} {s : NodeId} (hk : k.isOpen)
    (h : ∀ s', g.Follows m s' ↔ s' = s) : g.GoesOn m k := by
  cases k with
  | ret | deoptimize _ | branch =>
    simp [NodeKind.isOpen, NodeKind.isFixed, NodeKind.isTerminal] at hk
  | _ => exact ⟨s, h⟩

theorem GoesOn.single {k : NodeKind} (h : g.GoesOn m k) (hk : k.isOpen) :
    ∃ s, ∀ s', g.Follows m s' ↔ s' = s := by
  cases k with
  | ret | deoptimize _ | branch =>
    simp [NodeKind.isOpen, NodeKind.isFixed, NodeKind.isTerminal] at hk
  | _ => exact h

theorem GoesOn.not_follows {k : NodeKind} (h : g.GoesOn m k) (hk : k.isTerminal) :
    ∀ s, ¬ g.Follows m s := by
  cases k with
  | ret | deoptimize _ => exact h
  | _ => simp [NodeKind.isTerminal] at hk

theorem GoesOn.of_isTerminal {k : NodeKind} (hk : k.isTerminal) (h : ∀ s, ¬ g.Follows m s) :
    g.GoesOn m k := by
  cases k with
  | ret | deoptimize _ => exact h
  | _ => simp [NodeKind.isTerminal] at hk

/-! ## Only the nodes matter -/

section

variable {g g' : Graph} (h : g'.nodes = g.nodes)

include h

theorem node?_congr (id : NodeId) : g'.node? id = g.node? id := by rw [node?, node?, h]

theorem kind?_congr (id : NodeId) : g'.kind? id = g.kind? id := by rw [kind?, kind?, node?_congr h]

theorem follows_congr {q m : NodeId} :
    g'.Follows q m ↔ g.Follows q m := by simp only [Follows, node?_congr h]

theorem way_congr {m : NodeId} {π : List NodeId} : g'.Way m π ↔ g.Way m π :=
  ⟨Way.mono fun _ _ => (follows_congr h).1, Way.mono fun _ _ => (follows_congr h).2⟩

theorem reached_congr {m : NodeId} : g'.Reached m ↔ g.Reached m := exists_congr fun _ => way_congr h

theorem owns_congr {d x : NodeId} : Owns g' d x ↔ Owns g d x := by
  simp only [Owns, mem_phisOf, node?_congr h, kind?_congr h]

theorem Available.congr {q x : NodeId} (hx : g.Available q x) : g'.Available q x :=
  hx.transfer (fun y n hn _ _ => ⟨n, (node?_congr h y).trans hn, rfl, rfl⟩) fun _ _ ho hd =>
    ⟨(owns_congr h).2 ho, fun π hπ => hd π ((way_congr h).1 hπ)⟩

theorem StateAvailable.congr {q s : NodeId} (hs : g.StateAvailable q s) : g'.StateAvailable q s :=
  hs.transfer (fun y n hn _ _ => ⟨n, (node?_congr h y).trans hn, rfl, rfl, rfl⟩) fun _ _ ho hd =>
    ⟨(owns_congr h).2 ho, fun π hπ => hd π ((way_congr h).1 hπ)⟩

theorem Wired.congr (hw : g.Wired) : g'.Wired where
  start := (kind?_congr h _).trans hw.start
  only m n hn := hw.only m n (node?_congr h m ▸ hn)
  below m n x hn hx := h ▸ hw.below m n x (node?_congr h m ▸ hn) hx
  counted m n hn := hw.counted m n (node?_congr h m ▸ hn)
  distinct m n hn := hw.distinct m n (node?_congr h m ▸ hn)
  behind m n q hn hf hr hq :=
    kind?_congr h q ▸ hw.behind m n q (node?_congr h m ▸ hn) hf ((reached_congr h).1 hr) hq
  inputs m n q x hn hf hr hq hx :=
    (hw.inputs m n q x (node?_congr h m ▸ hn) hf ((reached_congr h).1 hr) hq hx).congr h
  states m n q s hn hf hr hq hs :=
    (hw.states m n q s (node?_congr h m ▸ hn) hf ((reached_congr h).1 hr) hq hs).congr h
  phis x n hn hk := by
    obtain ⟨m, hc, hrest⟩ := hw.phis x n (node?_congr h x ▸ hn) hk
    refine ⟨m, hc, fun nm hnm => ?_⟩
    obtain ⟨hmerge, hrest⟩ := hrest nm (node?_congr h m ▸ hnm)
    refine ⟨hmerge, fun hr => ?_⟩
    obtain ⟨hlen, havail⟩ := hrest ((reached_congr h).1 hr)
    exact ⟨hlen, fun i q y hq hy => (havail i q y hq hy).congr h⟩

theorem Trim.congr (ht : g.Trim) :
    g'.Trim := fun m n hn hf => (reached_congr h).2 (ht m n (node?_congr h m ▸ hn) hf)

theorem OpenAt.congr {ends : List NodeId} (ho : g.OpenAt ends) : g'.OpenAt ends where
  nodup := ho.nodup
  free q hq := by
    obtain ⟨k, hk, hopen, hfree⟩ := ho.free q hq
    exact ⟨k, (kind?_congr h q).trans hk, hopen, fun s hs => hfree s ((follows_congr h).1 hs)⟩
  goesOn m n hn hf hr hm := by
    have hgo := ho.goesOn m n (node?_congr h m ▸ hn) hf ((reached_congr h).1 hr) hm
    exact hgo.congr (fun s => follows_congr h) fun s k _ hk => (kind?_congr h s).trans hk

end

/-! ## Successors -/

theorem successors_nodup (g : Graph) (id : NodeId) : (g.successors id).Nodup := by
  have hfst : ∀ e ∈ g.entries, ∀ e' ∈ g.entries, e.1 = e'.1 → e = e' := by
    intro e he e' he' h
    have h1 := mem_entries.1 he
    rw [h, mem_entries.1 he'] at h1
    exact Prod.ext h (Option.some.inj h1).symm
  have hgroup : ∀ (es : List (NodeId × Node)) (p q : NodeId × Node → Bool),
      (∀ e, p e → q e → False) → es ⊆ g.entries →
      List.Disjoint ((es.filter p).map Prod.fst) ((es.filter q).map Prod.fst) := by
    intro es p q hpq hes x hx hx'
    obtain ⟨e, he, rfl⟩ := List.mem_map.1 hx
    obtain ⟨e', he', h⟩ := List.mem_map.1 hx'
    obtain ⟨h1, h2⟩ := List.mem_filter.1 he
    obtain ⟨h3, h4⟩ := List.mem_filter.1 he'
    obtain rfl := hfst e' (hes h3) e (hes h1) h
    exact hpq _ h2 h4
  have hnodup : ∀ p, ((g.entries.filter p).map Prod.fst).Nodup := fun p => g.entries_filter_nodup p
  unfold successors inFlowOrder
  rw [List.map_append, List.map_append, List.append_assoc]
  have hsub : (g.entries.filter fun e => (flowEdges e.2).contains id) ⊆ g.entries :=
    fun e he => (List.mem_filter.1 he).1
  refine List.Nodup.append ?_ (List.Nodup.append ?_ ?_ (hgroup _ _ _ (fun e h1 h2 => ?_) hsub))
    (List.disjoint_append_right.2
    ⟨hgroup _ _ _ (fun e h1 h2 => ?_) hsub, hgroup _ _ _ (fun e h1 h2 => ?_) hsub⟩)
  · rw [List.filter_filter]; exact hnodup _
  · rw [List.filter_filter]; exact hnodup _
  · rw [List.filter_filter]; exact hnodup _
  · simp only [decide_eq_true_eq, Bool.and_eq_true] at h1 h2
    exact h2.2 h1
  · simp only [decide_eq_true_eq] at h1 h2
    rw [h1] at h2
    cases h2
  · simp only [decide_eq_true_eq, Bool.and_eq_true] at h1 h2
    exact h2.1 h1

/-- How many successors a node has depends on who follows it only. -/
theorem length_successors_congr (h : ∀ s, g'.Follows m s ↔ g.Follows m s) :
    (g'.successors m).length = (g.successors m).length := by
  refine ((List.perm_ext_iff_of_nodup (g'.successors_nodup m) (g.successors_nodup m)).2 fun s =>
    ?_).length_eq
  rw [← follows_iff_mem_successors, ← follows_iff_mem_successors]
  exact h s

theorem successors_eq_nil (h : ∀ s, ¬ g.Follows m s) : g.successors m = [] :=
  List.eq_nil_iff_forall_not_mem.2 fun s hs => h s (follows_iff_mem_successors.2 hs)

theorem successors_eq_of_single {s : NodeId} (h : ∀ s', g.Follows m s' ↔ s' = s) :
    g.successors m = [s] := by
  have hmem : ∀ x ∈ g.successors m, x = s := fun x hx => (h x).1 (follows_iff_mem_successors.2 hx)
  have hs : s ∈ g.successors m := follows_iff_mem_successors.1 ((h s).2 rfl)
  have hrep : g.successors m = List.replicate (g.successors m).length s :=
    List.eq_replicate_iff.2 ⟨rfl, hmem⟩
  have hlen : (g.successors m).length ≤ 1 := by
    have hn := g.successors_nodup m
    rw [hrep] at hn
    exact List.nodup_replicate.1 hn
  have hpos : 0 < (g.successors m).length := List.length_pos_of_mem hs
  rw [hrep, show (g.successors m).length = 1 by omega]
  rfl

theorem successors_eq_of_sides {a b : NodeId} (ha : g.kind? a = some .onTrue)
    (hb : g.kind? b = some .onFalse) (h : ∀ s, g.Follows m s ↔ s = a ∨ s = b) :
    g.successors m = [a, b] := by
  obtain ⟨na, hna, hka, hca⟩ := (h a).2 (.inl rfl)
  obtain ⟨nb, hnb, hkb, hcb⟩ := (h b).2 (.inr rfl)
  have hne : a ≠ b := by
    rintro rfl
    rw [ha] at hb
    cases hb
  have hta : na.kind = .onTrue := by
    obtain ⟨n, hn, hk⟩ := kind?_eq_some.1 ha
    rw [hna] at hn
    cases hn
    exact hk
  have htb : nb.kind = .onFalse := by
    obtain ⟨n, hn, hk⟩ := kind?_eq_some.1 hb
    rw [hnb] at hn
    cases hn
    exact hk
  have hperm : (g.successors m).Perm [a, b] := by
    refine (List.perm_ext_iff_of_nodup (g.successors_nodup m) (by simp [hne])).2 fun x => ?_
    rw [← follows_iff_mem_successors, h]
    simp
  exact successors_eq_pair hna hnb hta htb hca hcb hperm.length_eq

theorem length_successors_of_goesOn {k : NodeKind} (h : g.GoesOn m k) :
    (g.successors m).length = successorCount k := by
  cases k with
  | ret | deoptimize _ => rw [successors_eq_nil h]; rfl
  | branch =>
    obtain ⟨a, b, ha, hb, h⟩ := h
    rw [successors_eq_of_sides ha hb h]
    rfl
  | _ =>
    obtain ⟨s, h⟩ := h
    rw [successors_eq_of_single h]
    rfl

/-! ## Verification -/

/-- A graph with control everywhere and no edge to a removed node passes the
check if its nodes have the right number of successors. -/
theorem Skeleton.verified (hs : g.Skeleton) (ht : g.Trim) (hc : g.Clean)
    (hframes : ∀ m n shape, g.node? m = some n → n.kind = .frameState shape →
      n.inputs.length = shape.valueCount)
    (hsucc : ∀ m n, g.node? m = some n → n.kind.isFixed →
        (g.successors m).length = successorCount n.kind) : g.Verified where
  start := hs.start
  only := hs.only
  clean := hc
  arity := hs.arity
  frames := hframes
  sides m n q hn hside hq := by
    have hk := NodeKind.isFixed_of_isSide hside
    obtain ⟨k, h1, -, h2⟩ := hs.behind m n q hn hk (ht m n hn hk) hq
    rw [h1, h2 hside]
  phis x n m hn hk hm := by
    obtain ⟨m', hm', hrest⟩ := hs.phis x n hn hk
    obtain rfl : m = m' := by simpa [hm'] using hm
    obtain ⟨nm, hnm⟩ := Option.isSome_iff_exists.1 (hc x n hn m (by simp [Node.edges, hm]))
    obtain ⟨hmerge, hlen⟩ := hrest nm hnm
    exact ⟨nm, hnm, hmerge, hlen (ht m nm hnm (NodeKind.isFixed_of_isMerge hmerge))⟩
  behind m n q hn hk hq := by
    obtain ⟨k, h1, h2, -⟩ := hs.behind m n q hn hk (ht m n hn hk) hq
    exact ⟨k, h1, h2⟩
  successors := hsucc

/-- A well-formed graph passes the check. -/
theorem verify_of_formed (hf : g.Formed) (hc : g.Clean) : g.verify = .ok () := by
  have hframes m n shape (hn : g.node? m = some n) (hk : n.kind = .frameState shape) :=
    (hf.frames m n shape hn hk).valueCount_eq.symm
  refine verify_eq_ok_iff.2 (hf.wired.skeleton.verified hf.trim hc hframes fun m n hn hk => ?_)
  exact length_successors_of_goesOn (hf.closed.goesOn m n hn hk (hf.trim m n hn hk) (by simp))

/-! ## Frame states -/

/-- From `s` on, the state edges lead over that many frame states with the
right number of inputs. -/
inductive FrameChain (g : Graph) : NodeId → ℕ → Prop
  | last {s n shape} : g.node? s = some n → n.kind = .frameState shape →
      n.inputs.length = shape.valueCount → n.state = none → FrameChain g s 1
  | more {s n shape outer k} : g.node? s = some n → n.kind = .frameState shape →
      n.inputs.length = shape.valueCount →
      n.state = some outer → FrameChain g outer k → FrameChain g s (k + 1)

theorem FrameChain.pos {s : NodeId} {k : ℕ} (h : g.FrameChain s k) : 0 < k := by
  cases h <;> omega

theorem FrameChain.unique {s : NodeId} {k j : ℕ} (h : g.FrameChain s k) (h' : g.FrameChain s j) :
    k = j := by
  induction h generalizing j with
  | last hn _ _ hs =>
    cases h' with
    | last => rfl
    | more hn' _ _ hs' _ =>
      obtain rfl := Option.some.inj (hn.symm.trans hn')
      rw [hs] at hs'
      cases hs'
  | more hn _ _ hs _ ih =>
    cases h' with
    | last hn' _ _ hs' =>
      obtain rfl := Option.some.inj (hn.symm.trans hn')
      rw [hs] at hs'
      cases hs'
    | more hn' _ _ hs' hrest =>
      obtain rfl := Option.some.inj (hn.symm.trans hn')
      obtain rfl := Option.some.inj (hs.symm.trans hs')
      rw [ih hrest]

/-- A chain never passes a frame state twice. -/
theorem FrameChain.le_size {s : NodeId} {k : ℕ} (h : g.FrameChain s k) : k ≤ g.nodes.size := by
  have hlt := level_lt_size (g := g) (fun k s => g.FrameChain s (k + 1))
    (fun k s hs => by cases hs <;> exact lt_size_of_node? ‹_›)
    (fun j k s hj hk => Nat.succ.inj (hj.unique hk))
    (fun k s hs => by
      cases hs with
      | more _ _ _ _ hrest => exact ⟨_, hrest⟩)
    (show g.FrameChain s (k - 1 + 1) by rwa [Nat.sub_add_cancel h.pos])
  omega

theorem FrameChain.complete {s : NodeId} {k : ℕ} (h : g.FrameChain s k) :
    ∀ fuel, k ≤ fuel → (g.followStates fuel s).ending = .complete := by
  induction h with
  | @last s n shape hn hk hl hs =>
    intro fuel hf
    obtain ⟨fuel, rfl⟩ := Nat.exists_eq_add_of_le' hf
    obtain ⟨kind, inputs, control, state⟩ := n
    dsimp only at hk hl hs
    subst hk hs
    simp only [followStates, hn, if_pos hl]
  | @more s n shape outer k hn hk hl hs _ ih =>
    intro fuel hf
    obtain ⟨fuel, rfl⟩ : ∃ j, fuel = j + 1 := ⟨fuel - 1, by omega⟩
    obtain ⟨kind, inputs, control, state⟩ := n
    dsimp only at hk hl hs
    subst hk hs
    simp only [followStates, hn, if_pos hl]
    exact ih fuel (by omega)

theorem StateAvailable.chain {q s : NodeId} (hcount : g.FramesCounted) (h : g.StateAvailable q s) :
    ∃ k, g.FrameChain s k := by
  induction h with
  | @frame s n shape hn hk _ _ ih =>
    have hl : n.inputs.length = shape.valueCount := (hcount s n shape hn hk).valueCount_eq.symm
    cases hs : n.state with
    | none => exact ⟨1, .last hn hk hl hs⟩
    | some outer =>
      obtain ⟨k, hchain⟩ := ih outer hs
      exact ⟨k + 1, .more hn hk hl hs hchain⟩

/-- The frames of a well-formed graph can be handed over. -/
theorem verifyFrameStates_of_formed (hf : g.Formed) : g.verifyFrameStates = .ok () := by
  unfold verifyFrameStates
  refine forM_ok fun e he => ?_
  have hn := mem_entries.1 he
  unfold verifyFrames
  split
  · rename_i hd
    have hfix : e.2.kind.isFixed := NodeKind.isFixed_of_canDeoptimize hd
    have hcount := hf.wired.counted _ _ hn
    obtain ⟨hlen, hstate⟩ : e.2.control.length = 1 ∧ e.2.state.isSome := by
      revert hd hcount
      unfold Node.Counted
      cases e.2.kind <;> simp +contextual [NodeKind.canDeoptimize]
    obtain ⟨q, hq⟩ := List.length_eq_one_iff.1 hlen
    obtain ⟨s, hs⟩ := Option.isSome_iff_exists.1 hstate
    have havail := hf.wired.states _ _ q s hn hfix (hf.trim _ _ hn hfix) (by simp [hq]) hs
    obtain ⟨k, hchain⟩ := havail.chain hf.frames
    simp only [hs]
    exact require_ok (decide_eq_true (hchain.complete _ hchain.le_size))
  · rfl

/-! ## Definitions dominate uses -/

/-- The value or frame is read behind `q`: by a fixed node to which control
gets from there, or by a phi whose merge it enters from there. -/
inductive ReadBehind (g : Graph) (q x : NodeId) : Prop
  | node {k nk} : g.node? k = some nk → nk.kind.isFixed → q ∈ nk.control → x ∈ nk.dataEdges →
      ReadBehind g q x
  | phi {z nz k nk} (i : ℕ) : g.node? z = some nz → nz.kind = .phi → nz.control = [k] →
      g.node? k = some nk → nk.control[i]? = some q → nz.inputs[i]? = some x → ReadBehind g q x

/-- To compute `x`, `y` is read, maybe through other floating nodes; phis and
calls are not looked into. -/
inductive Asks (g : Graph) : NodeId → NodeId → Prop
  | self (x) : Asks g x x
  | edge {x nx z y} : g.node? x = some nx → nx.kind.isFixed = false → nx.kind ≠ .phi →
      z ∈ nx.dataEdges → Asks g z y → Asks g x y

/-- A register that a computation reads is set on every way to where it is
made. -/
theorem Available.dominates {q x y d : NodeId} (hcount : ∀ m n, g.node? m = some n → n.Counted)
    (hx : g.Available q x) (ha : g.Asks x y) (ho : Owns g d y) : g.Dominates d q := by
  have hedges : ∀ {m n z}, g.node? m = some n → n.kind.isFrameState = false →
      n.kind.isFixed = false → z ∈ n.dataEdges → z ∈ n.inputs := by
    intro m n z hn hs hf hz
    have hc := hcount m n hn
    have hstate : n.state = none := by
      revert hc hs hf
      unfold Node.Counted
      cases n.kind <;> simp +contextual [NodeKind.isFrameState, NodeKind.isFixed]
    simpa [Node.dataEdges, hstate] using hz
  induction ha with
  | self x =>
    obtain ⟨n, hn, hreg⟩ := owns_exists ho
    cases hx with
    | register ho' hd => exact ho'.unique ho ▸ hd
    | constant hn' hk | parameter hn' hk | binary hn' hk | unary hn' hk =>
      obtain rfl := Option.some.inj (hn.symm.trans hn')
      simp [hk, NodeKind.isRegister] at hreg
  | @edge x nx z y hn hf hp hz _ ih =>
    cases hx with
    | constant hn' hk | parameter hn' hk =>
      obtain rfl := Option.some.inj (hn.symm.trans hn')
      have := hcount _ _ hn
      simp only [Node.Counted, hk] at this
      simp [Node.dataEdges, this] at hz
    | register ho' hd =>
      obtain ⟨n', hn', hreg⟩ := owns_exists ho'
      obtain rfl := Option.some.inj (hn.symm.trans hn')
      revert hreg hf hp
      cases nx.kind <;> simp [NodeKind.isRegister, NodeKind.isFixed]
    | binary hn' hk hi | unary hn' hk hi =>
      obtain rfl := Option.some.inj (hn.symm.trans hn')
      exact ih (hi _ (hedges hn (by rw [hk]; rfl) hf hz)) ho

theorem StateAvailable.dominates {q s y d : NodeId} (hcount : ∀ m n, g.node? m = some n → n.Counted)
    (hs : g.StateAvailable q s) (ha : g.Asks s y) (ho : Owns g d y) : g.Dominates d q := by
  induction hs with
  | frame hn hk hi _ ih =>
    cases ha with
    | self =>
      obtain ⟨n', hn', hreg⟩ := owns_exists ho
      obtain rfl := Option.some.inj (hn.symm.trans hn')
      simp [hk, NodeKind.isRegister] at hreg
    | edge hn' _ _ hz ha =>
      obtain rfl := Option.some.inj (hn.symm.trans hn')
      rcases List.mem_append.1 hz with hz | hz
      · exact (hi _ hz).dominates hcount ha ho
      · exact ih _ (by simpa using hz) ha

/-- In a well-formed graph, whatever sets a register lies on every way to
where the register is read. -/
theorem Formed.dominates {q x y d : NodeId} (hf : g.Formed) (hr : g.ReadBehind q x)
    (ha : g.Asks x y) (ho : Owns g d y) :
    g.Dominates d q := by
  cases hr with
  | node hn hfix hq hx =>
    rcases List.mem_append.1 hx with hx | hx
    · exact (hf.wired.inputs _ _ q x hn hfix (hf.trim _ _ hn hfix) hq hx).dominates
        hf.wired.counted ha ho
    · exact (hf.wired.states _ _ q x hn hfix (hf.trim _ _ hn hfix) hq (by simpa using hx)).dominates
        hf.wired.counted ha ho
  | phi i hz hk hm hnm hq hx =>
    obtain ⟨m, hm', hrest⟩ := hf.wired.phis _ _ hz hk
    obtain rfl := List.cons.inj (hm.symm.trans hm') |>.1
    obtain ⟨hmerge, hrest⟩ := hrest _ hnm
    obtain ⟨-, havail⟩ := hrest (hf.trim _ _ hnm (NodeKind.isFixed_of_isMerge hmerge))
    exact (havail i q x hq hx).dominates hf.wired.counted ha ho

end Graph

end TieredEngine

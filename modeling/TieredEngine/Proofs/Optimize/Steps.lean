import TieredEngine.Proofs.Optimize.Rewrites
/-!
# What one reduction does

`Reduced` lists what a reduction can make of a graph, with what it has found
out about the node. Where control gets everywhere and goes on everywhere, a
reduction meets no missing node or edge, and the search for an equal guard
ends: `reduceNode_gives`.
-/

namespace TieredEngine

namespace Optimize

open TieredEngine.Graph

/-- The phis of a list are replaced by their only inputs, one after the
other. -/
inductive Collapse : List NodeId → Graph → Graph → Prop
  | nil {g} : Collapse [] g g
  | cons {phi phis g g' n x} : g.node? phi = some n → n.kind = .phi → n.inputs = [x] →
      Collapse phis (g.replaceValue phi x) g' → Collapse (phi :: phis) g g'

/-- What the reduction of the node `n` at `id` makes of the graph. -/
inductive Reduced (g : Graph) (id : NodeId) (n : Node) : Graph → Prop
  | folded {op x y a b v} : n.kind = .binary op → n.inputs = [x, y] → g.constantAt x = some a →
      g.constantAt y = some b → op.apply a b = .ok v → Reduced g id n (replaceByConstant g id v)
  | swapped {op x y a} : n.kind = .binary op → op.isCommutative → n.inputs = [x, y] →
      g.constantAt x = some a → g.constantAt y = none →
      Reduced g id n (g.modify id fun n => { n with inputs := y :: x :: n.inputs.drop 2 })
  | operand {op x y z} : n.kind = .binary op → n.inputs = [x, y] →
      identity? op x y (g.constantAt y) = some (.operand z) → Reduced g id n (g.replaceValue id z)
  | value {op x y v} : n.kind = .binary op → n.inputs = [x, y] → identity? op x y
      (g.constantAt y) = some (.value v) → Reduced g id n (replaceByConstant g id v)
  | foldedUnary {op x a v} : n.kind = .unary op → n.inputs = [x] → g.constantAt x = some a →
      op.apply a = .ok v → Reduced g id n (replaceByConstant g id v)
  | undone {op x inner y} : n.kind = .unary op → n.inputs = [x] → g.node? x = some inner →
      inner.kind = .unary op → inner.inputs = [y] → Reduced g id n (g.replaceValue id y)
  | phi {x} : n.kind = .phi → x ∈ n.inputs → x ≠ id → (∀ y ∈ n.inputs, y = id ∨ y = x) →
      Reduced g id n (g.replaceValue id x)
  | merge {p g'} : n.kind.isMerge → n.control = [p] → Collapse (g.phisOf id) g g' →
      Reduced g id n (g'.spliced p id id)
  | branch {x p b onTrue onFalse} : n.kind = .branch → n.inputs = [x] → n.control = [p] →
      g.constantAt x = some (.bool b) → g.successors id = [onTrue, onFalse] →
      Reduced g id n (g.spliced p id (if b then onTrue else onFalse)).cutUnreachable.1
  | guard {check reason x p} : n.kind = .guard check reason → n.inputs = [x] → n.control = [p] →
    knownToHold g check x ∨ g.Checked check x p → Reduced g id n (g.spliced p id id)

/-- The node is a guard that makes this check of this input. -/
def Makes (n : Node) (check : GuardCheck) (x : NodeId) : Prop :=
  ∃ reason, n.kind = .guard check reason ∧ n.inputs[0]? = some x

/-- The search for a guard goes up from a node, and ends with or without one:
at the first guard with this check of this input, at the start or a merge, or
at a node without a predecessor. -/
inductive Walks (g : Graph) (check : GuardCheck) (x : NodeId) : NodeId → Bool → Prop
  | found {m n} : g.node? m = some n → Makes n check x → Walks g check x m true
  | stopped {m n} : g.node? m = some n → n.kind = .start ∨ n.kind.isMerge → Walks g check x m false
  | blind {m n} : g.node? m = some n → ¬ Makes n check x → n.control = [] → Walks g check x m false
  | up {m n q b} : g.node? m = some n → ¬ Makes n check x → n.kind ≠ .start →
      n.kind.isMerge = false → n.control.head? = some q → Walks g check x q b → Walks g check x m b

/-- The step does not fail, and if it changes the graph then to one of this
kind. -/
def Gives (P : Graph → Prop) (s : Step) : Prop :=
  ∃ r, s = .ok r ∧ ∀ kind g', r = some (kind, g') → P g'

variable {g g' : Graph} {P Q : Graph → Prop} {id x y p m : NodeId} {n : Node} {v : Value}

theorem Gives.same (P : Graph → Prop) : Gives P (.ok none) := ⟨none, rfl, by simp⟩

theorem Gives.changed (kind : Reduction) (h : P g') : Gives P (.ok (some (kind, g'))) :=
  ⟨_, rfl, fun _ _ he => by simp only [Option.some.injEq, Prod.mk.injEq] at he; exact he.2 ▸ h⟩

theorem input_eq (id : NodeId) {i : ℕ} (h : n.inputs[i]? = some x) :
    n.input id i = .ok x := by simp [Node.input, h]

theorem predecessor_eq (id : NodeId) (h : n.control = [p]) :
    n.predecessor id = .ok p := by simp [Node.predecessor, h]

theorem exists_of_hasDeadEdge (h : hasDeadEdge g n = false) (hx : x ∈ n.edges) :
    ∃ nx, g.node? x = some nx := by
  have := (List.any_eq_false.1 h) x hx
  rwa [Bool.not_eq_true, Bool.not_eq_false', Graph.contains, Option.isSome_iff_exists] at this

/-! ## Operators -/

/-- A binary operator has two operands. -/
theorem inputs_of_binary {op : BinaryOp} (ha : n.Arity) (hk : n.kind = .binary op) :
    ∃ x y, n.inputs = [x, y] := by
  simp only [Node.Arity, hk] at ha
  exact List.length_eq_two.1 ha.1

theorem inputs_of_unary {op : UnaryOp} (ha : n.Arity) (hk : n.kind = .unary op) :
    ∃ x, n.inputs = [x] := by
  simp only [Node.Arity, hk] at ha
  exact List.length_eq_one_iff.1 ha.1

theorem reduceBinary_gives {op : BinaryOp} (ha : n.Arity) (hk : n.kind = .binary op) :
    Gives (Reduced g id n) (reduceBinary g id op n) := by
  obtain ⟨x, y, hi⟩ := inputs_of_binary ha hk
  have hx : n.input id 0 = .ok x := input_eq id (by rw [hi]; rfl)
  have hy : n.input id 1 = .ok y := input_eq id (by rw [hi]; rfl)
  unfold reduceBinary
  simp only [hx, hy, bind, Except.bind]
  split
  · rename_i a b ha hb
    split
    · exact .changed _ (.folded hk hi ha hb ‹_›)
    · exact .same _
  · rename_i hnot
    split
    · rename_i hcomm
      rw [Bool.and_eq_true, Option.isSome_iff_exists] at hcomm
      obtain ⟨hc, a, ha⟩ := hcomm
      refine .changed _ (.swapped hk hc hi ha (Option.eq_none_iff_forall_ne_some.2 fun b hb => ?_))
      exact hnot a b ha hb
    · split
      · exact .changed _ (.operand hk hi ‹_›)
      · exact .changed _ (.value hk hi ‹_›)
      · exact .same _

theorem reduceUnary_gives {op : UnaryOp} (hg : g.Orderly) (hn : g.node? id = some n)
    (hk : n.kind = .unary op) (hd : hasDeadEdge g n = false) :
    Gives (Reduced g id n) (reduceUnary g id op n) := by
  obtain ⟨x, hi⟩ := inputs_of_unary (hg.skeleton.arity id n hn) hk
  have hx : n.input id 0 = .ok x := input_eq id (by rw [hi]; rfl)
  obtain ⟨inner, hinner⟩ := exists_of_hasDeadEdge hd (show x ∈ n.edges by simp [Node.edges, hi])
  have hat : g.nodeAt x = .ok inner := by simp [nodeAt, hinner]
  unfold reduceUnary
  simp only [hx, hat, bind, Except.bind]
  split
  · split
    · exact .changed _ (.foldedUnary hk hi ‹_› ‹_›)
    · exact .same _
  · split
    · rename_i hk'
      obtain ⟨y, hi'⟩ := inputs_of_unary (hg.skeleton.arity x inner hinner) hk'
      simp only [input_eq x (show inner.inputs[0]? = some y by rw [hi']; rfl)]
      exact .changed _ (.undone hk hi hinner hk' hi')
    · exact .same _

/-! ## Phis and merges -/

theorem reducePhi_gives (hk : n.kind = .phi) : Gives (Reduced g id n) (reducePhi g id n) := by
  unfold reducePhi
  split
  · exact .same _
  · rename_i first rest hfilter
    split
    · rename_i hall
      have hmem : first ∈ n.inputs.filter (· ≠ id) := hfilter ▸ List.mem_cons_self
      obtain ⟨h1, h2⟩ := List.mem_filter.1 hmem
      refine .changed _ (.phi hk h1 (by simpa using h2) fun y hy => ?_)
      by_cases hyi : y = id
      · exact .inl hyi
      · have hmem : y ∈ n.inputs.filter (· ≠ id) := List.mem_filter.2 ⟨hy, by simpa using hyi⟩
        rw [hfilter] at hmem
        rcases List.mem_cons.1 hmem with h | h
        · exact .inr h
        · exact .inr (by simpa using List.all_eq_true.1 hall y h)
    · exact .same _

theorem mem_phisOf_replaceValue : x ∈ (g.replaceValue id y).phisOf m ↔ x ≠ id ∧ x ∈ g.phisOf m := by
  simp only [mem_phisOf, node?_replaceValue_eq_some]
  constructor
  · rintro ⟨-, ⟨hx, n₀, h₀, rfl⟩, h⟩
    exact ⟨hx, n₀, h₀, h⟩
  · rintro ⟨hx, n₀, h₀, h⟩
    exact ⟨_, ⟨hx, n₀, h₀, rfl⟩, h⟩

/-- Phis with one input each can be replaced one after the other. -/
theorem exists_collapse (phis : List NodeId) : ∀ g : Graph, phis.Nodup →
    (∀ phi ∈ phis, ∃ n x, g.node? phi = some n ∧ n.kind = .phi ∧ n.inputs = [x]) →
    ∃ g', phis.foldlM (fun g phi => do
        let input ← (← g.nodeAt phi).input phi 0
        return g.replaceValue phi input) g = (.ok g' : Except Fault Graph) ∧
          Collapse phis g g' := by
  induction phis with
  | nil => exact fun g _ _ => ⟨g, rfl, .nil⟩
  | cons phi phis ih =>
    intro g hnd hphis
    rw [List.nodup_cons] at hnd
    obtain ⟨n, x, hn, hk, hi⟩ := hphis phi List.mem_cons_self
    obtain ⟨g', h1, h2⟩ := ih (g.replaceValue phi x) hnd.2 fun z hz => by
      obtain ⟨nz, u, hnz, hkz, hiz⟩ := hphis z (List.mem_cons_of_mem _ hz)
      have hne : z ≠ phi := fun he => hnd.1 (he ▸ hz)
      exact ⟨_, redirect phi x u, node?_redirected x hne hnz, hkz, by simp [Node.redirected, hiz]⟩
    refine ⟨g', ?_, .cons hn hk hi h2⟩
    rw [List.foldlM_cons]
    simp only [nodeAt, hn, input_eq phi (show n.inputs[0]? = some x by rw [hi]; rfl), bind,
      Except.bind]
    exact h1

theorem Collapse.mem_phisOf {phis : List NodeId} (h : Collapse phis g g') :
    x ∈ g'.phisOf m ↔ x ∉ phis ∧ x ∈ g.phisOf m := by
  induction h with
  | nil => simp
  | cons _ _ _ _ ih =>
    rw [ih, mem_phisOf_replaceValue, List.mem_cons, not_or, and_assoc, and_left_comm]

/-- When all phis of a merge are replaced there is none left. -/
theorem Collapse.phisOf_eq_nil (h : Collapse (g.phisOf m) g g') : g'.phisOf m = [] :=
  List.eq_nil_iff_forall_not_mem.2 fun _ hx => (h.mem_phisOf.1 hx).1 (h.mem_phisOf.1 hx).2

/-- A merge stays as it is when its phis are replaced. -/
theorem Collapse.node {phis : List NodeId} {nm : Node} (h : Collapse phis g g')
    (hm : g.node? m = some nm) (hk : nm.kind ≠ .phi) :
    ∃ nm', g'.node? m = some nm' ∧ nm'.kind = nm.kind ∧ nm'.control = nm.control := by
  induction h generalizing nm with
  | nil => exact ⟨nm, hm, rfl, rfl⟩
  | @cons phi phis g g' n x hn hkp _ _ ih =>
    have hne : m ≠ phi := by
      rintro rfl
      exact hk (Option.some.inj (hm.symm.trans hn) ▸ hkp)
    have hm' : (g.replaceValue phi x).node? m = some (nm.redirected phi x) :=
      node?_redirected x hne hm
    obtain ⟨nm', hn', hkind, hc⟩ := ih hm' hk
    exact ⟨nm', hn', hkind, hc⟩

/-- A phi of a merge that joins nothing has one input. -/
theorem exists_input_of_phi {nm : Node} (hg : g.Orderly) (hm : g.node? m = some nm)
    (hc : nm.control = [p]) (hx : id ∈ g.phisOf m) :
    ∃ n x, g.node? id = some n ∧ n.kind = .phi ∧ n.inputs = [x] := by
  obtain ⟨n, hn, hk, hh⟩ := mem_phisOf.1 hx
  obtain ⟨m', hm', hrest⟩ := hg.skeleton.phis id n hn hk
  obtain rfl : m' = m := by simpa [hm'] using hh
  obtain ⟨hmerge, hlen⟩ := hrest nm hm
  have hlen := hlen (hg.trim m' nm hm (NodeKind.isFixed_of_isMerge hmerge))
  rw [hc] at hlen
  obtain ⟨x, hi⟩ := List.length_eq_one_iff.1 hlen
  exact ⟨n, x, hn, hk, hi⟩

theorem reduceMerge_gives (hg : g.Orderly) (hn : g.node? id = some n) (hk : n.kind.isMerge) :
    Gives (Reduced g id n) (reduceMerge g id n) := by
  unfold reduceMerge
  split
  · rename_i p hc
    obtain ⟨g', h1, h2⟩ :=
      exists_collapse (g.phisOf id) g (g.phisOf_nodup id) fun phi => exists_input_of_phi hg hn hc
    rw [h1]
    exact .changed _ (spliced_self g' p id ▸ .merge hk hc h2)
  · exact .same _

/-! ## Branches -/

theorem reduceBranch_gives (ha : n.Arity) (hk : n.kind = .branch) :
    Gives (Reduced g id n) (reduceBranch g id n) := by
  simp only [Node.Arity, hk] at ha
  obtain ⟨x, hi⟩ := List.length_eq_one_iff.1 ha.1
  obtain ⟨p, hc⟩ := List.length_eq_one_iff.1 ha.2
  unfold reduceBranch
  simp only [input_eq id (show n.inputs[0]? = some x by rw [hi]; rfl), predecessor_eq id hc, bind,
    Except.bind]
  split
  · split
    · exact .changed _ (.branch hk hi hc ‹_› ‹_›)
    · exact .same _
  · exact .same _

/-! ## Guards -/

theorem searchEnds_of_makes (id : NodeId) {check : GuardCheck} (h : Makes n check x) :
    searchEnds check x id n = .ok (some true) := by
  obtain ⟨reason, hk, hi⟩ := h
  simp only [searchEnds, hk, if_pos, input_eq id hi, bind, Except.bind]
  rfl

theorem searchEnds_of_stops (check : GuardCheck) (x id : NodeId)
    (h : n.kind = .start ∨ n.kind.isMerge) :
    searchEnds check x id n = .ok (some false) := by
  unfold searchEnds
  cases hk : n.kind <;> simp_all [NodeKind.isMerge]

theorem searchEnds_of_passes {check : GuardCheck} (id : NodeId) (ha : n.Arity)
    (h : ¬ Makes n check x) (hs : n.kind ≠ .start) (hm : n.kind.isMerge = false) :
    searchEnds check x id n = .ok none := by
  cases hk : n.kind with
  | guard other reason =>
    simp only [searchEnds, hk]
    split
    · rename_i he
      simp only [Node.Arity, hk] at ha
      obtain ⟨y, hi⟩ := List.length_eq_one_iff.1 ha.1
      have hy : n.inputs[0]? = some y := by rw [hi]; rfl
      simp only [input_eq id hy, bind, Except.bind]
      rw [if_neg]
      · rfl
      · rintro rfl
        exact h ⟨reason, he ▸ hk, hy⟩
    · rfl
  | start => exact absurd hk hs
  | merge | loopBegin =>
    rw [hk] at hm
    cases hm
  | _ => simp only [searchEnds, hk]

/-- The search for the same guard follows any way of control back, and ends. -/
theorem walks_of_way {π : List NodeId} (check : GuardCheck) (x : NodeId) (hsk : g.Skeleton)
    (hπ : g.Way m π) :
    ∃ b, Walks g check x m b ∧
      ∀ fuel, π.length < fuel → sameGuardAbove g check x fuel m = .ok b := by
  induction hπ with
  | start =>
    obtain ⟨n, hn, hk⟩ := kind?_eq_some.1 hsk.start
    refine ⟨false, .stopped hn (.inl hk), fun fuel hfuel => ?_⟩
    obtain ⟨fuel, rfl⟩ := Nat.exists_eq_succ_of_ne_zero (by omega : fuel ≠ 0)
    simp only [sameGuardAbove, hn, searchEnds_of_stops check x _ (.inl hk)]
  | @step q π m _ hfo ih =>
    obtain ⟨n, hn, hk, hmem⟩ := id hfo
    by_cases hmakes : Makes n check x
    · refine ⟨true, .found hn hmakes, fun fuel hfuel => ?_⟩
      obtain ⟨fuel, rfl⟩ := Nat.exists_eq_succ_of_ne_zero (by omega : fuel ≠ 0)
      simp only [sameGuardAbove, hn, searchEnds_of_makes m hmakes]
    by_cases hmerge : n.kind.isMerge
    · refine ⟨false, .stopped hn (.inr hmerge), fun fuel hfuel => ?_⟩
      obtain ⟨fuel, rfl⟩ := Nat.exists_eq_succ_of_ne_zero (by omega : fuel ≠ 0)
      simp only [sameGuardAbove, hn, searchEnds_of_stops check x _ (.inr hmerge)]
    rw [Bool.not_eq_true] at hmerge
    have hstart : n.kind ≠ .start := fun h => hsk.ne_start_of_follows hfo (hsk.only m n hn h)
    obtain ⟨q', hc⟩ : ∃ q', n.control.head? = some q' := by
      cases hcontrol : n.control with
      | nil => simp [hcontrol] at hmem
      | cons q' _ => exact ⟨q', rfl⟩
    obtain rfl := hsk.eq_of_follows hn hmerge ⟨n, hn, hk, List.mem_of_mem_head? hc⟩ hfo
    obtain ⟨b, hb, hsearch⟩ := ih
    refine ⟨b, .up hn hmakes hstart hmerge hc hb, fun fuel hfuel => ?_⟩
    obtain ⟨fuel, rfl⟩ := Nat.exists_eq_succ_of_ne_zero (by omega : fuel ≠ 0)
    simp only [sameGuardAbove, hn,
      searchEnds_of_passes m (hsk.arity m n hn) hmakes hstart hmerge, hc]
    exact hsearch fuel (by simpa using hfuel)

/-- Where control gets, the search ends: the way back is shorter than the
arena. -/
theorem walks_of_reached (check : GuardCheck) (x : NodeId) (hsk : g.Skeleton) (hr : g.Reached m) :
    ∃ b, Walks g check x m b ∧ sameGuardAbove g check x (g.nodes.size + 1) m = .ok b := by
  obtain ⟨π, hπ, hnd⟩ := hr.simple
  obtain ⟨b, hb, hsearch⟩ := walks_of_way check x hsk hπ
  refine ⟨b, hb, hsearch _ ?_⟩
  have hsub : (m :: π) ⊆ List.range g.nodes.size := fun k hk => by
    obtain ⟨nk, hnk, -⟩ := (hπ.reached_of_mem hk).exists_node hsk
    exact List.mem_range.2 (lt_size_of_node? hnk)
  have := (List.subperm_of_subset hnd hsub).length_le
  simp only [List.length_cons, List.length_range] at this
  omega

/-- A search that succeeds has come to a guard that control came by. -/
theorem Walks.checked {check : GuardCheck} {b : Bool} (h : Walks g check x m b) (hsk : g.Skeleton)
    (hr : g.Reached m) (hb : b = true) : g.Checked check x m := by
  induction h with
  | found hn hmakes =>
    obtain ⟨reason, hk, hi⟩ := hmakes
    exact .here hn hk hi
  | stopped => cases hb
  | blind => cases hb
  | @up m n q b hn hmakes hstart hmerge hc _ ih =>
    obtain ⟨π, hπ⟩ := hr
    cases hπ with
    | start => exact absurd (kind?_of_node? hn hsk.start) hstart
    | @step q' π _ hq hfo =>
      obtain ⟨n', hn', hk, -⟩ := id hfo
      obtain rfl := Option.some.inj (hn.symm.trans hn')
      obtain rfl := hsk.eq_of_follows hn hmerge ⟨n, hn, hk, List.mem_of_mem_head? hc⟩ hfo
      exact .behind hn hk hmerge (List.mem_of_mem_head? hc) (ih ⟨π, hq⟩ hb)

theorem reduceGuard_gives {check : GuardCheck} {reason : DeoptReason} (hg : g.Orderly)
    (hn : g.node? id = some n) (hk : n.kind = .guard check reason) :
    Gives (Reduced g id n) (reduceGuard g id check n) := by
  have ha := hg.skeleton.arity id n hn
  simp only [Node.Arity, hk] at ha
  obtain ⟨x, hi⟩ := List.length_eq_one_iff.1 ha.1
  obtain ⟨p, hc⟩ := List.length_eq_one_iff.1 ha.2
  have hunlink : (g.unlinkFixed id).1 = g.spliced p id id := by
    rw [spliced_self, unlinkFixed, hn]
    simp [hc]
  have hr : g.Reached p := hg.reached_control hn (by rw [hk]; rfl) (by simp [hc])
  obtain ⟨b, hwalks, hb⟩ := walks_of_reached check x hg.skeleton hr
  unfold reduceGuard
  simp only [input_eq id (show n.inputs[0]? = some x by rw [hi]; rfl), predecessor_eq id hc, hb,
    hunlink, bind, Except.bind, pure, Except.pure]
  by_cases hknown : knownToHold g check x
  · simp only [hknown, if_true]
    exact .changed _ (.guard hk hi hc (.inl hknown))
  · simp only [hknown]
    cases b with
    | true => exact .changed _ (.guard hk hi hc (.inr (hwalks.checked hg.skeleton hr rfl)))
    | false => exact .same _

/-! ## Any node -/

theorem Gives.mono {s : Step} (h : Gives P s) (hPQ : ∀ g', P g' → Q g') : Gives Q s := by
  obtain ⟨r, hr, hP⟩ := h
  exact ⟨r, hr, fun kind g' he => hPQ g' (hP kind g' he)⟩

/-- No reduction fails where control gets everywhere, and all that it can do
is listed. -/
theorem reduceNode_gives (hg : g.Orderly) (id : NodeId) :
    Gives (fun g' => ∃ n, g.node? id = some n ∧ Reduced g id n g') (reduceNode g id) := by
  unfold reduceNode
  split
  · exact .same _
  · rename_i n hn
    refine Gives.mono (P := Reduced g id n) ?_ fun g' h => ⟨n, hn, h⟩
    have ha := hg.skeleton.arity id n hn
    split
    · exact .same _
    · rename_i hd
      rw [Bool.not_eq_true] at hd
      split
      · exact reduceBinary_gives ha ‹_›
      · exact reduceUnary_gives hg hn ‹_› hd
      · exact reducePhi_gives ‹_›
      · exact reduceMerge_gives hg hn (by rw [‹n.kind = _›]; rfl)
      · exact reduceMerge_gives hg hn (by rw [‹n.kind = _›]; rfl)
      · exact reduceBranch_gives ha ‹_›
      · exact reduceGuard_gives hg hn ‹_›
      · exact .same _

end Optimize

end TieredEngine

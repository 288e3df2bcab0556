import TieredEngine.Proofs.Graph.Wellformed
/-!
# Appending nodes

A graph that only gets new nodes keeps what was available behind a node
(`Kept`). A node whose edges fit where it is appended (`Fitting`) leaves the
graph wired and trim, and the open ends of control change in one of three
ways: not at all for a floating node, to the node itself for a fixed one
behind some of them, to the two sides for a branch.
-/

namespace TieredEngine

namespace Graph

/-! ## Nodes that stay -/

/-- The nodes that were there are the same. -/
structure Extends (g g' : Graph) : Prop where
  size : g.nodes.size ≤ g'.nodes.size
  same : ∀ id, id < g.nodes.size → g'.node? id = g.node? id

/-- The nodes that were there are the same, and the merges have the same
phis. -/
structure Grown (g g' : Graph) : Prop extends Extends g g' where
  apart : ∀ id n, g.nodes.size ≤ id → g'.node? id = some n → n.kind = .phi →
    ∀ m ∈ n.control, g.nodes.size ≤ m

/-- Whatever could be said about a place can still be said. -/
structure Kept (g g' : Graph) : Prop where
  size : g.nodes.size ≤ g'.nodes.size
  kind : ∀ id k, g.kind? id = some k → g'.kind? id = some k
  dominates : ∀ d k, k < g.nodes.size → g.Dominates d k → g'.Dominates d k
  available : ∀ q x, q < g.nodes.size → g.Available q x → g'.Available q x
  stateAvailable : ∀ q s, q < g.nodes.size → g.StateAvailable q s → g'.StateAvailable q s

variable {g g' g'' : Graph} {n : Node} {d m q k x : NodeId} {π : List NodeId}

theorem Extends.refl (g : Graph) : g.Extends g := ⟨Nat.le_refl _, fun _ _ => rfl⟩

theorem Extends.trans (h : g.Extends g') (h' : g'.Extends g'') : g.Extends g'' where
  size := h.size.trans h'.size
  same id hid := by rw [h'.same id (hid.trans_le h.size), h.same id hid]

theorem Extends.node (h : g.Extends g') (hn : g.node? m = some n) : g'.node? m = some n := by
  rw [h.same m (lt_size_of_node? hn), hn]

theorem Extends.add (g : Graph) (n : Node) : g.Extends (g.add n).1 where
  size := by simp
  same id hid := by rw [node?_add, if_neg (Nat.ne_of_lt hid)]

theorem Grown.refl (g : Graph) : g.Grown g where
  toExtends := .refl g
  apart _ _ hid hn := absurd (lt_size_of_node? hn) (Nat.not_lt.2 hid)

theorem Grown.trans (h : g.Grown g') (h' : g'.Grown g'') : g.Grown g'' where
  toExtends := h.toExtends.trans h'.toExtends
  apart id n hid hn hk m hm := by
    by_cases hlt : id < g'.nodes.size
    · rw [h'.same id hlt] at hn
      exact h.apart id n hid hn hk m hm
    · exact h.size.trans (h'.apart id n (Nat.not_lt.1 hlt) hn hk m hm)

/-- One more node, which may be a phi of a new merge. -/
theorem Grown.push (h : g.Grown g') (hp : n.kind = .phi → ∀ m ∈ n.control, g.nodes.size ≤ m) :
    g.Grown (g'.add n).1 where
  toExtends := h.toExtends.trans (.add g' n)
  apart id n' hid hn hk m hm := by
    rw [node?_add] at hn
    split at hn
    · cases hn
      exact hp hk m hm
    · exact h.apart id n' hid hn hk m hm

theorem Extends.follows (h : g.Extends g') (hf : g.Follows q m) : g'.Follows q m := by
  obtain ⟨n, hn, hk, hq⟩ := hf
  exact ⟨n, h.node hn, hk, hq⟩

/-- The ways to the nodes that were there are the same. -/
theorem Extends.way (hb : ∀ m n x, g.node? m = some n → x ∈ n.edges → x < g.nodes.size)
    (h : g.Extends g') (hk : k < g.nodes.size) (hw : g'.Way k π) : g.Way k π := by
  induction hw with
  | start => exact .start
  | @step q π m _ hf ih =>
    obtain ⟨n, hn, hfix, hq⟩ := hf
    rw [h.same m hk] at hn
    exact .step (ih (hb m n q hn (by simp [Node.edges, hq]))) ⟨n, hn, hfix, hq⟩

theorem Extends.owns (h : g.Extends g') (ho : Owns g d x) : Owns g' d x := by
  rcases ho with ho | ⟨rfl, ho⟩
  · obtain ⟨n, hn, hk, hc⟩ := mem_phisOf.1 ho
    exact .inl (mem_phisOf.2 ⟨n, h.node hn, hk, hc⟩)
  · refine .inr ⟨rfl, ?_⟩
    cases hk : g.node? x with
    | none => simp [kind?, hk] at ho
    | some n => simpa [kind?, hk, h.node hk] using ho

theorem Extends.kept (hb : ∀ m n x, g.node? m = some n → x ∈ n.edges → x < g.nodes.size)
    (h : g.Extends g') : g.Kept g' := by
  have hdom : ∀ d k, k < g.nodes.size → g.Dominates d k → g'.Dominates d k :=
    fun d k hk hd π hπ => hd π (h.way hb hk hπ)
  refine ⟨h.size, fun id k hk => ?_, hdom, fun q x hq hx => ?_, fun q s hq hs => ?_⟩
  · obtain ⟨n, hn, rfl⟩ := kind?_eq_some.1 hk
    exact kind?_eq_some.2 ⟨n, h.node hn, rfl⟩
  · exact hx.transfer (fun y n hn _ _ => ⟨n, h.node hn, rfl, rfl⟩) fun d y ho hd =>
      ⟨h.owns ho, hdom d q hq hd⟩
  · exact hs.transfer (fun y n hn _ _ => ⟨n, h.node hn, rfl, rfl, rfl⟩) fun d y ho hd =>
      ⟨h.owns ho, hdom d q hq hd⟩

theorem Kept.refl (g : Graph) : g.Kept g :=
  ⟨Nat.le_refl _, fun _ _ h => h, fun _ _ _ h => h, fun _ _ _ h => h, fun _ _ _ h => h⟩

theorem Kept.trans (h : g.Kept g') (h' : g'.Kept g'') : g.Kept g'' where
  size := h.size.trans h'.size
  kind id k hk := h'.kind id k (h.kind id k hk)
  dominates d k hk hd := h'.dominates d k (hk.trans_le h.size) (h.dominates d k hk hd)
  available q x hq hx := h'.available q x (hq.trans_le h.size) (h.available q x hq hx)
  stateAvailable q s hq hs :=
    h'.stateAvailable q s (hq.trans_le h.size) (h.stateAvailable q s hq hs)

/-! ## One more node -/

theorem node?_add_new (g : Graph) (n : Node) : (g.add n).1.node? g.nodes.size = some n := by
  rw [node?_add, if_pos rfl]

/-- The node may be appended. -/
structure Fitting (g : Graph) (n : Node) : Prop where
  notStart : n.kind ≠ .start
  counted : n.Counted
  below : ∀ x ∈ n.edges, x < g.nodes.size
  distinct : n.kind.isFixed → n.control.Nodup
  behind : n.kind.isFixed → ∀ q ∈ n.control, ∃ k, g.kind? q = some k ∧ k.isFixed ∧
    (n.kind.isSide → k = .branch)
  inputs : n.kind.isFixed → ∀ q ∈ n.control, ∀ x ∈ n.inputs, g.Available q x
  states : n.kind.isFixed → ∀ q ∈ n.control, ∀ s, n.state = some s → g.StateAvailable q s
  phi : n.kind = .phi → ∃ m nm, n.control = [m] ∧ g.node? m = some nm ∧ nm.kind.isMerge ∧
    n.inputs.length = nm.control.length ∧
      ∀ (i : ℕ) q y, nm.control[i]? = some q → n.inputs[i]? = some y → g.Available q y

theorem Counted.exists_control (hc : n.Counted) (hf : n.kind.isFixed) (hs : n.kind ≠ .start) :
    ∃ q, q ∈ n.control :=
  hc.arity.exists_control hf hs

/-- Who follows whom when a fixed node is appended. -/
theorem follows_add (hf : n.kind.isFixed) :
    (g.add n).1.Follows q m ↔ g.Follows q m ∨ (m = g.nodes.size ∧ q ∈ n.control) := by
  constructor
  · rintro ⟨n', hn, hk, hq⟩
    rw [node?_add] at hn
    split at hn
    · cases hn
      exact .inr ⟨‹_›, hq⟩
    · exact .inl ⟨n', hn, hk, hq⟩
  · rintro (h | ⟨rfl, hq⟩)
    · exact (Extends.add g n).follows h
    · exact ⟨n, node?_add_new g n, hf, hq⟩

theorem follows_add_floating (hf : n.kind.isFixed = false) :
    (g.add n).1.Follows q m ↔ g.Follows q m := by
  refine ⟨fun ⟨n', hn, hk, hq⟩ => ?_, (Extends.add g n).follows⟩
  rw [node?_add] at hn
  split at hn
  · cases hn
    rw [hf] at hk
    cases hk
  · exact ⟨n', hn, hk, hq⟩

theorem Trim.add (h : g.Trim) (hn : g.Fitting n) : (g.add n).1.Trim := by
  have hold : ∀ m, g.Reached m → (g.add n).1.Reached m := fun m ⟨π, hπ⟩ =>
    ⟨π, hπ.mono fun _ _ => (Extends.add g n).follows⟩
  intro m n' hm hf
  rw [node?_add] at hm
  split at hm
  · cases hm
    obtain ⟨q, hq⟩ := Counted.exists_control hn.counted hf hn.notStart
    obtain ⟨k, hk, hfix, -⟩ := hn.behind hf q hq
    obtain ⟨nq, hnq, rfl⟩ := kind?_eq_some.1 hk
    refine (hold q (h q nq hnq hfix)).step ⟨n, ?_, hf, hq⟩
    rw [‹m = _›]
    exact node?_add_new g n
  · exact hold m (h m n' hm hf)

theorem Wired.add (h : g.Wired) (ht : g.Trim) (hn : g.Fitting n) : (g.add n).1.Wired := by
  have hkept : g.Kept (g.add n).1 := (Extends.add g n).kept h.below
  have hcases : ∀ {m n'}, (g.add n).1.node? m = some n' → (m = g.nodes.size ∧ n' = n) ∨
      g.node? m = some n' := by
    intro m n' hm
    rw [node?_add] at hm
    split at hm
    · exact .inl ⟨‹_›, (Option.some.inj hm).symm⟩
    · exact .inr hm
  have hlt : ∀ {m n' q}, g.node? m = some n' → q ∈ n'.control → q < g.nodes.size := fun hm hq =>
    h.below _ _ _ hm (by simp [Node.edges, hq])
  have hlt' : ∀ {q}, q ∈ n.control → q < g.nodes.size :=
    fun hq => hn.below _ (by simp [Node.edges, hq])
  constructor
  case start => exact hkept.kind _ _ h.start
  case only =>
    intro m n' hm hk
    rcases hcases hm with ⟨-, rfl⟩ | hm
    · exact absurd hk hn.notStart
    · exact h.only m n' hm hk
  case below =>
    intro m n' x hm hx
    rw [size_add]
    rcases hcases hm with ⟨-, rfl⟩ | hm
    · exact (hn.below x hx).trans (Nat.lt_succ_self _)
    · exact (h.below m n' x hm hx).trans (Nat.lt_succ_self _)
  case counted =>
    intro m n' hm
    rcases hcases hm with ⟨-, rfl⟩ | hm
    · exact hn.counted
    · exact h.counted m n' hm
  case distinct =>
    intro m n' hm hf
    rcases hcases hm with ⟨-, rfl⟩ | hm
    · exact hn.distinct hf
    · exact h.distinct m n' hm hf
  case behind =>
    intro m n' q hm hf _ hq
    have hk : ∃ k, g.kind? q = some k ∧ k.isFixed ∧ (n'.kind.isSide → k = .branch) := by
      rcases hcases hm with ⟨-, rfl⟩ | hm
      · exact hn.behind hf q hq
      · exact h.behind m n' q hm hf (ht m n' hm hf) hq
    obtain ⟨k, hk, hrest⟩ := hk
    exact ⟨k, hkept.kind q k hk, hrest⟩
  case inputs =>
    intro m n' q x hm hf _ hq hx
    rcases hcases hm with ⟨-, rfl⟩ | hm
    · exact hkept.available q x (hlt' hq) (hn.inputs hf q hq x hx)
    · exact hkept.available q x (hlt hm hq) (h.inputs m n' q x hm hf (ht m n' hm hf) hq hx)
  case states =>
    intro m n' q s hm hf _ hq hs
    rcases hcases hm with ⟨-, rfl⟩ | hm
    · exact hkept.stateAvailable q s (hlt' hq) (hn.states hf q hq s hs)
    · exact hkept.stateAvailable q s (hlt hm hq) (h.states m n' q s hm hf (ht m n' hm hf) hq hs)
  case phis =>
    intro x n' hx hk
    rcases hcases hx with ⟨-, rfl⟩ | hx
    · obtain ⟨m, nm, hc, hnm, hmerge, hlen, havail⟩ := hn.phi hk
      refine ⟨m, hc, fun nm' hnm' => ?_⟩
      obtain rfl := Option.some.inj (((Extends.add g n').node hnm).symm.trans hnm')
      refine ⟨hmerge, fun _ => ⟨hlen, fun i q y hq hy => ?_⟩⟩
      exact hkept.available q y (hlt hnm (List.mem_of_getElem? hq)) (havail i q y hq hy)
    · obtain ⟨m, hc, hrest⟩ := h.phis x n' hx hk
      refine ⟨m, hc, fun nm hnm => ?_⟩
      have hm : m < g.nodes.size := h.below x n' m hx (by simp [Node.edges, hc])
      rw [(Extends.add g n).same m hm] at hnm
      obtain ⟨hmerge, hrest⟩ := hrest nm hnm
      obtain ⟨hlen, havail⟩ := hrest (ht m nm hnm (NodeKind.isFixed_of_isMerge hmerge))
      refine ⟨hmerge, fun _ => ⟨hlen, fun i q y hq hy => ?_⟩⟩
      exact hkept.available q y (hlt hnm (List.mem_of_getElem? hq)) (havail i q y hq hy)

/-! ## Open ends -/

theorem OpenAt.perm {A B : List NodeId} (h : g.OpenAt A) (hp : A.Perm B) : g.OpenAt B where
  nodup := hp.nodup_iff.1 h.nodup
  free q hq := h.free q (hp.mem_iff.2 hq)
  goesOn m n hn hf hr hm := h.goesOn m n hn hf hr fun hm' => hm (hp.mem_iff.1 hm')

/-- A floating node leaves the ends as they are. -/
theorem OpenAt.float {A : List NodeId} (h : g.OpenAt A) (ht : g.Trim)
    (hf : n.kind.isFixed = false) :
    (g.add n).1.OpenAt A := by
  have hkind : ∀ s k, g.kind? s = some k → (g.add n).1.kind? s = some k := fun s k hk => by
    obtain ⟨n', hn, rfl⟩ := kind?_eq_some.1 hk
    exact kind?_eq_some.2 ⟨n', (Extends.add g n).node hn, rfl⟩
  refine ⟨h.nodup, fun q hq => ?_, fun m n' hm hfix _ hmem => ?_⟩
  · obtain ⟨k, hk, hopen, hfree⟩ := h.free q hq
    exact ⟨k, hkind q k hk, hopen, fun s hs => hfree s ((follows_add_floating hf).1 hs)⟩
  · rw [node?_add] at hm
    split at hm
    · cases hm
      rw [hf] at hfix
      cases hfix
    · exact (h.goesOn m n' hm hfix (ht m n' hm hfix) hmem).congr (fun s => follows_add_floating hf)
        fun s k _ hk => hkind s k hk

/-- A fixed node behind some of the ends takes their place, unless control
ends there. -/
theorem OpenAt.behind {C : List NodeId} (h : g.OpenAt (n.control ++ C)) (hw : g.Wired) (ht : g.Trim)
    (hn : g.Fitting n) (hf : n.kind.isFixed) (hb : n.kind ≠ .branch) :
    (g.add n).1.OpenAt (if n.kind.isTerminal then C else g.nodes.size :: C) := by
  have hkind : ∀ s k, g.kind? s = some k → (g.add n).1.kind? s = some k := fun s k hk => by
    obtain ⟨n', hn, rfl⟩ := kind?_eq_some.1 hk
    exact kind?_eq_some.2 ⟨n', (Extends.add g n).node hn, rfl⟩
  have hold : ∀ q ∈ n.control ++ C, q < g.nodes.size := fun q hq => by
    obtain ⟨k, hk, -⟩ := h.free q hq
    obtain ⟨n', hn, -⟩ := kind?_eq_some.1 hk
    exact lt_size_of_node? hn
  obtain ⟨-, hC, hdis⟩ := List.nodup_append.1 h.nodup
  have hlast : ∀ s, ¬ (g.add n).1.Follows g.nodes.size s := by
    intro s hs
    rcases (follows_add hf).1 hs with ⟨n', hn', -, hq⟩ | ⟨-, hq⟩
    · exact absurd (hw.below _ _ _ hn' (by simp [Node.edges, hq])) (Nat.lt_irrefl _)
    · exact absurd (hn.below _ (by simp [Node.edges, hq])) (Nat.lt_irrefl _)
  have hfree : ∀ q ∈ C, ∃ k, (g.add n).1.kind? q = some k ∧ k.isOpen ∧
      ∀ s, ¬ (g.add n).1.Follows q s := by
    intro q hq
    obtain ⟨k, hk, hopen, hnone⟩ := h.free q (List.mem_append_right _ hq)
    refine ⟨k, hkind q k hk, hopen, fun s hs => ?_⟩
    rcases (follows_add hf).1 hs with hs | ⟨-, hs⟩
    · exact hnone s hs
    · exact hdis q hs q hq rfl
  have hgoes : ∀ m n', g.node? m = some n' → n'.kind.isFixed → m ∉ C →
      (g.add n).1.GoesOn m n'.kind := by
    intro m n' hm hfix hmem
    by_cases hq : m ∈ n.control
    · obtain ⟨k, hk, hopen, hnone⟩ := h.free m (List.mem_append_left _ hq)
      obtain rfl : n'.kind = k := by simpa [kind?, hm] using hk
      refine .of_isOpen (s := g.nodes.size) hopen fun s => ⟨fun hs => ?_, fun hs => ?_⟩
      · rcases (follows_add hf).1 hs with hs | ⟨hs, -⟩
        · exact absurd hs (hnone s)
        · exact hs
      · exact (follows_add hf).2 (.inr ⟨hs, hq⟩)
    · refine (h.goesOn m n' hm hfix (ht m n' hm hfix) (by simp [hq, hmem])).congr (fun s => ?_)
        fun s k _ hk => hkind s k hk
      exact (follows_add hf).trans (or_iff_left fun hs => hq hs.2)
  have hnew : ∀ m n', (g.add n).1.node? m = some n' → (m = g.nodes.size ∧ n' = n) ∨
      g.node? m = some n' := by
    intro m n' hm
    rw [node?_add] at hm
    split at hm
    · exact .inl ⟨‹_›, (Option.some.inj hm).symm⟩
    · exact .inr hm
  split
  · rename_i hterm
    refine ⟨hC, hfree, fun m n' hm hfix _ hmem => ?_⟩
    rcases hnew m n' hm with ⟨rfl, rfl⟩ | hm
    · exact .of_isTerminal hterm hlast
    · exact hgoes m n' hm hfix hmem
  · rename_i hterm
    refine ⟨List.nodup_cons.2 ⟨fun hmem => ?_, hC⟩, fun q hq => ?_, fun m n' hm hfix _ hmem => ?_⟩
    · exact absurd (hold _ (List.mem_append_right _ hmem)) (Nat.lt_irrefl _)
    · rcases List.mem_cons.1 hq with rfl | hq
      · exact ⟨n.kind, kind?_eq_some.2
          ⟨n, node?_add_new g n, rfl⟩, by simp [NodeKind.isOpen, hf, hterm, hb], hlast⟩
      · exact hfree q hq
    · rw [List.mem_cons, not_or] at hmem
      rcases hnew m n' hm with ⟨rfl, -⟩ | hm
      · exact absurd rfl hmem.1
      · exact hgoes m n' hm hfix hmem.2

/-- An open end is a node of the graph. -/
theorem OpenAt.lt_of_mem {ends : List NodeId} (h : g.OpenAt ends) (hq : q ∈ ends) :
    q < g.nodes.size := by
  obtain ⟨k, hk, -⟩ := h.free q hq
  obtain ⟨n, hn, -⟩ := kind?_eq_some.1 hk
  exact lt_size_of_node? hn

/-! ## A branch with its two sides -/

/-- A branch on `c` is appended at the end `q`, and its two sides behind it. -/
structure Forked (g g' : Graph) (q c : NodeId) : Prop where
  size : g'.nodes.size = g.nodes.size + 3
  old : ∀ id < g.nodes.size, g'.node? id = g.node? id
  branch : g'.node? g.nodes.size = some { kind := .branch, inputs := [c], control := [q] }
  onTrue : g'.node? (g.nodes.size + 1) = some { kind := .onTrue, control := [g.nodes.size] }
  onFalse : g'.node? (g.nodes.size + 2) = some { kind := .onFalse, control := [g.nodes.size] }

theorem forked_add (g : Graph) (q c : NodeId) :
    g.Forked (((g.add { kind := .branch, inputs := [c], control := [q] }).1.add
      { kind := .onTrue, control := [g.nodes.size] }).1.add
        { kind := .onFalse, control := [g.nodes.size] }).1 q c where
  size := by simp only [size_add]
  old id hid := by
    simp only [node?_add, size_add]
    rw [if_neg (by grind), if_neg (by grind), if_neg (by grind)]
  branch := by
    simp only [node?_add, size_add]
    rw [if_neg (by grind), if_neg (by grind), if_pos trivial]
  onTrue := by
    simp only [node?_add, size_add]
    rw [if_neg (by grind), if_pos trivial]
  onFalse := by
    simp only [node?_add, size_add]
    rw [if_pos trivial]

/-- A node once a branch was appended. -/
inductive ForkNode (g : Graph) (q c : NodeId) : NodeId → Node → Prop
  | old {m : NodeId} {n : Node} : g.node? m = some n → ForkNode g q c m n
  | branch : ForkNode g q c g.nodes.size { kind := .branch, inputs := [c], control := [q] }
  | onTrue : ForkNode g q c (g.nodes.size + 1) { kind := .onTrue, control := [g.nodes.size] }
  | onFalse : ForkNode g q c (g.nodes.size + 2) { kind := .onFalse, control := [g.nodes.size] }

namespace Forked

variable {c p s : NodeId} {C : List NodeId} (hfork : g.Forked g' q c)

include hfork

theorem node (hm : g'.node? m = some n) : g.ForkNode q c m n := by
  have hlt := lt_size_of_node? hm
  rw [hfork.size] at hlt
  obtain hm' | rfl | rfl | rfl : m < g.nodes.size ∨ m = g.nodes.size ∨ m = g.nodes.size + 1 ∨
      m = g.nodes.size + 2 := by
    grind
  · exact .old (hfork.old m hm' ▸ hm)
  · cases hfork.branch.symm.trans hm
    exact .branch
  · cases hfork.onTrue.symm.trans hm
    exact .onTrue
  · cases hfork.onFalse.symm.trans hm
    exact .onFalse

theorem node_old (hm : g.node? m = some n) : g'.node? m = some n := by
  rw [hfork.old m (lt_size_of_node? hm), hm]

theorem kind (s : NodeId) (k : NodeKind) (hk : g.kind? s = some k) : g'.kind? s = some k := by
  obtain ⟨n, hn, rfl⟩ := kind?_eq_some.1 hk
  exact kind?_eq_some.2 ⟨n, hfork.node_old hn, rfl⟩

theorem follows : g'.Follows p s ↔ g.Follows p s ∨ (s = g.nodes.size ∧ p = q) ∨
    ((s = g.nodes.size + 1 ∨ s = g.nodes.size + 2) ∧ p = g.nodes.size) := by
  constructor
  · rintro ⟨n, hn, hf, hp⟩
    cases hfork.node hn with
    | old hn => exact .inl ⟨n, hn, hf, hp⟩
    | branch => exact .inr (.inl ⟨rfl, by simpa using hp⟩)
    | onTrue => exact .inr (.inr ⟨.inl rfl, by simpa using hp⟩)
    | onFalse => exact .inr (.inr ⟨.inr rfl, by simpa using hp⟩)
  · rintro (⟨n, hn, hf, hp⟩ | ⟨rfl, rfl⟩ | ⟨rfl | rfl, rfl⟩)
    · exact ⟨n, hfork.node_old hn, hf, hp⟩
    · exact ⟨_, hfork.branch, rfl, by simp⟩
    · exact ⟨_, hfork.onTrue, rfl, by simp⟩
    · exact ⟨_, hfork.onFalse, rfl, by simp⟩

variable (h : g.OpenAt (q :: C)) (hw : g.Wired)

include h

/-- The end goes on to the branch, and the other nodes go on as they did. -/
theorem goesOn_old (ht : g.Trim) (hm : g.node? m = some n) (hf : n.kind.isFixed) (hmem : m ∉ C) :
    g'.GoesOn m n.kind := by
  have hmB : m ≠ g.nodes.size := Nat.ne_of_lt (lt_size_of_node? hm)
  by_cases hmq : m = q
  · subst hmq
    obtain ⟨k, hk, hopen, hnone⟩ := h.free m List.mem_cons_self
    obtain rfl : n.kind = k := by simpa [kind?, hm] using hk
    refine .of_isOpen (s := g.nodes.size) hopen fun s => ?_
    rw [hfork.follows]
    constructor
    · rintro (hs | ⟨hs, -⟩ | ⟨-, hs⟩)
      · exact absurd hs (hnone s)
      · exact hs
      · exact absurd hs hmB
    · exact fun hs => .inr (.inl ⟨hs, rfl⟩)
  · refine (h.goesOn m n hm hf (ht m n hm hf) (by simp [hmq, hmem])).congr (fun s => ?_)
      fun s k _ => hfork.kind s k
    rw [hfork.follows]
    refine or_iff_left ?_
    rintro (⟨-, hs⟩ | ⟨-, hs⟩)
    · exact hmq hs
    · exact hmB hs

include hw

/-- What follows a node that is new is new too. -/
theorem follows_new (hp : g.nodes.size ≤ p) :
    g'.Follows p s ↔ (s = g.nodes.size + 1 ∨ s = g.nodes.size + 2) ∧ p = g.nodes.size := by
  rw [hfork.follows]
  constructor
  · rintro (⟨n, hn, -, hpn⟩ | ⟨-, rfl⟩ | hs)
    · exact absurd (hw.below _ n _ hn (by simp [Node.edges, hpn])) (Nat.not_lt.2 hp)
    · exact absurd (h.lt_of_mem List.mem_cons_self) (Nat.not_lt.2 hp)
    · exact hs
  · exact fun hs => .inr (.inr hs)

theorem free (hp : p ∈ (g.nodes.size + 1) :: (g.nodes.size + 2) :: C) :
    ∃ k, g'.kind? p = some k ∧ k.isOpen ∧ ∀ s, ¬ g'.Follows p s := by
  have hside : ∀ {p s}, g.nodes.size < p → ¬ g'.Follows p s := fun {p s} hlt hs =>
    absurd ((hfork.follows_new h hw (Nat.le_of_lt hlt)).1 hs).2 (Nat.ne_of_gt hlt)
  rcases List.mem_cons.1 hp with rfl | hp
  · exact ⟨.onTrue, kind?_eq_some.2 ⟨_, hfork.onTrue, rfl⟩, rfl, fun s => hside (by omega)⟩
  rcases List.mem_cons.1 hp with rfl | hpC
  · exact ⟨.onFalse, kind?_eq_some.2 ⟨_, hfork.onFalse, rfl⟩, rfl, fun s => hside (by omega)⟩
  obtain ⟨k, hk, hopen, hnone⟩ := h.free p (List.mem_cons_of_mem _ hpC)
  refine ⟨k, hfork.kind p k hk, hopen, fun s hs => ?_⟩
  rcases hfork.follows.1 hs with hs | ⟨-, rfl⟩ | ⟨-, rfl⟩
  · exact hnone s hs
  · exact (List.nodup_cons.1 h.nodup).1 hpC
  · exact Nat.lt_irrefl _ (h.lt_of_mem (List.mem_cons_of_mem _ hpC))

theorem goesOn_branch : g'.GoesOn g.nodes.size .branch :=
  ⟨_, _, kind?_eq_some.2 ⟨_, hfork.onTrue, rfl⟩, kind?_eq_some.2 ⟨_, hfork.onFalse, rfl⟩, fun _ =>
    (hfork.follows_new h hw (Nat.le_refl _)).trans (and_iff_left rfl)⟩

end Forked

/-- A branch behind an end leaves its two sides open. -/
theorem OpenAt.split {c : NodeId} {C : List NodeId} (h : g.OpenAt (q :: C)) (hw : g.Wired)
    (ht : g.Trim) (hfork : g.Forked g' q c) :
    g'.OpenAt ((g.nodes.size + 1) :: (g.nodes.size + 2) :: C) where
  nodup := by
    have hnew : ∀ i, g.nodes.size + i ∉ C := fun i hi =>
      absurd (h.lt_of_mem (List.mem_cons_of_mem _ hi)) (Nat.not_lt.2 (Nat.le_add_right _ _))
    refine List.nodup_cons.2 ⟨?_, List.nodup_cons.2 ⟨hnew 2, (List.nodup_cons.1 h.nodup).2⟩⟩
    simp [hnew 1]
  free p := hfork.free h hw
  goesOn m n hm hf _ hmem := by
    simp only [List.mem_cons, not_or] at hmem
    cases hfork.node hm with
    | old hm => exact hfork.goesOn_old h ht hm hf hmem.2.2
    | branch => exact hfork.goesOn_branch h hw
    | onTrue => exact absurd rfl hmem.1
    | onFalse => exact absurd rfl hmem.2.1

end Graph

end TieredEngine

import TieredEngine.Proofs.Optimize.Sweep
/-!
# Rewrites

Every pass of the optimizer is a chain of small rewrites of well-formed
graphs, with what each one relies on said about the graph it is made in:
`Rewrite`. A rewrite leaves the graph well-formed: `Rewrite.formed`.
-/

namespace TieredEngine

open Optimize

/-! ## Bigger graphs -/

/-- New nodes do not change what the old ones stand for. -/
theorem DenotesIn.of_extends {g g' : Graph} {arguments : List Value} {ρ : Bindings} {h : ℕ}
    {x : NodeId} {v : Value} (hb : ∀ m n x, g.node? m = some n → x ∈ n.edges → x < g.nodes.size)
    (he : g.Extends g') (hx : x < g.nodes.size) (hd : DenotesIn g' arguments ρ h x v) :
    DenotesIn g arguments ρ h x v := by
  have hinput : ∀ {m n y} {i : ℕ}, g.node? m = some n → n.inputs[i]? = some y → y < g.nodes.size :=
    fun hn hy =>
    hb _ _ _ hn (by simp [Node.edges, List.mem_of_getElem? hy])
  induction hd with
  | constant hn hk => exact .constant (he.same _ hx ▸ hn) hk
  | parameter hn hk => exact .parameter (he.same _ hx ▸ hn) hk
  | register hn hk hr => exact .register (he.same _ hx ▸ hn) hk hr
  | binary hn hk h0 h1 _ _ ho ih0 ih1 =>
    rw [he.same _ hx] at hn
    exact .binary hn hk h0 h1 (ih0 (hinput hn h0)) (ih1 (hinput hn h1)) ho
  | unary hn hk h0 _ ho ih =>
    rw [he.same _ hx] at hn
    exact .unary hn hk h0 (ih (hinput hn h0)) ho

namespace Graph

/-! ## What rewrites rely on -/

/-- Behind `m` the value of `x` has passed the check: control comes there by a
guard that made it, and no other path has joined since. -/
inductive Checked (g : Graph) (check : GuardCheck) (x : NodeId) : NodeId → Prop
  | here {m n reason} : g.node? m = some n → n.kind = .guard check reason → n.inputs[0]? = some x →
      Checked g check x m
  | behind {q m n} : g.node? m = some n → n.kind.isFixed → n.kind.isMerge = false → q ∈ n.control →
      Checked g check x q → Checked g check x m

/-- The operator at `old` always has the value of `new`, which is computed
with less nesting. -/
structure Simplifies (g : Graph) (old new : NodeId) : Prop where
  operator : ∃ n, g.node? old = some n ∧ n.kind.isOperator
  standsIn : g.StandsIn old new
  value : ∀ arguments ρ h v, DenotesIn g arguments ρ h old v →
    ∃ j < h, DenotesIn g arguments ρ j new v

/-- One rewrite. -/
inductive Rewrite (g : Graph) : Graph → Prop
  /-- A new constant, which nothing uses yet. -/
  | constant (v : Value) : Rewrite g (g.newConstant v).1
  | simplify {old new} : g.Simplifies old new → Rewrite g (g.replaceValue old new)
  /-- Of two equal nodes one is enough. -/
  | share {old new n} : g.node? old = some n → g.node? new = some n → new ≠ old → n.kind.isPure ∨
      n.kind = .phi → Rewrite g (g.replaceValue old new)
  /-- A phi that gets one value on all edges, itself apart. -/
  | phi {old new n} : g.node? old = some n → n.kind = .phi → new ∈ n.inputs → new ≠ old →
    (∀ y ∈ n.inputs, y = old ∨ y = new) → Rewrite g (g.replaceValue old new)
  /-- The operands of a commutative operator in the other order. -/
  | swap {m n op x y} : g.node? m = some n → n.kind = .binary op → op.isCommutative →
      n.inputs = [x, y] →
      Rewrite g (g.modify m fun n => { n with inputs := y :: x :: n.inputs.drop 2 })
  /-- A merge that joins nothing. -/
  | join {m n p} : g.node? m = some n → n.kind.isMerge → n.control = [p] → g.phisOf m = [] →
      Rewrite g (g.spliced p m m)
  /-- A guard that must hold, or whose check was made before. -/
  | guard {m n check reason x p} : g.node? m = some n → n.kind = .guard check reason →
      n.inputs = [x] → n.control = [p] →
      knownToHold g check x ∨ g.Checked check x p → Rewrite g (g.spliced p m m)
  /-- A branch on a constant, with the side that is taken. -/
  | branch {m n x p b onTrue onFalse} : g.node? m = some n → n.kind = .branch → n.inputs = [x] →
      n.control = [p] → g.constantAt x = some (.bool b) → g.successors m = [onTrue, onFalse] →
      Rewrite g (g.spliced p m (if b then onTrue else onFalse)).cutUnreachable.1
  | sweep : Rewrite g (sweepDead g).1

/-- Rewrites one after the other. -/
abbrev Rewrites : Graph → Graph → Prop := Relation.ReflTransGen Rewrite

variable {g g' : Graph} {p m x y : NodeId} {n : Node}

/-! ## Constants -/

theorem extends_newConstant (g : Graph) (v : Value) : g.Extends (g.newConstant v).1 where
  size := by simp [newConstant, add]
  same id hid := (Extends.add g { kind := .constant v }).same id hid

theorem node?_newConstant (g : Graph) (v : Value) :
    (g.newConstant v).1.node? (g.newConstant v).2 = some { kind := .constant v } :=
  node?_add_new g { kind := .constant v }

/-- Beyond the old nodes there is the constant. -/
theorem kind_of_newConstant {v : Value} (hn : (g.newConstant v).1.node? m = some n)
    (hm : g.nodes.size ≤ m) :
    n = { kind := .constant v } := by
  have hlt := lt_size_of_node? hn
  simp only [newConstant, add, Array.size_push] at hlt
  obtain rfl : m = g.nodes.size := Nat.le_antisymm (Nat.lt_succ_iff.1 hlt) hm
  exact Option.some.inj (hn.symm.trans (node?_newConstant g v))

theorem sameControl_newConstant (g : Graph) (v : Value) : g.SameControl (g.newConstant v).1 where
  stays m n hn _ := ⟨n, (extends_newConstant g v).node hn⟩
  old m n' hn' hlt := ⟨n', ((extends_newConstant g v).same m hlt).symm.trans hn', rfl, rfl⟩
  fresh m n' hn' hle := by rw [kind_of_newConstant hn' hle]; rfl

theorem orderly_newConstant (hg : g.Orderly) (v : Value) : (g.newConstant v).1.Orderly := by
  have hext := extends_newConstant g v
  refine hg.rewired (sameControl_newConstant g v) (fun x n' hn' => ?_) fun x n' hn' hk => ?_
  · by_cases hx : x < g.nodes.size
    · rw [hext.same x hx] at hn'
      exact ⟨hg.skeleton.arity x n' hn',
        fun y hy => Nat.lt_of_lt_of_le (hg.skeleton.below x n' y hn' hy) hext.size⟩
    · rw [kind_of_newConstant hn' (Nat.not_lt.1 hx)]
      simp [Node.Arity, Node.edges]
  · by_cases hx : x < g.nodes.size
    · rw [hext.same x hx] at hn'
      exact ⟨n', hn', hk, rfl, rfl⟩
    · rw [kind_of_newConstant hn' (Nat.not_lt.1 hx)] at hk
      cases hk

theorem keepsFrames_newConstant (g : Graph) (v : Value) : g.KeepsFrames (g.newConstant v).1 := by
  intro x n' hn' hs
  refine ⟨x, n', ?_, rfl, rfl⟩
  rw [← (extends_newConstant g v).same x (Nat.lt_of_not_le fun hle => ?_), hn']
  rw [kind_of_newConstant hn' hle] at hs
  cases hs

theorem formed_newConstant (hf : g.Formed) (v : Value) : (g.newConstant v).1.Formed := by
  have hfit : g.Fitting { kind := .constant v } := by
    constructor <;> simp [Node.Counted, Node.edges, NodeKind.isFixed]
  have hnodes : (g.newConstant v).1.nodes = (g.add { kind := .constant v }).1.nodes := rfl
  exact ⟨(hf.wired.add hf.trim hfit).congr hnodes, (hf.trim.add hfit).congr hnodes,
    (hf.closed.float hf.trim rfl).congr hnodes, hf.frames.kept (keepsFrames_newConstant g v)⟩

/-! ## Swapped operands -/

/-- The graph with the operands of one node in the other order. -/
theorem node?_swapped (hn : g.node? m = some n) (hi : n.inputs = [x, y]) (z : NodeId) :
    (g.modify m fun n => { n with inputs := y :: x :: n.inputs.drop 2 }).node? z =
      if z = m then some { n with inputs := [y, x] } else g.node? z := by
  rw [node?_modify, hn, Option.map_some, hi]
  rfl

theorem sameControl_swap {op : BinaryOp} (hn : g.node? m = some n) (hk : n.kind = .binary op)
    (hi : n.inputs = [x, y]) :
    g.SameControl (g.modify m fun n => { n with inputs := y :: x :: n.inputs.drop 2 }) := by
  have hnode := node?_swapped hn hi
  refine ⟨fun z n' hn' hkz => ⟨n', ?_⟩, fun z n' hn' _ => ?_, fun z n' hn' hle => ?_⟩
  · rw [hnode, if_neg ?_, hn']
    rintro rfl
    obtain rfl := Option.some.inj (hn.symm.trans hn')
    simp [hk, NodeKind.isFixed] at hkz
  · rw [hnode] at hn'
    split at hn'
    · subst z
      cases hn'
      exact ⟨n, hn, rfl, rfl⟩
    · exact ⟨n', hn', rfl, rfl⟩
  · have hlt := lt_size_of_node? hn'
    rw [size_modify] at hlt
    exact absurd hlt (Nat.not_lt.2 hle)

/-- The swapped node has the edges that it had. -/
theorem mem_edges_swapped {n' : Node} {z u : NodeId} (hn : g.node? m = some n)
    (hi : n.inputs = [x, y])
    (hn' : (g.modify m fun n => { n with inputs := y :: x :: n.inputs.drop 2 }).node? z = some n')
    (hu : u ∈ n'.edges) :
    ∃ n₀, g.node? z = some n₀ ∧ u ∈ n₀.edges := by
  rw [node?_swapped hn hi] at hn'
  split at hn'
  · subst z
    cases hn'
    refine ⟨n, hn, ?_⟩
    simp only [Node.edges, hi, List.mem_append, List.mem_cons, List.not_mem_nil, or_false] at hu ⊢
    rw [or_comm (a := u = x)]
    exact hu
  · exact ⟨n', hn', hu⟩

theorem orderly_swap {op : BinaryOp} (hg : g.Orderly) (hn : g.node? m = some n)
    (hk : n.kind = .binary op) (hi : n.inputs = [x, y]) :
    (g.modify m fun n => { n with inputs := y :: x :: n.inputs.drop 2 }).Orderly := by
  refine hg.rewired (sameControl_swap hn hk hi) (fun z n' hn' => ⟨?_, fun u hu => ?_⟩)
    fun z n' hn' hkz => ?_
  · rw [node?_swapped hn hi] at hn'
    split at hn'
    · cases hn'
      have harity := hg.skeleton.arity m n hn
      simp only [Node.Arity, hk] at harity ⊢
      exact ⟨rfl, harity.2⟩
    · exact hg.skeleton.arity z n' hn'
  · obtain ⟨n₀, h₀, hu⟩ := mem_edges_swapped hn hi hn' hu
    rw [size_modify]
    exact hg.skeleton.below z n₀ u h₀ hu
  · rw [node?_swapped hn hi] at hn'
    split at hn'
    · cases hn'
      rw [hk] at hkz
      cases hkz
    · exact ⟨n', hn', hkz, rfl, rfl⟩

theorem formed_swap {op : BinaryOp} (hf : g.Formed) (hn : g.node? m = some n)
    (hk : n.kind = .binary op) (hi : n.inputs = [x, y]) :
    (g.modify m fun n => { n with inputs := y :: x :: n.inputs.drop 2 }).Formed := by
  have hnode := node?_swapped hn hi
  have hsame := sameControl_swap hn hk hi
  generalize hg :
    (g.modify m fun n => { n with inputs := y :: x :: n.inputs.drop 2 }) = g' at hnode hsame ⊢
  have hother : ∀ z n', g'.node? z = some n' → n'.kind ≠ .binary op → g.node? z = some n' := by
    intro z n' hn' hkz
    rw [hnode] at hn'
    split at hn'
    · cases hn'
      exact absurd hk hkz
    · exact hn'
  have hstay : ∀ z n', g.node? z = some n' → z ≠ m → g'.node? z = some n' := fun z n' hn' hz => by
    rw [hnode, if_neg hz, hn']
  have hfixed : ∀ z n', g.node? z = some n' → n'.kind ≠ .binary op → g'.node? z = some n' := by
    intro z n' hn' hne
    refine hstay z n' hn' ?_
    rintro rfl
    obtain rfl := Option.some.inj (hn.symm.trans hn')
    exact hne hk
  have hown : ∀ d z, Owns g d z → Owns g' d z := by
    rintro d z (ho | ⟨rfl, ho⟩)
    · obtain ⟨n', hn', hkz, hc⟩ := mem_phisOf.1 ho
      exact .inl (mem_phisOf.2 ⟨n', hfixed z n' hn' (by simp [hkz]), hkz, hc⟩)
    · obtain ⟨n', hn', hr⟩ := owns_exists (.inr ⟨rfl, ho⟩)
      have hn'' := hfixed _ n' hn' fun h => by simp [h, NodeKind.isRegister] at hr
      exact .inr ⟨rfl, by simpa [kind?, hn', hn''] using ho⟩
  have havail : ∀ q z, g.Available q z → g'.Available q z := by
    intro q z hz
    induction hz with
    | constant hn' hkz => exact .constant (hfixed _ _ hn' (by simp [hkz])) hkz
    | parameter hn' hkz => exact .parameter (hfixed _ _ hn' (by simp [hkz])) hkz
    | register ho hd => exact .register (hown _ _ ho) (hsame.dominates.2 hd)
    | unary hn' hkz _ ih => exact .unary (hfixed _ _ hn' (by simp [hkz])) hkz ih
    | @binary z n' op' hn' hkz _ ih =>
      by_cases hz : z = m
      · subst hz
        obtain rfl := Option.some.inj (hn.symm.trans hn')
        have hn'' : g'.node? z = some { n with inputs := [y, x] } := by rw [hnode, if_pos rfl]
        exact .binary hn'' hkz fun u hu => ih u (by rw [hi]; simpa [or_comm] using hu)
      · exact .binary (hstay z n' hn' hz) hkz ih
  have hstate : ∀ q z, g.StateAvailable q z → g'.StateAvailable q z := by
    intro q z hz
    induction hz with
    | frame hn' hkz hi' _ ih =>
      exact .frame (hfixed _ _ hn' (by simp [hkz])) hkz (fun u hu => havail q u (hi' u hu)) ih
  refine hf.rewired hsame (fun z n' hn' => ?_) (fun z n' hn' hkz => ?_) fun z n' hn' hs =>
    ⟨z, n', hother z n' hn' fun h => by simp [h, NodeKind.isFrameState] at hs, rfl, rfl⟩
  rotate_left
  · refine ⟨n', hother z n' hn' fun h => by simp [h, NodeKind.isFixed] at hkz, rfl, rfl, rfl,
      fun i u hu => ⟨u, hu, fun q _ => havail q u⟩, fun s hs => ⟨s, hs, fun q _ => hstate q s⟩⟩
  refine ⟨?_,
    fun u hu => hg ▸ (orderly_swap hf.orderly hn hk hi).skeleton.below z n' u (hg ▸ hn') hu⟩
  rw [hnode] at hn'
  split at hn'
  · cases hn'
    have hc := hf.wired.counted m n hn
    simp only [Node.Counted, hk] at hc ⊢
    exact ⟨rfl, hc.2⟩
  · exact hf.wired.counted z n' hn'

/-! ## Rewrites keep graphs well-formed -/

/-- A fixed node that sets nothing and goes on in one way may be spliced out. -/
theorem splice_single (hn : g.node? m = some n) (hk : n.kind.isOpen) (hs : n.kind.isSide = false)
    (hi : n.kind.isInvoke = false) (hc : n.control = [p]) (hp : g.phisOf m = []) : g.Splice p m m :=
  ⟨⟨n, hn, (NodeKind.isOpen_iff.1 hk).1, hs, hi, hc⟩, ⟨n, hn, hk, hi⟩, .inl rfl, hp, hp⟩

theorem splice_guard {check : GuardCheck} {reason : DeoptReason} (hsk : g.Skeleton)
    (hn : g.node? m = some n) (hk : n.kind = .guard check reason) (hc : n.control = [p]) :
    g.Splice p m m :=
  splice_single hn (by rw [hk]; rfl) (by rw [hk]; rfl) (by rw [hk]; rfl) hc
    (hsk.phisOf_eq_nil hn (by rw [hk]; rfl))

theorem splice_join (hn : g.node? m = some n) (hk : n.kind.isMerge) (hc : n.control = [p])
    (hp : g.phisOf m = []) :
    g.Splice p m m := by
  rcases NodeKind.isMerge_iff.1 hk with hk | hk <;>
    exact splice_single hn (by rw [hk]; rfl) (by rw [hk]; rfl) (by rw [hk]; rfl) hc hp

theorem splice_branch {onTrue onFalse : NodeId} (hg : g.Orderly) (hn : g.node? m = some n)
    (hk : n.kind = .branch) (hc : n.control = [p]) (hs : g.successors m = [onTrue, onFalse])
    (b : Bool) :
    g.Splice p m (if b then onTrue else onFalse) := by
  have hkind : g.kind? m = some .branch := kind?_eq_some.2 ⟨n, hn, hk⟩
  have hfo : g.Follows m (if b then onTrue else onFalse) := by
    rw [follows_iff_mem_successors, hs]
    cases b <;> simp
  obtain ⟨nw, hnw, hside, -⟩ := hg.side_of_branch hkind hfo
  refine ⟨⟨n, hn, by rw [hk]; rfl, by rw [hk]; rfl, by rw [hk]; rfl, hc⟩, ⟨nw, hnw, ?_, ?_⟩, .inr
    ⟨hkind, hfo⟩, hg.skeleton.phisOf_eq_nil hn (by rw [hk]; rfl), hg.skeleton.phisOf_eq_nil hnw ?_⟩
  all_goals
    revert hside
    cases nw.kind <;> simp [NodeKind.isSide, NodeKind.isOpen, NodeKind.isFixed, NodeKind.isTerminal,
      NodeKind.isInvoke, NodeKind.isMerge]

theorem Rewrite.formed (h : g.Rewrite g') (hf : g.Formed) : g'.Formed := by
  cases h with
  | constant v => exact formed_newConstant hf v
  | simplify h => exact hf.replaceValue h.standsIn
  | share hn hn' hne hk => exact hf.replaceValue (standsIn_equal hn hn' hne hk)
  | phi hn hk hnew _ hall => exact hf.replaceValue (standsIn_phi hf hn hk hnew hall)
  | swap hn hk _ hi => exact formed_swap hf hn hk hi
  | join hn hk hc hp => exact (splice_join hn hk hc hp).formed_spliced hf rfl
  | guard hn hk _ hc _ => exact (splice_guard hf.wired.skeleton hn hk hc).formed_spliced hf rfl
  | branch hn hk _ hc _ hs =>
    have h := splice_branch hf.orderly hn hk hc hs
    exact formed_cutUnreachable ((h _).wired_spliced hf) ((h _).openAt_spliced hf.orderly)
      (hf.frames.kept (keepsFrames_spliced g _ _ _))
  | sweep => exact formed_sweepDead hf

theorem Rewrites.formed (h : Rewrites g g') (hf : g.Formed) : g'.Formed := by
  induction h with
  | refl => exact hf
  | tail _ h ih => exact h.formed ih

end Graph

end TieredEngine

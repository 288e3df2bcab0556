import TieredEngine.Proofs.Graph.Appending
import TieredEngine.Proofs.Specialize.Loops
/-!
# Putting a graph together

`Sound` is what a graph under construction has all the time: it is well-formed
but for the open ends of control, there is a node at every position and
operators read from lower positions. This module has one lemma for each way in
which it grows: a floating node, a phi, a node behind some open ends, the two
sides of a branch, and the edge back to a loop header.
-/

namespace TieredEngine

namespace Specialize

open TieredEngine.Graph

/-! ## Graphs under construction -/

/-- What a graph under construction has all the time. -/
structure Laid (g : Graph) : Prop where
  wired : g.Wired
  trim : g.Trim
  full : ∀ id < g.nodes.size, ∃ n, g.node? id = some n
  ordered : ∀ x n, g.node? x = some n → n.kind.isOperator → ∀ y ∈ n.inputs, y < x

/-- A graph under construction with its open ends. -/
structure Sound (g : Graph) (ends : List NodeId) : Prop extends Laid g where
  openAt : g.OpenAt ends

variable {g g' : Graph} {n : Node} {q x : NodeId} {A B C : List NodeId}

theorem Sound.perm (h : Sound g A) (hp : A.Perm B) :
    Sound g B := { h with openAt := h.openAt.perm hp }

theorem Sound.lt_of_mem (h : Sound g A) (hq : q ∈ A) : q < g.nodes.size := h.openAt.lt_of_mem hq

theorem Sound.lt_of_available (h : g.Available q x) : x < g.nodes.size := by
  obtain ⟨n, hn⟩ := h.exists_node
  exact lt_size_of_node? hn

theorem Sound.kept (h : Sound g A) (he : g.Extends g') : g.Kept g' := he.kept h.wired.below

theorem Laid.add (h : Laid g) (hn : g.Fitting n) : Laid (g.add n).1 where
  wired := h.wired.add h.trim hn
  trim := h.trim.add hn
  full id hid := by
    rw [size_add] at hid
    rcases Nat.lt_succ_iff_lt_or_eq.1 hid with hlt | rfl
    · obtain ⟨n', hn'⟩ := h.full id hlt
      exact ⟨n', (Extends.add g n).node hn'⟩
    · exact ⟨n, node?_add_new g n⟩
  ordered x n' hx hk y hy := by
    rw [node?_add] at hx
    split at hx
    · cases hx
      rw [‹x = _›]
      exact hn.below y (by simp [Node.edges, hy])
    · exact h.ordered x n' hx hk y hy

/-- A floating node that is no phi. -/
theorem Sound.float (h : Sound g A) (hk : n.kind.isFixed = false) (hp : n.kind ≠ .phi)
    (hc : n.Counted) (hb : ∀ x ∈ n.edges, x < g.nodes.size) : Sound (g.add n).1 A := by
  have hno : ∀ {P : Prop}, n.kind.isFixed → P := fun hf => by
    rw [hk] at hf
    cases hf
  refine ⟨h.toLaid.add ⟨fun hs => ?_, hc, hb, hno, hno, hno, hno, fun hk => absurd hk hp⟩,
    h.openAt.float h.trim hk⟩
  rw [hs] at hk
  cases hk

/-- A phi of a merge that stands. -/
theorem Sound.phi {m : NodeId} {nm : Node} (h : Sound g A) {inputs : List NodeId}
    (hm : g.node? m = some nm) (hk : nm.kind.isMerge) (hl : inputs.length = nm.control.length)
    (ha : ∀ (i : ℕ) q y, nm.control[i]? = some q → inputs[i]? = some y → g.Available q y) :
    Sound (g.add { kind := .phi, inputs, control := [m] }).1 A := by
  have hbelow : ∀ y ∈ inputs, y < g.nodes.size := by
    intro y hy
    obtain ⟨i, hi, rfl⟩ := List.getElem_of_mem hy
    exact Sound.lt_of_available
      (ha i _ _ (List.getElem?_eq_getElem (hl ▸ hi)) (List.getElem?_eq_getElem hi))
  refine ⟨h.toLaid.add ⟨by simp, by simp [Node.Counted], fun y hy => ?_, by simp [NodeKind.isFixed],
    by simp [NodeKind.isFixed], by simp [NodeKind.isFixed], by simp [NodeKind.isFixed],
    fun _ => ⟨m, nm, rfl, hm, hk, hl, ha⟩⟩, h.openAt.float h.trim rfl⟩
  simp only [Node.edges, Option.toList_none, List.append_nil, List.mem_append,
    List.mem_singleton] at hy
  rcases hy with hy | rfl
  · exact hbelow y hy
  · exact lt_size_of_node? hm

/-- A fixed node behind some ends. -/
theorem Sound.behind (h : Sound g (n.control ++ C)) (hf : n.kind.isFixed) (hb : n.kind ≠ .branch)
    (hs : n.kind ≠ .start) (hside : n.kind.isSide = false) (hc : n.Counted)
    (hi : ∀ q ∈ n.control, ∀ x ∈ n.inputs, g.Available q x)
    (hst : ∀ q ∈ n.control, ∀ s, n.state = some s → g.StateAvailable q s) :
    Sound (g.add n).1 (if n.kind.isTerminal then C else g.nodes.size :: C) := by
  obtain ⟨q₀, hq₀⟩ := Counted.exists_control hc hf hs
  have hfit : g.Fitting n := by
    refine ⟨hs, hc, fun x hx => ?_, fun _ => (List.nodup_append.1 h.openAt.nodup).1,
      fun _ q hq => ?_, fun _ => hi, fun _ => hst, fun hk => ?_⟩
    · simp only [Node.edges, List.mem_append, Option.mem_toList] at hx
      rcases hx with (hx | hx) | hx
      · exact Sound.lt_of_available (hi q₀ hq₀ x hx)
      · exact h.lt_of_mem (List.mem_append_left _ hx)
      · obtain ⟨n', hn'⟩ := (hst q₀ hq₀ x hx).exists_node
        exact lt_size_of_node? hn'
    · obtain ⟨k, hk, hopen, -⟩ := h.openAt.free q (List.mem_append_left _ hq)
      refine ⟨k, hk, ?_, by simp [hside]⟩
      simp only [NodeKind.isOpen, Bool.and_eq_true] at hopen
      exact hopen.1.1
    · rw [hk] at hf
      cases hf
  exact ⟨h.toLaid.add hfit, h.openAt.behind h.wired h.trim hfit hf hb⟩

/-- A branch behind an end, and its two sides. -/
theorem Sound.split {c : NodeId} (h : Sound g (q :: C)) (hc : g.Available q c) :
    Sound ((((g.add { kind := .branch, inputs := [c], control := [q] }).1.add
      { kind := .onTrue, control := [g.nodes.size] }).1.add
        { kind := .onFalse, control := [g.nodes.size] }).1)
      ((g.nodes.size + 1) :: (g.nodes.size + 2) :: C) := by
  have hq := h.lt_of_mem (List.mem_cons_self (a := q) (l := C))
  obtain ⟨k, hk, hopen, -⟩ := h.openAt.free q List.mem_cons_self
  have hbranch : g.Fitting { kind := .branch, inputs := [c], control := [q] } := by
    refine ⟨by simp, by simp [Node.Counted], fun x hx => ?_, by simp, fun _ p hp => ?_,
      fun _ p hp x hx => ?_, by simp, by simp⟩
    · obtain rfl | rfl : x = c ∨ x = q := by simpa [Node.edges] using hx
      · exact Sound.lt_of_available hc
      · exact hq
    · obtain rfl := List.mem_singleton.1 hp
      simp only [NodeKind.isOpen, Bool.and_eq_true] at hopen
      exact ⟨k, hk, hopen.1.1, by simp [NodeKind.isSide]⟩
    · obtain rfl := List.mem_singleton.1 hp
      obtain rfl := List.mem_singleton.1 hx
      exact hc
  have hside : ∀ (g' : Graph) (kind : NodeKind), kind.isSide →
      g'.kind? g.nodes.size = some .branch → g'.Fitting { kind, control := [g.nodes.size] } := by
    intro g' kind hkind hB
    obtain ⟨nB, hnB, -⟩ := kind?_eq_some.1 hB
    refine ⟨fun hs => ?_, ?_, fun x hx => ?_, by simp, fun _ p hp => ?_, by simp, by simp,
      fun hs => ?_⟩
    · simp only at hs
      simp [hs, NodeKind.isSide] at hkind
    · revert hkind
      cases kind <;> simp [NodeKind.isSide, Node.Counted]
    · obtain rfl : x = g.nodes.size := by simpa [Node.edges] using hx
      exact lt_size_of_node? hnB
    · obtain rfl := List.mem_singleton.1 hp
      exact ⟨.branch, hB, rfl, fun _ => rfl⟩
    · simp only at hs
      simp [hs, NodeKind.isSide] at hkind
  have h₁ := h.toLaid.add hbranch
  have hB : (g.add { kind := .branch, inputs := [c], control := [q] }).1.kind? g.nodes.size = some
      .branch := kind?_eq_some.2 ⟨_, node?_add_new g _, rfl⟩
  have h₂ := h₁.add (hside _ .onTrue rfl hB)
  have h₃ := h₂.add (hside _ .onFalse rfl (((Extends.add _ _).kept h₁.wired.below).kind _ _ hB))
  exact ⟨h₃, h.openAt.split h.wired h.trim (forked_add g q c)⟩

/-! ## Edges back -/

/-- The header and the phis of a loop that has no edge back yet, where there
are `slots` local slots. -/
structure LoopOpen (g : Graph) (header slots : ℕ) : Prop where
  head : ∃ e, g.node? header = some (headerNode [e])
  phi : ∀ j < slots, ∃ v, g.node? (header + 1 + j) = some (openPhi header v)
  only : ∀ x n, g.node? x = some n → n.kind = .phi → header ∈ n.control →
    ∃ j < slots, x = header + 1 + j

theorem LoopOpen.grown {header slots : ℕ} (h : LoopOpen g header slots) (hg : g.Grown g') :
    LoopOpen g' header slots where
  head := by
    obtain ⟨e, he⟩ := h.head
    exact ⟨e, hg.node he⟩
  phi j hj := by
    obtain ⟨v, hv⟩ := h.phi j hj
    exact ⟨v, hg.node hv⟩
  only x n hx hk hm := by
    obtain ⟨e, he⟩ := h.head
    by_cases hlt : x < g.nodes.size
    · rw [hg.same x hlt] at hx
      exact h.only x n hx hk hm
    · exact absurd (lt_size_of_node? he) (Nat.not_lt.2 (hg.apart x n (Nat.not_lt.1 hlt) hx hk _ hm))

section

variable {header : NodeId} {p : Path}

/-- The nodes after the edge back was made: the header and its phis have one
edge more, and nothing else changed. -/
theorem Closed.nodes (hc : Closed header g g' p) (hl : LoopOpen g header p.locals.length)
    (id : NodeId) :
    (id = header ∧ ∃ e, g.node? id = some (headerNode [e]) ∧
        g'.node? id = some (headerNode [e, p.control])) ∨
      (∃ j v w, id = header + 1 + j ∧ p.locals[j]? = some w ∧ g.node? id = some (openPhi header v) ∧
        g'.node? id = some { kind := .phi, inputs := [v, w], control := [header] }) ∨
      (id ≠ header ∧ (∀ j < p.locals.length, id ≠ header + 1 + j) ∧ g'.node? id = g.node? id) := by
  by_cases hid : id = header
  · obtain ⟨e, he⟩ := hl.head
    refine .inl ⟨hid, e, hid ▸ he, ?_⟩
    rw [hid, hc.edge, he]
    rfl
  · by_cases hj : ∃ j < p.locals.length, id = header + 1 + j
    · obtain ⟨j, hj, rfl⟩ := hj
      obtain ⟨v, hv⟩ := hl.phi j hj
      refine .inr (.inl ⟨j, v, p.locals.get ⟨j, hj⟩, rfl, by simp, hv, ?_⟩)
      rw [hc.phi j (p.locals.get ⟨j, hj⟩) (by simp), hv]
      rfl
    · have hout : id < header ∨ header + 1 + p.locals.length ≤ id := by
        by_contra hno
        exact hj ⟨id - (header + 1), by grind, by grind⟩
      exact .inr (.inr ⟨hid, fun j hlt h => hj ⟨j, hlt, h⟩, hc.same id hout⟩)

variable (hc : Closed header g g' p) (hl : LoopOpen g header p.locals.length)

include hc hl

theorem Closed.follows {m : NodeId} :
    g'.Follows q m ↔ g.Follows q m ∨ (m = header ∧ q = p.control) := by
  rcases hc.nodes hl m with ⟨rfl, e, h1, h2⟩ | ⟨j, v, w, rfl, -, h1, h2⟩ | ⟨hne, -, h⟩
  · simp only [Follows, h1, h2, Option.some.injEq, exists_eq_left', headerNode, NodeKind.isFixed,
      true_and, List.mem_cons, List.not_mem_nil, or_false]
  · have hno : ¬ (header + 1 + j = header) := by grind
    simp [Follows, h1, h2, openPhi, NodeKind.isFixed, hno]
  · simp only [Follows, h, hne, false_and, or_false]

/-- An edge back from where the header dominates makes no difference to
dominance: a way that takes it has been at the header before. -/
theorem Closed.way (hd : g.Dominates header p.control) {k : NodeId} {π : List NodeId}
    (hw : g'.Way k π) :
    ∃ ρ, g.Way k ρ ∧ (k :: ρ) ⊆ (k :: π) := by
  induction hw with
  | start => exact ⟨[], .start, List.Subset.refl _⟩
  | @step q π m _ hf ih =>
    obtain ⟨ρ, hρ, hsub⟩ := ih
    rcases (hc.follows hl).1 hf with hf | ⟨rfl, rfl⟩
    · exact ⟨q :: ρ, .step hρ hf, List.cons_subset_cons _ hsub⟩
    · obtain ⟨ρ', hρ', hsuf⟩ := hρ.before (hd ρ hρ)
      exact ⟨ρ', hρ', fun x hx => List.mem_cons_of_mem _ (hsub (hsuf.subset hx))⟩

theorem Closed.kept (hd : g.Dominates header p.control) : g.Kept g' := by
  have hdom : ∀ d k, g.Dominates d k → g'.Dominates d k := by
    intro d k h π hπ
    obtain ⟨ρ, hρ, hsub⟩ := hc.way hl hd hπ
    exact hsub (h ρ hρ)
  have hkind : ∀ id k, g.kind? id = some k → g'.kind? id = some k := by
    intro id k hk
    rcases hc.nodes hl id with ⟨-, e, h1, h2⟩ | ⟨j, v, w, -, -, h1, h2⟩ | ⟨-, -, h⟩
    · simp only [kind?, h1, h2, Option.map_some] at hk ⊢
      exact hk
    · simp only [kind?, h1, h2, Option.map_some] at hk ⊢
      exact hk
    · rw [kind?, h]
      exact hk
  have hnode : ∀ y n, g.node? y = some n → n.kind.isFixed = false → n.kind ≠ .phi →
      g'.node? y = some n := by
    intro y n hn hf hp
    rcases hc.nodes hl y with ⟨-, e, h1, -⟩ | ⟨j, v, w, -, -, h1, -⟩ | ⟨-, -, h⟩
    · rw [h1] at hn
      cases hn
      cases hf
    · rw [h1] at hn
      cases hn
      exact absurd rfl hp
    · rw [h, hn]
  have howns : ∀ d y, Owns g d y → Owns g' d y := by
    rintro d y (ho | ⟨rfl, ho⟩)
    · obtain ⟨n, hn, hk, hm⟩ := mem_phisOf.1 ho
      rcases hc.nodes hl y with ⟨-, e, h1, -⟩ | ⟨j, v, w, -, -, h1, h2⟩ | ⟨-, -, h⟩
      · rw [h1] at hn
        cases hn
        cases hk
      · rw [h1] at hn
        cases hn
        exact .inl (mem_phisOf.2 ⟨_, h2, rfl, hm⟩)
      · exact .inl (mem_phisOf.2 ⟨n, h.trans hn, hk, hm⟩)
    · refine .inr ⟨rfl, ?_⟩
      cases hk : g.kind? y with
      | none => simp [hk] at ho
      | some k => simpa [hk, hkind y k hk] using ho
  refine ⟨hc.size.ge, hkind, fun d k _ => hdom d k, fun q x _ hx => ?_, fun q s _ hs => ?_⟩
  · exact hx.transfer (fun y n hn hf hp => ⟨n, hnode y n hn hf hp, rfl, rfl⟩) fun d y ho hd =>
      ⟨howns d y ho, hdom d q hd⟩
  · exact hs.transfer (fun y n hn hf hp => ⟨n, hnode y n hn hf hp, rfl, rfl, rfl⟩) fun d y ho hd =>
      ⟨howns d y ho, hdom d q hd⟩

end

/-- What a node is once the edge back was made, and what it was before. -/
inductive Remade (g : Graph) (header : NodeId) (p : Path) : NodeId → Node → Prop
  | header {e} : g.node? header = some (headerNode [e]) →
      Remade g header p header (headerNode [e, p.control])
  | phi {j v w} : p.locals[j]? = some w → g.node? (header + 1 + j) = some (openPhi header v) →
    Remade g header p (header + 1 + j) { kind := .phi, inputs := [v, w], control := [header] }
  | other {m n} : m ≠ header → (∀ j < p.locals.length, m ≠ header + 1 + j) → g.node? m = some n →
      Remade g header p m n

section

variable {header m : NodeId} {p : Path} {n' : Node} (h : Sound g (p.control :: C))
    (hc : Closed header g g' p) (hl : LoopOpen g header p.locals.length)
    (hd : g.Dominates header p.control) (ha : ∀ x ∈ p.locals, g.Available p.control x)

include hc hl in
theorem Closed.remade (hm : g'.node? m = some n') : Remade g header p m n' := by
  rcases hc.nodes hl m with ⟨rfl, e, h1, h2⟩ | ⟨j, v, w, rfl, h3, h1, h2⟩ | ⟨hne, hnj, heq⟩
  · cases hm.symm.trans h2
    exact .header h1
  · cases hm.symm.trans h2
    exact .phi h3 h1
  · exact .other hne hnj (heq ▸ hm)

theorem Remade.exists_node (hr : Remade g header p m n') :
    ∃ n, g.node? m = some n ∧ n'.kind = n.kind := by
  cases hr with
  | header he | phi _ he | other _ _ he => exact ⟨_, he, rfl⟩

/-- The nodes that control comes from were there. -/
theorem Sound.lt_of_control (h : Sound g A) (hm : g.node? m = some n) (hq : q ∈ n.control) :
    q < g.nodes.size :=
  h.wired.below _ _ _ hm (by simp [Node.edges, hq])

include h hc hl

theorem Sound.trim_close : g'.Trim := by
  intro m n' hm hf
  have hreach : g.Reached m := by
    cases hc.remade hl hm with
    | header he => exact h.trim _ _ he rfl
    | phi _ _ => cases hf
    | other _ _ hn => exact h.trim m n' hn hf
  obtain ⟨π, hπ⟩ := hreach
  exact ⟨π, hπ.mono fun _ _ hf => (hc.follows hl).2 (.inl hf)⟩

include hd

theorem Sound.behind_close :
    ∀ m n' q, g'.node? m = some n' → n'.kind.isFixed → g'.Reached m → q ∈ n'.control →
      ∃ k, g'.kind? q = some k ∧ k.isFixed ∧ (n'.kind.isSide → k = .branch) := by
  intro m n' q hm hf _ hq
  have hkind := (hc.kept hl hd).kind
  cases hc.remade hl hm with
  | @header e he =>
    obtain rfl | rfl : q = e ∨ q = p.control := by simpa [headerNode] using hq
    · obtain ⟨k, hk, hrest⟩ :=
        h.wired.behind _ _ q he rfl (h.trim _ _ he rfl) (by simp [headerNode])
      exact ⟨k, hkind _ _ hk, hrest⟩
    · obtain ⟨k, hk, hopen, -⟩ := h.openAt.free p.control List.mem_cons_self
      simp only [NodeKind.isOpen, Bool.and_eq_true] at hopen
      exact ⟨k, hkind _ _ hk, hopen.1.1, by simp [headerNode, NodeKind.isSide]⟩
  | phi => cases hf
  | other _ _ hn =>
    obtain ⟨k, hk, hrest⟩ := h.wired.behind m n' q hn hf (h.trim m n' hn hf) hq
    exact ⟨k, hkind _ _ hk, hrest⟩

theorem Sound.openAt_close : g'.OpenAt C := by
  have hkept := hc.kept hl hd
  obtain ⟨k, hk, hopen, hfree⟩ := h.openAt.free p.control List.mem_cons_self
  obtain ⟨hpC, hC⟩ := List.nodup_cons.1 h.openAt.nodup
  refine ⟨hC, fun q hq => ?free, fun m n' hm hf _ hmem => ?goesOn⟩
  case free =>
    obtain ⟨k', hk', hopen', hfree'⟩ := h.openAt.free q (List.mem_cons_of_mem _ hq)
    refine ⟨k', hkept.kind _ _ hk', hopen', fun s hs => ?_⟩
    rcases (hc.follows hl).1 hs with hs | ⟨-, rfl⟩
    · exact hfree' s hs
    · exact hpC hq
  case goesOn =>
    obtain ⟨n, hn, hkind⟩ := (hc.remade hl hm).exists_node
    rw [hkind] at hf ⊢
    by_cases hmp : m = p.control
    · subst hmp
      obtain rfl : n.kind = k := by simpa [kind?, hn] using hk
      refine .of_isOpen (s := header) hopen fun s => ?_
      rw [hc.follows hl]
      exact ⟨fun hs => hs.elim (fun hs => absurd hs (hfree s)) And.left, fun hs => .inr ⟨hs, rfl⟩⟩
    · have hgoes := h.openAt.goesOn m n hn hf (h.trim m n hn hf) (by simp [hmp, hmem])
      refine hgoes.congr (fun s => ?_) fun s k _ hk => hkept.kind s k hk
      rw [hc.follows hl]
      exact or_iff_left fun hs => hmp hs.2

include ha

/-- The old input of a phi of the loop comes over the entry, and the new one
over the edge back. -/
theorem Sound.phi_close {j : ℕ} {v w : NodeId} (hw : p.locals[j]? = some w)
    (hx : g.node? (header + 1 + j) = some (openPhi header v)) {nm : Node}
    (hnm : g'.node? header = some nm) :
    nm.kind.isMerge ∧ (g'.Reached header → [v, w].length = nm.control.length ∧
      ∀ (i : ℕ) q y, nm.control[i]? = some q → [v, w][i]? = some y → g'.Available q y) := by
  have hkept := hc.kept hl hd
  obtain ⟨e, he⟩ := hl.head
  obtain ⟨m, hm, hold⟩ := h.wired.phis _ _ hx rfl
  obtain rfl : header = m := by simpa [openPhi] using hm
  obtain ⟨-, -, havail⟩ := (hold _ he).imp_right fun h' => h' (h.trim header _ he rfl)
  generalize hmerge : header = merge at hnm
  cases hc.remade hl hnm with
  | header he' =>
    cases he.symm.trans he'
    refine ⟨rfl, fun _ => ⟨rfl, fun i q y hq hy => ?_⟩⟩
    match i with
    | 0 =>
      obtain rfl : e = q := by simpa [headerNode] using hq
      obtain rfl : v = y := by simpa using hy
      exact hkept.available e v (h.lt_of_control he (by simp [headerNode]))
        (havail 0 e v (by simp [headerNode]) (by simp [openPhi]))
    | 1 =>
      obtain rfl : p.control = q := by simpa [headerNode] using hq
      obtain rfl : w = y := by simpa using hy
      exact hkept.available _ w (h.lt_of_mem List.mem_cons_self) (ha w (List.mem_of_getElem? hw))
    | i + 2 => simp [headerNode] at hq
  | phi => grind
  | other hne => exact absurd hmerge.symm hne

/-- The phis of other merges are as they were. -/
theorem Sound.phis_close : ∀ x n', g'.node? x = some n' → n'.kind = .phi → ∃ m, n'.control = [m] ∧
    ∀ nm, g'.node? m = some nm → nm.kind.isMerge ∧
      (g'.Reached m → n'.inputs.length = nm.control.length ∧
      ∀ (i : ℕ) q y, nm.control[i]? = some q → n'.inputs[i]? = some y → g'.Available q y) := by
  intro x n' hx hk
  cases hc.remade hl hx with
  | header => cases hk
  | phi hw hphi => exact ⟨header, rfl, fun nm => h.phi_close hc hl hd ha hw hphi⟩
  | other _ hnj hn =>
    obtain ⟨m, hm, hold⟩ := h.wired.phis x n' hn hk
    refine ⟨m, hm, fun nm hnm => ?_⟩
    cases hc.remade hl hnm with
    | header =>
      obtain ⟨j, hj, hx'⟩ := hl.only x n' hn hk (by simp [hm])
      exact absurd hx' (hnj j hj)
    | phi _ hphi => cases (hold _ hphi).1
    | other _ _ h2 =>
      obtain ⟨hmerge, hrest⟩ := hold nm h2
      obtain ⟨hlen, havail⟩ := hrest (h.trim m nm h2 (NodeKind.isFixed_of_isMerge hmerge))
      refine ⟨hmerge, fun _ => ⟨hlen, fun i q y hqi hyi => ?_⟩⟩
      exact (hc.kept hl hd).available q y (h.lt_of_control h2 (List.mem_of_getElem? hqi))
        (havail i q y hqi hyi)

theorem Sound.below_close : ∀ m n' x, g'.node? m = some n' → x ∈ n'.edges → x < g'.nodes.size := by
  intro m n' x hm hx
  rw [hc.size]
  cases hc.remade hl hm with
  | @header e he =>
    obtain rfl | rfl : x = e ∨ x = p.control := by simpa [Node.edges, headerNode] using hx
    · exact h.lt_of_control he (by simp [headerNode])
    · exact h.lt_of_mem List.mem_cons_self
  | @phi j v w hw hphi =>
    obtain rfl | rfl | rfl : x = v ∨ x = w ∨ x = header := by simpa [Node.edges] using hx
    · exact h.wired.below _ _ _ hphi (by simp [Node.edges, openPhi])
    · exact Sound.lt_of_available (ha x (List.mem_of_getElem? hw))
    · exact h.lt_of_control hphi (by simp [openPhi])
  | other _ _ hn => exact h.wired.below m n' x hn hx

theorem Sound.wired_close : g'.Wired where
  start := (hc.kept hl hd).kind _ _ h.wired.start
  only m n' hm hk := by
    cases hc.remade hl hm with
    | header | phi => cases hk
    | other _ _ hn => exact h.wired.only m n' hn hk
  below := h.below_close hc hl hd ha
  counted m n' hm := by
    cases hc.remade hl hm with
    | header | phi => simp [Node.Counted, headerNode]
    | other _ _ hn => exact h.wired.counted m n' hn
  distinct m n' hm hf := by
    cases hc.remade hl hm with
    | @header e he =>
      -- the open end has no successor yet, so it is not where the loop was
      -- entered
      obtain ⟨-, -, -, hfree⟩ := h.openAt.free p.control List.mem_cons_self
      have hne : e ≠ p.control := by
        rintro rfl
        exact hfree header ⟨_, he, rfl, by simp [headerNode]⟩
      simpa [headerNode] using hne
    | phi => cases hf
    | other _ _ hn => exact h.wired.distinct m n' hn hf
  behind := h.behind_close hc hl hd
  inputs m n' q x hm hf _ hq hx := by
    cases hc.remade hl hm with
    | header => simp [headerNode] at hx
    | phi => cases hf
    | other _ _ hn =>
      have havail := h.wired.inputs m n' q x hn hf (h.trim m n' hn hf) hq hx
      exact (hc.kept hl hd).available q x (h.lt_of_control hn hq) havail
  states m n' q s hm hf _ hq hs := by
    cases hc.remade hl hm with
    | header => simp [headerNode] at hs
    | phi => cases hf
    | other _ _ hn =>
      have havail := h.wired.states m n' q s hn hf (h.trim m n' hn hf) hq hs
      exact (hc.kept hl hd).stateAvailable q s (h.lt_of_control hn hq) havail
  phis := h.phis_close hc hl hd ha

/-- An edge back to a header that dominates where it comes from. -/
theorem Sound.close : Sound g' C where
  wired := h.wired_close hc hl hd ha
  trim := h.trim_close hc hl
  full id hid := by
    rw [hc.size] at hid
    obtain ⟨n, hn⟩ := h.full id hid
    obtain ⟨k, hk⟩ : ∃ k, g'.kind? id = some k :=
      ⟨_, (hc.kept hl hd).kind id n.kind (kind?_eq_some.2 ⟨n, hn, rfl⟩)⟩
    obtain ⟨n', hn', -⟩ := kind?_eq_some.1 hk
    exact ⟨n', hn'⟩
  ordered x n' hx hk y hy := by
    cases hc.remade hl hx with
    | header | phi => cases hk
    | other _ _ hn => exact h.ordered x n' hn hk y hy
  openAt := h.openAt_close hc hl hd

end

end Specialize

end TieredEngine

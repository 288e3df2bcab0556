import TieredEngine.Proofs.Graph.Traversal
import TieredEngine.Proofs.Optimize.Splice
/-!
# Cutting off control that is never reached

Taking out the fixed nodes that control does not get to, with their edges into
merges and the phi inputs at the same places, leaves the ways of control as
they are. So a graph that is put together well where control gets is
well-formed afterwards: `formed_cutUnreachable`.
-/

namespace TieredEngine

theorem Node.Arity.fewer {n n' : Node} (h : n.Arity) (hk : n'.kind = n.kind)
    (hi : n.kind ≠ .phi → n'.inputs = n.inputs)
    (hc : n.kind.isMerge = false → n'.control = n.control)
    (hm : n.kind.isMerge → 0 < n'.control.length) : n'.Arity := by
  revert h hi hc hm
  unfold Node.Arity
  rw [hk]
  cases n.kind <;> simp +contextual [NodeKind.isMerge, Nat.succ_le_iff]

/-- A node has as many edges as its kind asks for also when a merge or a phi
has fewer. -/
theorem Node.Counted.fewer {n n' : Node} (h : n.Counted) (hk : n'.kind = n.kind)
    (hi : n.kind ≠ .phi → n'.inputs = n.inputs) (hs : n'.state = n.state)
    (hc : n.kind.isMerge = false → n'.control = n.control)
    (hm : n.kind.isMerge → 0 < n'.control.length) : n'.Counted := by
  revert h hi hc hm
  unfold Node.Counted
  rw [hk, hs]
  cases n.kind <;> simp +contextual [NodeKind.isMerge, Nat.succ_le_iff]

namespace Graph

/-! ## Marked places -/

section

variable {α β : Type} {xs : List α} {ys : List β} {marks : List Bool}

theorem keepMarked_cons (x : α) (xs : List α) (b : Bool) (marks : List Bool) :
    keepMarked (x :: xs)
      (b :: marks) = if b then x :: keepMarked xs marks else keepMarked xs marks := by
  cases b <;> rfl

theorem keepMarked_map (p : α → Bool) (xs : List α) : keepMarked xs (xs.map p) = xs.filter p := by
  induction xs with
  | nil => rfl
  | cons x xs ih => rw [List.map_cons, keepMarked_cons, ih, List.filter_cons]

theorem keepMarked_all (hl : xs.length = marks.length) (h : marks.all id) :
    keepMarked xs marks = xs := by
  induction marks generalizing xs with
  | nil =>
    rw [List.length_nil, List.length_eq_zero_iff] at hl
    rw [hl]
    rfl
  | cons b marks ih =>
    cases xs with
    | nil => cases hl
    | cons x xs =>
      simp only [List.all_cons, id, Bool.and_eq_true] at h
      rw [keepMarked_cons, if_pos h.1, ih (by simpa using hl) h.2]

theorem length_keepMarked (hl : xs.length = ys.length) (marks : List Bool) :
    (keepMarked xs marks).length = (keepMarked ys marks).length := by
  induction marks generalizing xs ys with
  | nil => simp [keepMarked]
  | cons b marks ih =>
    cases xs with
    | nil =>
      rw [List.length_nil, eq_comm, List.length_eq_zero_iff] at hl
      rw [hl]
      rfl
    | cons x xs =>
      cases ys with
      | nil => cases hl
      | cons y ys =>
        have ih := ih (show xs.length = ys.length by simpa using hl)
        rw [keepMarked_cons, keepMarked_cons]
        split <;> simp [ih]

/-- What stands at one place of two lists afterwards stood at one place
before. -/
theorem keepMarked_aligned {i : ℕ} {x : α} {y : β} (hx : (keepMarked xs marks)[i]? = some x)
    (hy : (keepMarked ys marks)[i]? = some y) : ∃ j : ℕ, xs[j]? = some x ∧ ys[j]? = some y := by
  induction marks generalizing xs ys i with
  | nil => simp [keepMarked] at hx
  | cons b marks ih =>
    cases xs with
    | nil => simp [keepMarked] at hx
    | cons x' xs =>
      cases ys with
      | nil => simp [keepMarked] at hy
      | cons y' ys =>
        rw [keepMarked_cons] at hx hy
        split at hx
        · rw [if_pos ‹_›] at hy
          cases i with
          | zero => exact ⟨0, hx, hy⟩
          | succ i =>
            obtain ⟨j, hj⟩ := ih hx hy
            exact ⟨j + 1, hj⟩
        · rw [if_neg ‹_›] at hy
          obtain ⟨j, hj⟩ := ih hx hy
          exact ⟨j + 1, hj⟩

end

variable {g : Graph} {q m d x : NodeId} {n : Node} {π : List NodeId}

/-! ## Trimmed merges -/

theorem node?_foldl_modify (f : Node → Node) (ids : List NodeId) (hn : ids.Nodup) (g : Graph)
    (x : NodeId) :
    (ids.foldl (fun g id => g.modify id f) g).node? x = if x ∈ ids then (g.node? x).map
      f else g.node? x := by
  induction ids generalizing g with
  | nil => simp
  | cons id ids ih =>
    rw [List.nodup_cons] at hn
    rw [List.foldl_cons, ih hn.2, node?_modify]
    by_cases hx : x = id
    · subst hx
      simp [hn.1]
    · simp [hx]

theorem size_foldl_modify (f : Node → Node) (ids : List NodeId) (g : Graph) :
    (ids.foldl (fun g id => g.modify id f) g).nodes.size = g.nodes.size := by
  induction ids generalizing g with
  | nil => rfl
  | cons id ids ih => rw [List.foldl_cons, ih, size_modify]

/-- Some merges have lost their edges from removed nodes, and their phis the
inputs at the same places. -/
structure Trimmed (g g' : Graph) (ms : List NodeId) : Prop where
  size : g'.nodes.size = g.nodes.size
  joins : ∀ m ∈ ms, ∃ n, g.node? m = some n ∧ n.kind.isMerge
  absent : ∀ x, g.node? x = none → g'.node? x = none
  merge : ∀ m n, g.node? m = some n → m ∈ ms →
    g'.node? m = some { n with control := n.control.filter g.contains }
  phi : ∀ x n m nm, g.node? x = some n → n.kind = .phi → n.control.head? = some m → m ∈ ms →
    g.node? m = some nm →
    g'.node? x = some { n with inputs := keepMarked n.inputs (nm.control.map g.contains) }
  other : ∀ x n, g.node? x = some n → x ∉ ms →
    (n.kind = .phi → ∀ m, n.control.head? = some m → m ∉ ms) → g'.node? x = some n

namespace Trimmed

variable {g' g'' : Graph} {ms : List NodeId}

/-- Every node is a trimmed merge, a phi of one, or as it was. -/
theorem node_cases (h : g.Trimmed g' ms) (hn : g.node? x = some n) :
    (x ∈ ms ∧ g'.node? x = some { n with control := n.control.filter g.contains }) ∨
    (∃ m nm, n.kind = .phi ∧ n.control.head? = some m ∧ m ∈ ms ∧ g.node? m = some nm ∧
      g'.node? x = some { n with inputs := keepMarked n.inputs (nm.control.map g.contains) }) ∨
    (x ∉ ms ∧ (n.kind = .phi → ∀ m, n.control.head? = some m → m ∉ ms) ∧ g'.node? x = some n) := by
  by_cases hx : x ∈ ms
  · exact .inl ⟨hx, h.merge x n hn hx⟩
  by_cases hp : n.kind = .phi → ∀ m, n.control.head? = some m → m ∉ ms
  · exact .inr (.inr ⟨hx, hp, h.other x n hn hx hp⟩)
  · push Not at hp
    obtain ⟨hk, m, hc, hm⟩ := hp
    obtain ⟨nm, hnm, -⟩ := h.joins m hm
    exact .inr (.inl ⟨m, nm, hk, hc, hm, hnm, h.phi x n m nm hn hk hc hm hnm⟩)

theorem exists_node {n' : Node} (h : g.Trimmed g' ms) (hn : g'.node? x = some n') :
    ∃ n, g.node? x = some n := by
  cases hx : g.node? x with
  | none =>
    rw [h.absent x hx] at hn
    cases hn
  | some n => exact ⟨n, rfl⟩

theorem contains (h : g.Trimmed g' ms) : g'.contains = g.contains := by
  funext x
  unfold Graph.contains
  cases hn : g.node? x with
  | none => rw [h.absent x hn]
  | some n =>
    rcases h.node_cases hn with ⟨-, h'⟩ | ⟨m, nm, -, -, -, -, h'⟩ | ⟨-, -, h'⟩ <;> rw [h'] <;> rfl

theorem refl (g : Graph) : g.Trimmed g [] where
  size := rfl
  joins _ hm := by cases hm
  absent _ h := h
  merge _ _ _ hm := by cases hm
  phi _ _ _ _ _ _ _ hm := by cases hm
  other _ _ hn _ _ := hn

/-- One more merge. -/
theorem append {m : NodeId} (h : g.Trimmed g' ms) (h' : g'.Trimmed g'' [m]) (hm : m ∉ ms)
    (hmerge : ∃ n, g.node? m = some n ∧ n.kind.isMerge) : g.Trimmed g'' (ms ++ [m]) := by
  have hother : ∀ x n, g'.node? x = some n → x ≠ m → (n.kind = .phi → n.control.head? ≠ some m) →
      g''.node? x = some n :=
    fun x n hn hx hp => h'.other x n hn (by simpa using hx) fun hk m' hc => by
      rintro hmem
      obtain rfl := List.mem_singleton.1 hmem
      exact hp hk hc
  obtain ⟨nm, hnm, hkm⟩ := hmerge
  have hnm' : g'.node? m = some nm := by
    refine h.other m nm hnm hm fun hk => ?_
    rw [hk] at hkm
    cases hkm
  refine ⟨h'.size.trans h.size, ?_, fun x hx => h'.absent x (h.absent x hx), ?_, ?_, ?_⟩
  · intro m' hm'
    rcases List.mem_append.1 hm' with hm' | hm'
    · exact h.joins m' hm'
    · exact List.mem_singleton.1 hm' ▸ ⟨nm, hnm, hkm⟩
  · intro m' n hn hm'
    rcases List.mem_append.1 hm' with hm' | hm'
    · refine hother m' _ (h.merge m' n hn hm') (fun he => hm (he ▸ hm')) fun hk => ?_
      obtain ⟨n', hn', hk'⟩ := h.joins m' hm'
      obtain rfl := Option.some.inj (hn.symm.trans hn')
      dsimp only at hk
      rw [hk] at hk'
      cases hk'
    · obtain rfl := List.mem_singleton.1 hm'
      obtain rfl := Option.some.inj (hn.symm.trans hnm)
      rw [h'.merge m' n hnm' (by simp), h.contains]
  · intro x n m' nm' hn hk hc hm' hnm''
    rcases List.mem_append.1 hm' with hin | hm'
    · refine hother x _ (h.phi x n m' nm' hn hk hc hin hnm'') ?_ fun _ hc' => ?_
      · rintro rfl
        obtain rfl := Option.some.inj (hn.symm.trans hnm)
        rw [hk] at hkm
        cases hkm
      · obtain rfl := Option.some.inj (hc.symm.trans hc')
        exact hm hin
    · obtain rfl := List.mem_singleton.1 hm'
      obtain rfl := Option.some.inj (hnm.symm.trans hnm'')
      have hx : x ∉ ms := fun hx => by
        obtain ⟨n', hn', hk'⟩ := h.joins x hx
        obtain rfl := Option.some.inj (hn.symm.trans hn')
        rw [hk] at hk'
        cases hk'
      have hn' : g'.node? x = some n := h.other x n hn hx fun _ m'' hc'' => by
        obtain rfl := Option.some.inj (hc.symm.trans hc'')
        exact hm
      rw [h'.phi x n m' nm hn' hk hc (by simp) hnm', h.contains]
  · intro x n hn hx hp
    simp only [List.mem_append, List.mem_singleton, not_or] at hx hp
    exact hother x n (h.other x n hn hx.1 fun hk m' hc => (hp hk m' hc).1) hx.2 fun hk hc =>
      (hp hk m hc).2 rfl

end Trimmed

/-- Trimming one merge. -/
theorem trimmed_trimMerge {nm : Node} (hm : g.node? m = some nm) (hk : nm.kind.isMerge)
    (hphi : ∀ x n, g.node? x = some n → n.kind = .phi → n.control.head? = some m →
      n.inputs.length = nm.control.length) :
    g.Trimmed (g.trimMerge m) [m] := by
  have hmem : ∀ x n, g.node? x = some n →
      (x ∈ g.phisOf m ↔ n.kind = .phi ∧ n.control.head? = some m) := by
    intro x n hn
    rw [mem_phisOf]
    constructor
    · rintro ⟨n', hn', h⟩
      obtain rfl := Option.some.inj (hn.symm.trans hn')
      exact h
    · exact fun h => ⟨n, hn, h⟩
  have hnot : m ∉ g.phisOf m := fun h => by
    have := ((hmem m nm hm).1 h).1
    rw [this] at hk
    cases hk
  unfold trimMerge
  simp only [hm]
  split
  · rename_i hall
    refine ⟨rfl, fun m' hm' => List.mem_singleton.1 hm' ▸ ⟨nm, hm, hk⟩, fun _ h => h,
      fun m' n hn hm' => ?_, fun x n m' nm' hn hkx hc hm' hnm' => ?_, fun x n hn _ _ => hn⟩
    · obtain rfl := List.mem_singleton.1 hm'
      obtain rfl := Option.some.inj (hn.symm.trans hm)
      rw [← keepMarked_map, keepMarked_all (by simp) hall, hn]
    · obtain rfl := List.mem_singleton.1 hm'
      obtain rfl := Option.some.inj (hnm'.symm.trans hm)
      rw [keepMarked_all (by simpa using hphi x n hn hkx hc) hall, hn]
  · let f : Node → Node :=
      fun p => { p with inputs := keepMarked p.inputs (nm.control.map g.contains) }
    have hphis : ∀ x, ((g.phisOf m).foldl (fun g phi => g.modify phi f) g).node? x = if x ∈ g.phisOf
        m then (g.node? x).map f else g.node? x := node?_foldl_modify f _ (g.phisOf_nodup m) g
    refine ⟨by rw [size_modify]; exact size_foldl_modify f _ g,
      fun m' hm' => List.mem_singleton.1 hm' ▸ ⟨nm, hm, hk⟩, fun x hx => ?_,
      fun m' n hn hm' => ?_, fun x n m' nm' hn hkx hc hm' hnm' => ?_, fun x n hn hx hp => ?_⟩
    · have hxm : x ≠ m := by
        rintro rfl
        rw [hm] at hx
        cases hx
      rw [node?_modify, if_neg hxm, hphis, hx]
      simp
    · obtain rfl := List.mem_singleton.1 hm'
      obtain rfl := Option.some.inj (hn.symm.trans hm)
      rw [node?_modify, if_pos rfl, hphis, if_neg hnot, hn, Option.map_some, keepMarked_map]
    · obtain rfl := List.mem_singleton.1 hm'
      obtain rfl := Option.some.inj (hnm'.symm.trans hm)
      have hxm : x ≠ m' := by
        rintro rfl
        exact hnot ((hmem x n hn).2 ⟨hkx, hc⟩)
      rw [node?_modify, if_neg hxm, hphis, if_pos ((hmem x n hn).2 ⟨hkx, hc⟩), hn, Option.map_some]
    · have hxp : x ∉ g.phisOf m := fun h => by
        obtain ⟨hkx, hc⟩ := (hmem x n hn).1 h
        exact hp hkx m hc (by simp)
      rw [node?_modify, if_neg (by simpa using hx), hphis, if_neg hxp, hn]

/-- Trimming several merges. -/
theorem trimmed_trimMerges
    (hphi : ∀ x n m nm, g.node? x = some n → n.kind = .phi → n.control.head? = some m →
      g.node? m = some nm → n.inputs.length = nm.control.length) (ms : List NodeId) (hnd : ms.Nodup)
    (hms : ∀ m ∈ ms, ∃ n, g.node? m = some n ∧ n.kind.isMerge) :
    g.Trimmed (ms.foldl trimMerge g) ms := by
  induction ms using List.reverseRecOn with
  | nil => exact .refl g
  | append_singleton done m ih =>
    rw [List.nodup_append] at hnd
    obtain ⟨hdone, -, hdis⟩ := hnd
    have hmd : m ∉ done := fun hmem => hdis m hmem m (by simp) rfl
    have hmerge := hms m (by simp)
    have h := ih hdone fun m' hm' => hms m' (by simp [hm'])
    obtain ⟨nm, hnm, hkm⟩ := hmerge
    rw [List.foldl_append, List.foldl_cons, List.foldl_nil]
    have hnm' : (done.foldl trimMerge g).node? m = some nm := by
      refine h.other m nm hnm hmd fun hk => ?_
      rw [hk] at hkm
      cases hkm
    refine h.append (trimmed_trimMerge hnm' hkm fun x n' hn' hk hc => ?_) hmd ⟨nm, hnm, hkm⟩
    obtain ⟨n, hn⟩ := h.exists_node hn'
    rcases h.node_cases hn with ⟨hx, h'⟩ | ⟨m', nm', -, hc', hm', -, h'⟩ | ⟨-, -, h'⟩
    · obtain rfl := Option.some.inj (hn'.symm.trans h')
      obtain ⟨n'', hn'', hk''⟩ := h.joins x hx
      obtain rfl := Option.some.inj (hn.symm.trans hn'')
      dsimp only at hk
      rw [hk] at hk''
      cases hk''
    · obtain rfl := Option.some.inj (hn'.symm.trans h')
      obtain rfl := Option.some.inj (hc'.symm.trans hc)
      exact absurd hm' hmd
    · obtain rfl := Option.some.inj (hn'.symm.trans h')
      exact hphi x n' m nm hn hk hc hnm

/-! ## Cutting -/

/-- The second graph is the first one without the control that is never
reached. -/
structure Cut (g g' : Graph) : Prop where
  size : g'.nodes.size = g.nodes.size
  absent : ∀ x, g.node? x = none → g'.node? x = none
  dead : ∀ x n, g.node? x = some n → n.kind.isFixed → ¬ g.Reached x → g'.node? x = none
  merge : ∀ m n, g.node? m = some n → n.kind.isMerge → g.Reached m → ∃ live : NodeId → Bool,
    (∀ q ∈ n.control, live q ↔ g.Reached q) ∧
      g'.node? m = some { n with control := n.control.filter live } ∧
      ∀ x nx, g.node? x = some nx → nx.kind = .phi → nx.control.head? = some m →
        g'.node? x = some { nx with inputs := keepMarked nx.inputs (n.control.map live) }
  other : ∀ x n, g.node? x = some n → (n.kind.isFixed → g.Reached x) → n.kind.isMerge = false →
    (n.kind = .phi → ∀ m, n.control.head? = some m → ¬ g.Reached m) → g'.node? x = some n

theorem mem_unreachable (hs : Graph.start < g.nodes.size) : x ∈ g.unreachable ↔
    ∃ n, g.node? x = some n ∧ n.kind.isFixed ∧ ¬ g.Reached x := by
  unfold unreachable
  simp only [List.mem_map, List.mem_filter, mem_entries, Bool.and_eq_true, Bool.not_eq_true',
    List.contains_eq_mem, decide_eq_false_iff_not, mem_reachable hs]
  constructor
  · rintro ⟨⟨y, n⟩, ⟨h1, h2, h3⟩, rfl⟩
    exact ⟨n, h1, h2, h3⟩
  · rintro ⟨n, h1, h2, h3⟩
    exact ⟨(x, n), ⟨h1, h2, h3⟩, rfl⟩

theorem unreachable_eq_nil (hsk : g.Skeleton) (ht : g.Trim) : g.unreachable = [] :=
  List.eq_nil_iff_forall_not_mem.2 fun x hx => by
    obtain ⟨n, hn, hk, hr⟩ := (mem_unreachable hsk.start_lt).1 hx
    exact hr (ht x n hn hk)

theorem cutUnreachable_of_trim (hsk : g.Skeleton) (ht : g.Trim) : g.cutUnreachable = (g, 0) := by
  simp [cutUnreachable, unreachable_eq_nil hsk ht]

/-- A graph where control gets everywhere has nothing to cut. -/
theorem Cut.refl (hsk : g.Skeleton) (ht : g.Trim) : g.Cut g where
  size := rfl
  absent _ h := h
  dead x n hn hk hr := absurd (ht x n hn hk) hr
  merge m n hn hk hr := by
    have hfix := NodeKind.isFixed_of_isMerge hk
    refine ⟨fun _ => true, fun q hq => ?_, ?_, fun x nx hx hkx hc => ?_⟩
    · obtain ⟨k, h1, h2, -⟩ := hsk.behind m n q hn hfix hr hq
      obtain ⟨nq, hnq, rfl⟩ := kind?_eq_some.1 h1
      exact ⟨fun _ => ht q nq hnq h2, fun _ => rfl⟩
    · rw [List.filter_true, hn]
    · obtain ⟨m', hm', hrest⟩ := hsk.phis x nx hx hkx
      obtain rfl : m' = m := by simpa [hm'] using hc
      have hlen := (hrest n hn).2 hr
      rw [keepMarked_all (by simpa using hlen) (by simp), hx]
  other _ _ hn _ _ _ := hn

/-- Taking out the nodes that control does not get to leaves the others and
the floating nodes. -/
theorem node?_removeUnreachable (hs : Graph.start < g.nodes.size) :
    (g.removeAll g.unreachable).node? x = some n ↔
      g.node? x = some n ∧ (n.kind.isFixed → g.Reached x) := by
  rw [node?_removeAll]
  split
  case isTrue hx =>
    obtain ⟨n', hn', hk, hr⟩ := (mem_unreachable hs).1 hx
    constructor
    · intro h
      cases h
    · rintro ⟨hn, h⟩
      obtain rfl := Option.some.inj (hn.symm.trans hn')
      exact absurd (h hk) hr
  case isFalse hx =>
    refine ⟨fun hn => ⟨hn, fun hk => ?_⟩, fun h => h.1⟩
    by_contra hr
    exact hx ((mem_unreachable hs).2 ⟨n, hn, hk, hr⟩)

/-- The phis of the merges that control gets to have one input more than their
merge has edges, so every merge can be trimmed. -/
theorem trimmed_removeUnreachable (hsk : g.Skeleton) :
    (g.removeAll g.unreachable).Trimmed
      (((g.removeAll g.unreachable).idsWhere NodeKind.isMerge).foldl trimMerge
          (g.removeAll g.unreachable))
      ((g.removeAll g.unreachable).idsWhere NodeKind.isMerge) := by
  refine trimmed_trimMerges (fun x n m nm hn hk hc hm => ?_) _ (entries_filter_nodup _ _)
    fun m hm => ?_
  · obtain ⟨hn, -⟩ := (node?_removeUnreachable hsk.start_lt).1 hn
    obtain ⟨hm, hr⟩ := (node?_removeUnreachable hsk.start_lt).1 hm
    obtain ⟨m', hm', hrest⟩ := hsk.phis x n hn hk
    obtain rfl : m' = m := by simpa [hm'] using hc
    obtain ⟨hmerge, hrest⟩ := hrest nm hm
    exact hrest (hr (NodeKind.isFixed_of_isMerge hmerge))
  · obtain ⟨k, hk, hmerge⟩ := mem_idsWhere.1 hm
    obtain ⟨n, hn, rfl⟩ := kind?_eq_some.1 hk
    exact ⟨n, hn, hmerge⟩

/-- Behind a merge that control gets to, exactly the edges from where control
gets survive. -/
theorem contains_removeUnreachable (hsk : g.Skeleton) (hn : g.node? m = some n)
    (hk : n.kind.isMerge) (hr : g.Reached m) :
    ∀ q ∈ n.control, (g.removeAll g.unreachable).contains q ↔ g.Reached q := by
  intro q hq
  obtain ⟨k, h1, h2, -⟩ := hsk.behind m n q hn (NodeKind.isFixed_of_isMerge hk) hr hq
  obtain ⟨nq, hnq, rfl⟩ := kind?_eq_some.1 h1
  rw [contains_iff]
  constructor
  · rintro ⟨nq', hq'⟩
    obtain ⟨hq', h⟩ := (node?_removeUnreachable hsk.start_lt).1 hq'
    obtain rfl := Option.some.inj (hnq.symm.trans hq')
    exact h h2
  · exact fun h => ⟨nq, (node?_removeUnreachable hsk.start_lt).2 ⟨hnq, fun _ => h⟩⟩

/-- `cutUnreachable` cuts off what is never reached. -/
theorem cut_cutUnreachable (hsk : g.Skeleton) : g.Cut g.cutUnreachable.1 := by
  have hs := hsk.start_lt
  unfold cutUnreachable
  dsimp only
  split
  case isTrue hempty =>
    refine .refl hsk fun m n hn hk => ?_
    by_contra hr
    have := (mem_unreachable hs).2 ⟨n, hn, hk, hr⟩
    rw [List.isEmpty_iff.1 hempty] at this
    cases this
  case isFalse =>
    let cut := g.removeAll g.unreachable
    have htrim := trimmed_removeUnreachable hsk
    have hmerges {m n} (hm : cut.node? m = some n) : m ∈ cut.idsWhere NodeKind.isMerge ↔
        n.kind.isMerge := by
      simp [mem_idsWhere, kind?_eq_some, hm]
    refine {
      size := ?size
      absent := fun x hx => ?absent
      dead := fun x n hn hk hr => ?dead
      merge := fun m n hn hk hr => ?merge
      other := fun x n hn hfix hk hp => ?other }
    case size =>
      rw [htrim.size]
      exact size_removeAll g _
    case absent =>
      refine htrim.absent x ?_
      rw [node?_removeAll, hx]
      simp
    case dead =>
      refine htrim.absent x ?_
      rw [node?_removeAll, if_pos ((mem_unreachable hs).2 ⟨n, hn, hk, hr⟩)]
    case merge =>
      have hm : cut.node? m = some n := (node?_removeUnreachable hs).2 ⟨hn, fun _ => hr⟩
      have hmem := (hmerges hm).2 hk
      refine ⟨cut.contains, contains_removeUnreachable hsk hn hk hr, htrim.merge m n hm hmem,
        fun x nx hx hkx hc => ?_⟩
      have hx : cut.node? x = some nx :=
        (node?_removeUnreachable hs).2 ⟨hx, fun h => by rw [hkx] at h; cases h⟩
      exact htrim.phi x nx m n hx hkx hc hmem hm
    case other =>
      have hx : cut.node? x = some n := (node?_removeUnreachable hs).2 ⟨hn, hfix⟩
      refine htrim.other x n hx (fun hmem => ?_) fun hkx m hc hm => ?_
      · rw [(hmerges hx).1 hmem] at hk
        cases hk
      · obtain ⟨k, hkm, hmerge⟩ := mem_idsWhere.1 hm
        obtain ⟨nm, hnm, rfl⟩ := kind?_eq_some.1 hkm
        exact hp hkx m hc
          (((node?_removeUnreachable hs).1 hnm).2 (NodeKind.isFixed_of_isMerge hmerge))

namespace Cut

variable {g' : Graph} {k : NodeKind} (h : g.Cut g') (hsk : g.Skeleton)

include h hsk

/-- Where control gets, a node only loses edges from where it does not get. -/
theorem fixed (hn : g.node? m = some n) (hk : n.kind.isFixed) (hr : g.Reached m) :
    ∃ n', g'.node? m = some n' ∧ n'.kind = n.kind ∧ n'.inputs = n.inputs ∧ n'.state = n.state ∧
      n'.control.Sublist n.control ∧ ∀ q, q ∈ n'.control ↔ q ∈ n.control ∧ g.Reached q := by
  by_cases hmerge : n.kind.isMerge
  · obtain ⟨live, hlive, hm, -⟩ := h.merge m n hn hmerge hr
    refine ⟨_, hm, rfl, rfl, rfl, List.filter_sublist, fun q => ?_⟩
    rw [List.mem_filter]
    exact and_congr_right fun hq => hlive q hq
  · rw [Bool.not_eq_true] at hmerge
    refine ⟨n, h.other m n hn (fun _ => hr) hmerge fun hp => ?_, rfl, rfl, rfl, List.Sublist.refl _,
      fun q => ?_⟩
    · rw [hp] at hk
      cases hk
    · refine (and_iff_left_of_imp fun hq => ?_).symm
      have hfo : g.Follows q m := ⟨n, hn, hk, hq⟩
      obtain ⟨π, hπ⟩ := hr
      cases hπ with
      | start => exact absurd hfo hsk.not_follows_start
      | step hq' hfo' => exact hsk.eq_of_follows hn hmerge hfo' hfo ▸ ⟨_, hq'⟩

theorem exists_node {n' : Node} (hn : g'.node? x = some n') :
    ∃ n, g.node? x = some n ∧ n'.kind = n.kind ∧ (n.kind.isFixed → g.Reached x) := by
  cases hx : g.node? x with
  | none =>
    rw [h.absent x hx] at hn
    cases hn
  | some n =>
    have hfix : n.kind.isFixed → g.Reached x := fun hk => by
      by_contra hr
      rw [h.dead x n hx hk hr] at hn
      cases hn
    refine ⟨n, rfl, ?_, hfix⟩
    by_cases hmerge : n.kind.isMerge
    · obtain ⟨live, -, hm, -⟩ := h.merge x n hx hmerge (hfix (NodeKind.isFixed_of_isMerge hmerge))
      obtain rfl := Option.some.inj (hn.symm.trans hm)
      rfl
    by_cases hp : n.kind = .phi → ∀ m, n.control.head? = some m → ¬ g.Reached m
    · obtain rfl := Option.some.inj (hn.symm.trans (h.other x n hx hfix (by simpa using hmerge) hp))
      rfl
    · push Not at hp
      obtain ⟨hk, m, hc, hr⟩ := hp
      obtain ⟨m', hm', hrest⟩ := hsk.phis x n hx hk
      obtain rfl : m' = m := by simpa [hm'] using hc
      obtain ⟨nm, hnm, -⟩ := hr.exists_node hsk
      obtain ⟨live, -, -, hphi⟩ := h.merge m' nm hnm (hrest nm hnm).1 hr
      obtain rfl := Option.some.inj (hn.symm.trans (hphi x n hx hk hc))
      rfl

theorem follows : g'.Follows q m ↔ g.Follows q m ∧ g.Reached q := by
  constructor
  · rintro ⟨n', hn', hk, hq⟩
    obtain ⟨n, hn, hkind, hfix⟩ := h.exists_node hsk hn'
    rw [hkind] at hk
    obtain ⟨n'', hn'', -, -, -, -, hc⟩ := h.fixed hsk hn hk (hfix hk)
    obtain rfl := Option.some.inj (hn'.symm.trans hn'')
    exact ⟨⟨n, hn, hk, ((hc q).1 hq).1⟩, ((hc q).1 hq).2⟩
  · rintro ⟨⟨n, hn, hk, hq⟩, hr⟩
    obtain ⟨n', hn', hkind, -, -, -, hc⟩ := h.fixed hsk hn hk (hr.step ⟨n, hn, hk, hq⟩)
    exact ⟨n', hn', by rwa [hkind], (hc q).2 ⟨hq, hr⟩⟩

/-- The ways of control are the same. -/
theorem way : g'.Way m π ↔ g.Way m π := by
  constructor
  · exact Way.mono fun _ _ hf => ((h.follows hsk).1 hf).1
  · intro hπ
    induction hπ with
    | start => exact .start
    | @step q π m hq hf ih => exact .step ih ((h.follows hsk).2 ⟨hf, π, hq⟩)

theorem reached : g'.Reached m ↔ g.Reached m := exists_congr fun _ => h.way hsk

theorem dominates :
    g'.Dominates d m ↔ g.Dominates d m := forall_congr' fun _ => imp_congr_left (h.way hsk)

omit hsk in
/-- Values other than phis stay as they are. -/
theorem floating (hn : g.node? x = some n) (hk : n.kind.isFixed = false) (hp : n.kind ≠ .phi) :
    g'.node? x = some n := by
  refine h.other x n hn (fun hf => ?_) (Bool.eq_false_iff.2 fun hm => ?_) fun hk => absurd hk hp
  · rw [hk] at hf
    cases hf
  · rw [NodeKind.isFixed_of_isMerge hm] at hk
    cases hk

/-- So do phis whose merge is never reached; the others lose the inputs that
belong to lost edges. -/
theorem phi (hn : g.node? x = some n) (hk : n.kind = .phi) (hc : n.control = [m])
    (hr : g.Reached m) :
    ∃ nm nm' n', g.node? m = some nm ∧ nm.kind.isMerge ∧ g'.node? m = some nm' ∧
      g'.node? x = some n' ∧ n'.kind = .phi ∧
      n'.control = [m] ∧ n'.state = n.state ∧ n'.inputs ⊆ n.inputs ∧
        n'.inputs.length = nm'.control.length ∧
        ∀ (i : ℕ) q y, nm'.control[i]? = some q → n'.inputs[i]? = some y →
          ∃ j : ℕ, nm.control[j]? = some q ∧ n.inputs[j]? = some y := by
  obtain ⟨m', hm', hrest⟩ := hsk.phis x n hn hk
  obtain rfl : m' = m := by simpa [hm'] using hc
  obtain ⟨nm, hnm, -⟩ := hr.exists_node hsk
  obtain ⟨hmerge, hrest⟩ := hrest nm hnm
  have hlen := hrest hr
  obtain ⟨live, -, hm, hphi⟩ := h.merge m' nm hnm hmerge hr
  rw [← keepMarked_map] at hm
  refine ⟨nm, _, _, hnm, hmerge, hm, hphi x n hn hk (by rw [hc]; rfl), hk, hc, rfl, fun y hy => ?_,
    length_keepMarked hlen _, fun i q y hq hy => keepMarked_aligned hq hy⟩
  obtain ⟨e, he, rfl⟩ := List.mem_map.1 hy
  exact (List.of_mem_zip (List.mem_filter.1 he).1).1

theorem owns (ho : Owns g d x) (hr : g.Reached d) : Owns g' d x := by
  rcases ho with ho | ⟨rfl, ho⟩
  · obtain ⟨n, hn, hk, hc⟩ := mem_phisOf.1 ho
    obtain ⟨m, hm, -⟩ := hsk.phis x n hn hk
    obtain rfl : m = d := by simpa [hm] using hc
    obtain ⟨nm, nm', n', -, -, -, hn', hk', hc', -⟩ := h.phi hsk hn hk hm hr
    exact .inl (mem_phisOf.2 ⟨n', hn', hk', by rw [hc']; rfl⟩)
  · refine .inr ⟨rfl, ?_⟩
    obtain ⟨n, hn, hk⟩ := hr.exists_node hsk
    obtain ⟨n', hn', hkind, -⟩ := h.fixed hsk hn hk hr
    simpa [kind?, hn, hn', hkind] using ho

theorem available (hr : g.Reached q) (hx : g.Available q x) : g'.Available q x := by
  refine hx.transfer (fun y n hn hk hp => ⟨n, h.floating hn hk hp, rfl, rfl⟩) fun d y ho hd => ?_
  exact ⟨h.owns hsk ho (hd.reached hr), (h.dominates hsk).2 hd⟩

theorem stateAvailable (hr : g.Reached q) (hx : g.StateAvailable q x) : g'.StateAvailable q x := by
  refine hx.transfer (fun y n hn hk hp => ⟨n, h.floating hn hk hp, rfl, rfl, rfl⟩)
    fun d y ho hd => ?_
  exact ⟨h.owns hsk ho (hd.reached hr), (h.dominates hsk).2 hd⟩

/-- Every node has some of the edges that it had. -/
theorem exists_old {n' : Node} (hn : g'.node? x = some n') : ∃ n, g.node? x = some n ∧
    n'.kind = n.kind ∧ n'.control.Sublist n.control ∧ n'.inputs ⊆ n.inputs ∧ n'.state = n.state ∧
    (n.kind ≠ .phi → n'.inputs = n.inputs) ∧ (n.kind.isMerge = false → n'.control = n.control) := by
  obtain ⟨n, hx, hkind, hfix⟩ := h.exists_node hsk hn
  refine ⟨n, hx, hkind, ?_⟩
  by_cases hk : n.kind.isFixed
  · obtain ⟨n'', hn'', -, hi, hs, hsub, -⟩ := h.fixed hsk hx hk (hfix hk)
    obtain rfl := Option.some.inj (hn.symm.trans hn'')
    refine ⟨hsub, hi ▸ List.Subset.refl _, hs, fun _ => hi, fun hm => ?_⟩
    have := h.other x n hx hfix hm fun hp => by rw [hp] at hk; cases hk
    obtain rfl := Option.some.inj (hn.symm.trans this)
    rfl
  rw [Bool.not_eq_true] at hk
  by_cases hp : n.kind = .phi
  · obtain ⟨m, hm, -⟩ := hsk.phis x n hx hp
    by_cases hr : g.Reached m
    · obtain ⟨nm, nm', n'', -, -, -, hn'', -, hc, hs, hi, -⟩ := h.phi hsk hx hp hm hr
      obtain rfl := Option.some.inj (hn.symm.trans hn'')
      exact ⟨by rw [hc, hm], hi, hs, fun hne => absurd hp hne, fun _ => by rw [hc, hm]⟩
    · have := h.other x n hx hfix (by rw [hp]; rfl) fun _ m' hc => by
        obtain rfl : m = m' := by simpa [hm] using hc
        exact hr
      obtain rfl := Option.some.inj (hn.symm.trans this)
      exact ⟨List.Sublist.refl _, List.Subset.refl _, rfl, fun _ => rfl, fun _ => rfl⟩
  · obtain rfl := Option.some.inj (hn.symm.trans (h.floating hx hk hp))
    exact ⟨List.Sublist.refl _, List.Subset.refl _, rfl, fun _ => rfl, fun _ => rfl⟩

theorem kind (hk : g.kind? m = some k) (hf : k.isFixed) (hr : g.Reached m) :
    g'.kind? m = some k := by
  obtain ⟨n, hn, rfl⟩ := kind?_eq_some.1 hk
  obtain ⟨n', hn', hk', -⟩ := h.fixed hsk hn hf hr
  exact kind?_eq_some.2 ⟨n', hn', hk'⟩

/-- The old node of a fixed one, with where its edges come from. -/
theorem old_fixed {n' : Node} (hn' : g'.node? m = some n') (hk : n'.kind.isFixed) :
    ∃ n, g.node? m = some n ∧ n'.kind = n.kind ∧
    n'.inputs = n.inputs ∧ n'.state = n.state ∧ n.kind.isFixed ∧ g.Reached m ∧
      n'.control.Sublist n.control ∧ ∀ q, q ∈ n'.control ↔ q ∈ n.control ∧ g.Reached q := by
  obtain ⟨n, hn, hk', hfix⟩ := h.exists_node hsk hn'
  rw [hk'] at hk
  obtain ⟨n'', hn'', h1, h2, h3, h4, h5⟩ := h.fixed hsk hn hk (hfix hk)
  obtain rfl := Option.some.inj (hn'.symm.trans hn'')
  exact ⟨n, hn, h1, h2, h3, hk, hfix hk, h4, h5⟩

/-- A merge that control gets to keeps the edge that it came over. -/
theorem control_pos {n' : Node} (hn' : g'.node? m = some n') (hk : n'.kind.isMerge) :
    0 < n'.control.length := by
  obtain ⟨n, hn, hk', -, -, -, ⟨π, hπ⟩, -, hmem⟩ :=
    h.old_fixed hsk hn' (NodeKind.isFixed_of_isMerge hk)
  cases hπ with
  | start =>
    rw [hk', kind?_of_node? hn hsk.start] at hk
    cases hk
  | @step q π _ hq hfo =>
    obtain ⟨n₁, hn₁, -, hq'⟩ := hfo
    obtain rfl := Option.some.inj (hn.symm.trans hn₁)
    exact List.length_pos_of_mem ((hmem q).2 ⟨hq', π, hq⟩)

theorem skeleton : g'.Skeleton := by
  refine ⟨?_, ?_, ?_, ?_, ?_, ?_⟩
  · exact h.kind hsk hsk.start rfl (reached_start g)
  · intro m n' hn' hk
    obtain ⟨n, hn, hk', -⟩ := h.exists_node hsk hn'
    exact hsk.only m n hn (hk' ▸ hk)
  · intro m n' x hn' hx
    obtain ⟨n, hn, -, hc, hi, hs, -⟩ := h.exists_old hsk hn'
    rw [h.size]
    refine hsk.below m n x hn ?_
    simp only [Node.edges, List.mem_append, hs] at hx ⊢
    rcases hx with (hx | hx) | hx
    · exact .inl (.inl (hi hx))
    · exact .inl (.inr (hc.subset hx))
    · exact .inr hx
  · intro m n' hn'
    obtain ⟨n, hn, hk, -, -, -, hi, hc⟩ := h.exists_old hsk hn'
    exact (hsk.arity m n hn).fewer hk hi hc fun hmerge => h.control_pos hsk hn' (hk ▸ hmerge)
  · intro m n' q hn' hk _ hq
    obtain ⟨n, hn, hk', -, -, hf, hr, -, hmem⟩ := h.old_fixed hsk hn' hk
    obtain ⟨hq, hrq⟩ := (hmem q).1 hq
    obtain ⟨k, h1, h2, h3⟩ := hsk.behind m n q hn hf hr hq
    exact ⟨k, h.kind hsk h1 h2 hrq, h2, hk' ▸ h3⟩
  · intro x n' hn' hk
    obtain ⟨n, hn, hk', -, -, -, -, hc⟩ := h.exists_old hsk hn'
    have hphi : n.kind = .phi := hk'.symm.trans hk
    obtain ⟨m, hm, hrest⟩ := hsk.phis x n hn hphi
    refine ⟨m, (hc (by rw [hphi]; rfl)).trans hm, fun nm' hnm' => ?_⟩
    obtain ⟨nm, hnm, hkm, -⟩ := h.exists_node hsk hnm'
    refine ⟨hkm ▸ (hrest nm hnm).1, fun hr => ?_⟩
    obtain ⟨-, nm'₁, n'₁, -, -, hnm'₁, hn'₁, -, -, -, -, hlen, -⟩ :=
      h.phi hsk hn hphi hm ((h.reached hsk).1 hr)
    obtain rfl := Option.some.inj (hnm'.symm.trans hnm'₁)
    obtain rfl := Option.some.inj (hn'.symm.trans hn'₁)
    exact hlen

theorem trim : g'.Trim := by
  intro m n' hn' hk
  obtain ⟨n, hn, -, -, -, hf, hr, -⟩ := h.old_fixed hsk hn' hk
  exact (h.reached hsk).2 hr

theorem openAt (ho : g.OpenAt []) : g'.OpenAt [] := by
  refine ⟨List.nodup_nil, by simp, fun m n' hn' hk _ _ => ?_⟩
  obtain ⟨n, hn, hk', -, -, hf, hr, -⟩ := h.old_fixed hsk hn' hk
  rw [hk']
  refine (ho.goesOn m n hn hf hr (by simp)).congr (fun s => ?_) fun s k hfo hk => ?_
  · rw [h.follows hsk]
    exact and_iff_left hr
  · obtain ⟨ns, hns, hfs, -⟩ := id hfo
    exact h.kind hsk hk (kind?_of_node? hns hk ▸ hfs) (hr.step hfo)

theorem orderly (ho : g.OpenAt []) : g'.Orderly := ⟨h.skeleton hsk, h.trim hsk, h.openAt hsk ho⟩

theorem keepsFrames : g.KeepsFrames g' := by
  intro x n' hn' hs
  obtain ⟨n, hn, hk, -, -, -, hi, -⟩ := h.exists_old hsk hn'
  refine ⟨x, n, hn, hk, congrArg _ (hi fun hphi => ?_)⟩
  rw [hk, hphi] at hs
  cases hs

omit hsk in
/-- What is left is put together well. -/
theorem wired (hw : g.Wired) : g'.Wired := by
  have hsk := hw.skeleton
  refine (h.skeleton hsk).wired ?_ ?_ ?_ ?_ ?_
  · intro m n' hn'
    obtain ⟨n, hn, hk, -, -, hs, hi, hc⟩ := h.exists_old hsk hn'
    exact (hw.counted m n hn).fewer hk hi hs hc fun hmerge => h.control_pos hsk hn' (hk ▸ hmerge)
  · intro m n' hn' hk
    obtain ⟨n, hn, -, -, -, hf, -, hsub, -⟩ := h.old_fixed hsk hn' hk
    exact hsub.nodup (hw.distinct m n hn hf)
  · intro m n' q x hn' hk _ hq hx
    obtain ⟨n, hn, -, hi, -, hf, hr, -, hmem⟩ := h.old_fixed hsk hn' hk
    obtain ⟨hq, hrq⟩ := (hmem q).1 hq
    exact h.available hsk hrq (hw.inputs m n q x hn hf hr hq (hi ▸ hx))
  · intro m n' q x hn' hk _ hq hx
    obtain ⟨n, hn, -, -, hs, hf, hr, -, hmem⟩ := h.old_fixed hsk hn' hk
    obtain ⟨hq, hrq⟩ := (hmem q).1 hq
    exact h.stateAvailable hsk hrq (hw.states m n q x hn hf hr hq (hs ▸ hx))
  · intro x n' m nm' hn' hk hc hnm' hr i q y hq hy
    obtain ⟨n, hn, hk', -, -, -, -, hc'⟩ := h.exists_old hsk hn'
    have hphi : n.kind = .phi := hk'.symm.trans hk
    have hm : n.control = [m] := (hc' (by rw [hphi]; rfl)).symm.trans hc
    have hr := (h.reached hsk).1 hr
    obtain ⟨nm, nm'₁, n'₁, hnm, hmerge, hnm'₁, hn'₁, -, -, -, -, -, halign⟩ :=
      h.phi hsk hn hphi hm hr
    obtain rfl := Option.some.inj (hnm'.symm.trans hnm'₁)
    obtain rfl := Option.some.inj (hn'.symm.trans hn'₁)
    obtain ⟨m', hm', hrest⟩ := hw.phis x n hn hphi
    obtain rfl : m = m' := by simpa [hm'] using hm.symm
    obtain ⟨-, havail⟩ := (hrest nm hnm).2 hr
    obtain ⟨j, hj, hj'⟩ := halign i q y hq hy
    obtain ⟨n₁, hn₁, hkm, -⟩ := h.exists_node hsk hnm'
    obtain rfl := Option.some.inj (hnm.symm.trans hn₁)
    obtain ⟨n₂, -, -, -, -, -, -, -, hmem⟩ :=
      h.old_fixed hsk hnm' (hkm ▸ NodeKind.isFixed_of_isMerge hmerge)
    exact h.available hsk ((hmem q).1 (List.mem_of_getElem? hq)).2 (havail j q y hj hj')

omit hsk in
theorem formed (hw : g.Wired) (ho : g.OpenAt []) (hframes : g.FramesCounted) : g'.Formed where
  wired := h.wired hw
  trim := h.trim hw.skeleton
  closed := h.openAt hw.skeleton ho
  frames := hframes.kept (h.keepsFrames hw.skeleton)

end Cut

theorem formed_cutUnreachable (hw : g.Wired) (ho : g.OpenAt []) (hframes : g.FramesCounted) :
    g.cutUnreachable.1.Formed :=
  (cut_cutUnreachable hw.skeleton).formed hw ho hframes

end Graph

end TieredEngine

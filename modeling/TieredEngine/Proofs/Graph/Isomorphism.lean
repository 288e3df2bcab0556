import TieredEngine.Graph.Text
import TieredEngine.Proofs.Graph.Traversal
import TieredEngine.Proofs.Graph.Verified
/-!
# Renumbered graphs have the same text

An isomorphism renumbers the nodes of a graph and keeps everything else. In a
tidy graph the canonical order is found by following edges alone, so it
commutes with renumbering (`IsIso.canonicalOrder_eq`), and a node's number in
the text is the same before and after. Hence isomorphic tidy graphs have the
same text: `IsIso.canonicalText_eq`.
-/

namespace TieredEngine

/-- The node with its edges renamed. -/
def Node.rename (f : NodeId → NodeId) (n : Node) : Node :=
  ⟨n.kind, n.inputs.map f, n.control.map f, n.state.map f⟩

@[simp]
theorem Node.kind_rename (f : NodeId → NodeId) (n : Node) : (n.rename f).kind = n.kind := rfl

theorem Node.dataEdges_rename (f : NodeId → NodeId) (n : Node) :
    (n.rename f).dataEdges = n.dataEdges.map f := by
  cases h : n.state <;> simp [rename, dataEdges, h]

/-! ## Traversals of renumbered graphs -/

section

variable {grow : List NodeId → List NodeId → List NodeId} {next next' : NodeId → List NodeId}
    {f : NodeId → NodeId}

theorem dropWhile_map_congr {p p' : NodeId → Bool} {agenda : List NodeId}
    (h : ∀ a ∈ agenda, p' (f a) = p a) :
    (agenda.map f).dropWhile p' = (agenda.dropWhile p).map f := by
  induction agenda with
  | nil => rfl
  | cons a agenda ih =>
    have ha := h a List.mem_cons_self
    have ih := ih fun b hb => h b (List.mem_cons_of_mem _ hb)
    cases hp : p a with
    | false =>
      rw [List.map_cons, List.dropWhile_cons_of_neg (by simp [ha, hp]),
        List.dropWhile_cons_of_neg (by simp [hp]), List.map_cons]
    | true =>
      rw [List.map_cons, List.dropWhile_cons_of_pos (by rw [ha, hp]),
        List.dropWhile_cons_of_pos hp, ih]

/-- What is visited was fresh, and is visited once. -/
theorem visit_nodup (fuel : ℕ) :
    ∀ {agenda fresh : List NodeId}, fresh.Nodup → (visit grow next fuel agenda fresh).Nodup ∧
      ∀ x ∈ visit grow next fuel agenda fresh, x ∈ fresh := by
  induction fuel with
  | zero => exact fun _ => ⟨List.nodup_nil, by simp [visit]⟩
  | succ fuel ih =>
    intro agenda fresh hn
    rw [visit]
    split
    · exact ⟨List.nodup_nil, by simp⟩
    · rename_i id rest hd
      obtain ⟨hnodup, hsub⟩ := @ih (grow rest (next id)) _ (hn.erase id)
      have hid : id ∈ fresh := by
        have := List.head?_dropWhile_not (fun id => !fresh.contains id) agenda
        rw [hd] at this
        simpa using this
      refine ⟨List.nodup_cons.2 ⟨fun h => hn.not_mem_erase (hsub id h), hnodup⟩, ?_⟩
      rintro x (_ | ⟨_, hx⟩)
      · exact hid
      · exact List.mem_of_mem_erase (hsub x hx)

/-- A traversal commutes with a renumbering of everything that it can come
to. -/
theorem visit_map {P : NodeId → Prop}
    (hgrow : ∀ rest new, grow (rest.map f) (new.map f) = (grow rest new).map f)
    (hmem : ∀ rest new x, x ∈ grow rest new ↔ x ∈ rest ∨ x ∈ new)
    (hf : ∀ x y, P x → P y → f x = f y → x = y) (hnext : ∀ x, P x → next' (f x) = (next x).map f)
    (hP : ∀ x, P x → ∀ y ∈ next x, P y) (fuel : ℕ) :
    ∀ (fuel' : ℕ) (agenda fresh fresh' : List NodeId), fresh.length ≤ fuel → fresh'.length ≤ fuel' →
      fresh.Nodup → fresh'.Nodup → (∀ a ∈ agenda, P a) → (∀ x, P x → (f x ∈ fresh' ↔ x ∈ fresh)) →
      visit grow next' fuel' (agenda.map f) fresh' = (visit grow next fuel agenda fresh).map f := by
  have hdrop : ∀ {agenda fresh fresh' : List NodeId}, (∀ a ∈ agenda, P a) →
      (∀ x, P x → (f x ∈ fresh' ↔ x ∈ fresh)) → ((agenda.map f).dropWhile fun id =>
      !fresh'.contains id) = (agenda.dropWhile fun id => !fresh.contains id).map f := by
    intro agenda fresh fresh' ha hfresh
    refine dropWhile_map_congr fun a hmem => ?_
    by_cases h : a ∈ fresh <;> simp [hfresh a (ha a hmem), h]
  induction fuel with
  | zero =>
    intro fuel' agenda fresh fresh' hl _ _ _ ha hfresh
    obtain rfl : fresh = [] := List.length_eq_zero_iff.1 (Nat.le_zero.1 hl)
    cases fuel' with
    | zero => rfl
    | succ fuel' =>
      have hnil : (agenda.dropWhile fun id => !([] : List NodeId).contains id) = [] :=
        List.dropWhile_eq_nil_iff.2 fun _ _ => rfl
      rw [visit, visit, hdrop ha hfresh, hnil]
      rfl
  | succ fuel ih =>
    intro fuel' agenda fresh fresh' hl hl' hn hn' ha hfresh
    rw [visit]
    cases hd : agenda.dropWhile fun id => !fresh.contains id with
    | nil =>
      cases fuel' with
      | zero => rfl
      | succ fuel' =>
        rw [visit, hdrop ha hfresh, hd]
        rfl
    | cons id rest =>
      have hsub : id :: rest ⊆ agenda := hd ▸ (List.dropWhile_suffix _).subset
      have hid : P id := ha id (hsub List.mem_cons_self)
      have hin : id ∈ fresh := by
        have := List.head?_dropWhile_not (fun id => !fresh.contains id) agenda
        rw [hd] at this
        simpa using this
      have hin' : f id ∈ fresh' := (hfresh id hid).2 hin
      have hlen := List.length_erase_of_mem hin
      have hlen' := List.length_erase_of_mem hin'
      have hpos' := List.length_pos_of_mem hin'
      obtain ⟨fuel', rfl⟩ : ∃ k, fuel' = k + 1 := ⟨fuel' - 1, by omega⟩
      rw [visit, hdrop ha hfresh, hd, List.map_cons]
      dsimp only
      rw [hnext id hid, hgrow, List.map_cons, List.cons_inj_right]
      refine ih fuel' _ _ _ (by omega) (by omega) (hn.erase _) (hn'.erase _) (fun a hmem' => ?_)
        fun x hx => ?_
      · rcases (hmem _ _ _).1 hmem' with h | h
        · exact ha a (hsub (List.mem_cons_of_mem _ h))
        · exact hP id hid a h
      · rw [hn'.mem_erase_iff, hn.mem_erase_iff, hfresh x hx]
        exact and_congr_left' (not_congr ⟨fun h => hf x id hx hid h, fun h => h ▸ rfl⟩)

end

namespace Graph

/-! ## Tidy graphs and isomorphisms -/

/-- The node `x` has a data or state edge to `y`. -/
def Uses (g : Graph) (x y : NodeId) : Prop := ∃ n, g.node? x = some n ∧ y ∈ n.dataEdges

/-- A verified graph without leftovers: branches have their two sides, control
gets to every fixed node, and every floating node is used by a fixed one,
directly or through others. -/
structure Tidy (g : Graph) : Prop where
  verified : g.verify = .ok ()
  sides : ∀ m, g.kind? m = some .branch → (∃ a ∈ g.successors m, g.kind? a = some .onTrue) ∧
    ∃ b ∈ g.successors m, g.kind? b = some .onFalse
  reached : ∀ m k, g.kind? m = some k → k.isFixed → g.Reached m
  used : ∀ x k, g.kind? x = some k → k.isFixed = false →
    ∃ m k', g.kind? m = some k' ∧ k'.isFixed ∧ Relation.TransGen g.Uses m x

/-- A bijection between the nodes of two graphs that keeps the start, the
kinds and all edges in their order. -/
structure IsIso (g g' : Graph) (f : NodeId → NodeId) : Prop where
  bijective : Set.BijOn f {x | g.contains x} {x | g'.contains x}
  start : f Graph.start = Graph.start
  node : ∀ x n, g.node? x = some n → g'.node? (f x) = some (n.rename f)

/-- Two graphs are the same but for the numbers of their nodes. -/
def Isomorphic (g g' : Graph) : Prop := ∃ f, IsIso g g' f

variable {g g' : Graph} {f : NodeId → NodeId} {x y m : NodeId} {n : Node}

theorem contains_of_edge (h : g.verify = .ok ()) (hn : g.node? x = some n) (hy : y ∈ n.edges) :
    g.contains y :=
  (verify_eq_ok_iff.1 h).clean x n hn y hy

theorem contains_of_dataEdge (h : g.verify = .ok ()) (hn : g.node? x = some n)
    (hy : y ∈ n.dataEdges) : g.contains y := by
  refine contains_of_edge h hn ?_
  simp only [Node.dataEdges, Node.edges, List.mem_append] at hy ⊢
  tauto

theorem control_of_mem_successors (hn : g.node? y = some n) (hy : y ∈ g.successors x) :
    x ∈ n.control := by
  obtain ⟨n', hn', -, hc⟩ := mem_successors.1 hy
  rw [Option.some.inj (hn.symm.trans hn')]
  exact hc

/-! ## The order of a tidy graph -/

theorem mem_floatingInputs :
    y ∈ g.floatingInputs x ↔ g.Uses x y ∧ ∃ k, g.kind? y = some k ∧ k.isFixed = false := by
  unfold floatingInputs Uses
  cases hn : g.node? x with
  | none => simp
  | some n =>
    cases hk : g.kind? y with
    | none => simp [hk]
    | some k => simp [hk]

theorem start_lt_size (h : g.verify = .ok ()) : start < g.nodes.size := by
  obtain ⟨n, hn, -⟩ := kind?_eq_some.1 (kind?_start_of_verify h)
  exact lt_size_of_node? hn

theorem fixed_of_mem_reachable (h : g.verify = .ok ()) (hm : m ∈ g.reachable) :
    ∃ k, g.kind? m = some k ∧ k.isFixed := by
  obtain ⟨π, hπ⟩ := (mem_reachable (start_lt_size h)).1 hm
  cases hπ with
  | start => exact ⟨.start, kind?_start_of_verify h, rfl⟩
  | step _ hf =>
    obtain ⟨n, hn, hk, -⟩ := hf
    exact ⟨n.kind, kind?_eq_some.2 ⟨n, hn, rfl⟩, hk⟩

/-- The floating nodes in the order in which they are numbered. -/
def floatingOrder (g : Graph) : List NodeId :=
  depthFirst g.floatingInputs (g.reachable.flatMap g.floatingInputs)
    (g.positions.filter fun id => !g.reachable.contains id)

/-- The floating nodes that are numbered are used by fixed ones. -/
theorem used_of_mem_floatingOrder (hr : ∀ m ∈ g.reachable, ∃ k, g.kind? m = some k ∧ k.isFixed)
    (hx : x ∈ g.floatingOrder) :
    ∃ m k, g.kind? m = some k ∧ k.isFixed ∧ Relation.TransGen g.Uses m x := by
  refine visit_sound
    (P := fun x => ∃ m k, g.kind? m = some k ∧ k.isFixed ∧ Relation.TransGen g.Uses m x)
    (fun _ _ _ => by rw [List.mem_append, or_comm]) ?_ _ _ _ ?_ x hx
  · rintro y ⟨m, k, hk, hfixed, hway⟩ z hz
    exact ⟨m, k, hk, hfixed, hway.tail (mem_floatingInputs.1 hz).1⟩
  · intro y hy
    obtain ⟨m, hm, hmy⟩ := List.mem_flatMap.1 hy
    obtain ⟨k, hk, hfixed⟩ := hr m hm
    exact ⟨m, k, hk, hfixed, .single (mem_floatingInputs.1 hmy).1⟩

namespace Tidy

variable (hg : g.Tidy)

include hg

theorem mem_reachable_iff : x ∈ g.reachable ↔ ∃ k, g.kind? x = some k ∧ k.isFixed := by
  constructor
  · exact fixed_of_mem_reachable hg.verified
  · rintro ⟨k, hk, hfixed⟩
    exact (mem_reachable (start_lt_size hg.verified)).2 (hg.reached x k hk hfixed)

theorem mem_floatingOrder_iff :
    x ∈ g.floatingOrder ↔ ∃ k, g.kind? x = some k ∧ k.isFixed = false := by
  have hmem : ∀ (rest new : List NodeId) (x : NodeId), x ∈ new ++ rest ↔ x ∈ rest ∨ x ∈ new :=
    fun _ _ _ => by
    rw [List.mem_append, or_comm]
  constructor
  · refine visit_sound hmem (P := fun x => ∃ k, g.kind? x = some k ∧ k.isFixed = false)
      (fun x _ y hy => ?_) _ _ _ (fun a ha => ?_) x
    · exact (mem_floatingInputs.1 hy).2
    · obtain ⟨m, -, hm⟩ := List.mem_flatMap.1 ha
      exact (mem_floatingInputs.1 hm).2
  · rintro ⟨k, hk, hfloating⟩
    obtain ⟨m, km, hm, hfixed, hway⟩ := hg.used x k hk hfloating
    have hfresh : ∀ {y ky}, g.kind? y = some ky → ky.isFixed = false →
        y ∈ g.positions.filter fun id => !g.reachable.contains id := by
      intro y ky hy hf
      obtain ⟨n, hn, -⟩ := kind?_eq_some.1 hy
      refine List.mem_filter.2 ⟨List.mem_range.2 (lt_size_of_node? hn), ?_⟩
      suffices y ∉ g.reachable by simpa using this
      rw [hg.mem_reachable_iff]
      rintro ⟨ky', hy', hf'⟩
      rw [Option.some.inj (hy.symm.trans hy'), hf'] at hf
      cases hf
    have hvisit : ∀ {y ky}, g.kind? y = some ky → ky.isFixed = false →
        (y ∈ g.reachable.flatMap g.floatingInputs ∨ ∃ z ∈ g.floatingOrder, y ∈ g.floatingInputs z) →
          y ∈ g.floatingOrder :=
      fun hy hf => visit_complete hmem _ _ _ (Nat.le_refl _) _ (hfresh hy hf)
    induction hway generalizing k with
    | single huse =>
      refine hvisit hk hfloating
        (.inl (List.mem_flatMap.2 ⟨m, ?_, mem_floatingInputs.2 ⟨huse, k, hk, hfloating⟩⟩))
      exact hg.mem_reachable_iff.2 ⟨km, hm, hfixed⟩
    | @tail y z _ huse ih =>
      -- the node before it is fixed, so that it is on the agenda, or floating,
      -- so that it was visited
      obtain ⟨ny, hny, -⟩ := id huse
      have hy : g.kind? y = some ny.kind := kind?_eq_some.2 ⟨ny, hny, rfl⟩
      have hz := mem_floatingInputs.2 ⟨huse, k, hk, hfloating⟩
      cases hfix : ny.kind.isFixed with
      | true =>
        exact hvisit hk hfloating
          (.inl (List.mem_flatMap.2 ⟨y, hg.mem_reachable_iff.2 ⟨_, hy, hfix⟩, hz⟩))
      | false => exact hvisit hk hfloating (.inr ⟨y, ih _ hy hfix, hz⟩)

omit hg in
/-- Whether a graph is tidy shows in its traversals. -/
theorem iff_traversals : g.Tidy ↔ g.verify = .ok () ∧
    (∀ e ∈ g.entries, e.2.kind = .branch → (∃ a ∈ g.successors e.1, g.kind? a = some .onTrue) ∧
      ∃ b ∈ g.successors e.1, g.kind? b = some .onFalse) ∧
    ∀ e ∈ g.entries, e.1 ∈ if e.2.kind.isFixed then g.reachable else g.floatingOrder := by
  constructor
  · intro hg
    refine ⟨hg.verified, fun e he hk => hg.sides e.1 (kind?_eq_some.2 ⟨e.2, mem_entries.1 he, hk⟩),
      fun e he => ?_⟩
    have hk : g.kind? e.1 = some e.2.kind := kind?_eq_some.2 ⟨e.2, mem_entries.1 he, rfl⟩
    split
    case isTrue hf => exact hg.mem_reachable_iff.2 ⟨_, hk, hf⟩
    case isFalse hf => exact hg.mem_floatingOrder_iff.2 ⟨_, hk, by simpa using hf⟩
  · rintro ⟨hverified, hsides, hmem⟩
    have hsize := start_lt_size hverified
    have hwhere : ∀ x k, g.kind? x = some k →
        x ∈ if k.isFixed then g.reachable else g.floatingOrder := by
      intro x k hk
      obtain ⟨n, hn, rfl⟩ := kind?_eq_some.1 hk
      exact hmem (x, n) (mem_entries.2 hn)
    refine ⟨hverified, fun m hm => ?_, fun m k hk hf => ?_, fun x k hk hf => ?_⟩
    · obtain ⟨n, hn, hk⟩ := kind?_eq_some.1 hm
      exact hsides (m, n) (mem_entries.2 hn) hk
    · have := hwhere m k hk
      rw [if_pos hf] at this
      exact (mem_reachable hsize).1 this
    · have := hwhere x k hk
      rw [hf, if_neg Bool.false_ne_true] at this
      exact used_of_mem_floatingOrder (fun m hm => fixed_of_mem_reachable hverified hm) this

omit hg in
instance : Decidable g.Tidy := decidable_of_iff _ iff_traversals.symm

/-- Nothing is left over for the end of the order. -/
theorem canonicalOrder_eq : g.canonicalOrder = g.reachable ++ g.floatingOrder := by
  have hrest : (g.nodeIds.filter fun id => !(g.reachable ++ g.floatingOrder).contains id) = [] := by
    refine List.filter_eq_nil_iff.2 fun x hx => ?_
    obtain ⟨⟨x, n⟩, he, rfl⟩ := List.mem_map.1 hx
    have hk : g.kind? x = some n.kind := kind?_eq_some.2 ⟨n, mem_entries.1 he, rfl⟩
    have hmem : x ∈ g.reachable ++ g.floatingOrder := by
      cases hf : n.kind.isFixed with
      | true => exact List.mem_append_left _ (hg.mem_reachable_iff.2 ⟨_, hk, hf⟩)
      | false => exact List.mem_append_right _ (hg.mem_floatingOrder_iff.2 ⟨_, hk, hf⟩)
    rw [List.contains_iff_mem.2 hmem]
    simp
  unfold canonicalOrder
  change (g.reachable ++ g.floatingOrder) ++
    (g.nodeIds.filter fun id => !(g.reachable ++ g.floatingOrder).contains id) = _
  rw [hrest, List.append_nil]

theorem mem_canonicalOrder_iff : x ∈ g.canonicalOrder ↔ g.contains x := by
  rw [hg.canonicalOrder_eq, List.mem_append, hg.mem_reachable_iff, hg.mem_floatingOrder_iff,
    contains_iff]
  constructor
  · rintro (⟨k, hk, -⟩ | ⟨k, hk, -⟩)
    all_goals
      obtain ⟨n, hn, -⟩ := kind?_eq_some.1 hk
      exact ⟨n, hn⟩
  · rintro ⟨n, hn⟩
    have hk : g.kind? x = some n.kind := kind?_eq_some.2 ⟨n, hn, rfl⟩
    cases hf : n.kind.isFixed with
    | true => exact .inl ⟨_, hk, hf⟩
    | false => exact .inr ⟨_, hk, hf⟩

theorem canonicalOrder_nodup : g.canonicalOrder.Nodup := by
  rw [hg.canonicalOrder_eq]
  have hpos : g.positions.Nodup := List.nodup_range
  refine List.nodup_append.2 ⟨(visit_nodup _ hpos).1, (visit_nodup _ (hpos.filter _)).1, ?_⟩
  rintro x hx _ hy rfl
  obtain ⟨k, hk, hf⟩ := hg.mem_reachable_iff.1 hx
  obtain ⟨k', hk', hf'⟩ := hg.mem_floatingOrder_iff.1 hy
  rw [← Option.some.inj (hk.symm.trans hk'), hf] at hf'
  cases hf'

end Tidy

/-! ## Isomorphic graphs -/

namespace IsIso

variable (h : IsIso g g' f)

include h

theorem injective (hx : g.contains x) (hy : g.contains y) (hxy : f x = f y) :
    x = y := h.bijective.injOn hx hy hxy

theorem kind (hx : g.contains x) : g'.kind? (f x) = g.kind? x := by
  obtain ⟨n, hn⟩ := contains_iff.1 hx
  rw [kind?, kind?, hn, h.node x n hn]
  rfl

theorem mem_successors_iff (hg : g.verify = .ok ()) (hx : g.contains x) (hy : g.contains y) :
    f y ∈ g'.successors (f x) ↔ y ∈ g.successors x := by
  obtain ⟨n, hn⟩ := contains_iff.1 hy
  simp only [mem_successors, h.node y n hn, hn, Option.some.injEq, exists_eq_left',
    Node.kind_rename]
  refine and_congr_right fun _ => ?_
  constructor
  · intro hmem
    obtain ⟨z, hz, hzx⟩ := List.mem_map.1 hmem
    have hcontains : g.contains z := contains_of_edge hg hn (by simp [Node.edges, hz])
    exact h.injective hcontains hx hzx ▸ hz
  · exact fun hmem => List.mem_map_of_mem hmem

/-- Control goes on to the renumbered nodes, in the same order. -/
theorem successors_eq (hg : g.Tidy) (hg' : g'.Tidy) (hx : ∃ k, g.kind? x = some k ∧ k.isFixed) :
    g'.successors (f x) = (g.successors x).map f := by
  obtain ⟨k, hk, hfixed⟩ := hx
  obtain ⟨n, hn, rfl⟩ := kind?_eq_some.1 hk
  have hx : g.contains x := contains_iff.2 ⟨n, hn⟩
  have hlen := length_successors_of_verify hg.verified hn hfixed
  have hlen' := length_successors_of_verify hg'.verified (h.node x n hn) hfixed
  have hcontains : ∀ {y}, y ∈ g.successors x → g.contains y := fun hy => by
    obtain ⟨ny, hny, -⟩ := mem_successors.1 hy
    exact contains_iff.2 ⟨ny, hny⟩
  have hmem : ∀ {y}, y ∈ g.successors x → f y ∈ g'.successors (f x) := fun hy =>
    (h.mem_successors_iff hg.verified hx (hcontains hy)).2 hy
  by_cases hb : n.kind = .branch
  · obtain ⟨⟨a, ha, hka⟩, b, hbmem, hkb⟩ := hg.sides x (hb ▸ hk)
    obtain ⟨na, hna, hkna⟩ := kind?_eq_some.1 hka
    obtain ⟨nb, hnb, hknb⟩ := kind?_eq_some.1 hkb
    rw [hb] at hlen
    rw [Node.kind_rename, hb] at hlen'
    have hca := control_of_mem_successors hna ha
    have hcb := control_of_mem_successors hnb hbmem
    rw [successors_eq_pair hna hnb hkna hknb hca hcb hlen, successors_eq_pair (h.node a na hna)
      (h.node b nb hnb) hkna hknb (List.mem_map_of_mem hca) (List.mem_map_of_mem hcb) hlen']
    rfl
  · rw [Node.kind_rename] at hlen'
    have hcount : successorCount n.kind = 0 ∨ successorCount n.kind = 1 := by
      unfold successorCount
      split <;> simp_all
    rcases hcount with hc | hc
    · rw [hc] at hlen hlen'
      rw [List.length_eq_zero_iff.1 hlen, List.length_eq_zero_iff.1 hlen', List.map_nil]
    · rw [hc] at hlen hlen'
      obtain ⟨y, hy⟩ := List.length_eq_one_iff.1 hlen
      rw [hy, successors_eq_singleton (hmem (hy ▸ List.mem_singleton_self y)) hlen']
      rfl

theorem reachable_eq (hg : g.Tidy) (hg' : g'.Tidy) : g'.reachable = g.reachable.map f := by
  let P : NodeId → Prop := fun x => ∃ k, g.kind? x = some k ∧ k.isFixed
  have hlive : ∀ {x}, P x → g.contains x := fun ⟨k, hk, _⟩ => by
    obtain ⟨n, hn, -⟩ := kind?_eq_some.1 hk
    exact contains_iff.2 ⟨n, hn⟩
  have hagenda : [Graph.start] = [Graph.start].map f := by rw [List.map_singleton, h.start]
  unfold reachable breadthFirst
  nth_rewrite 1 [hagenda]
  refine visit_map (P := P) (by simp) (by simp) (fun x y hx hy => ?_)
    (fun x hx => ?_) (fun x hx y hy => ?_) _ _ _ _ _ (Nat.le_refl _)
    (Nat.le_refl _) List.nodup_range List.nodup_range (fun a ha => ?_) fun x hx => ?_
  · exact h.injective (hlive hx) (hlive hy)
  · simpa using h.successors_eq hg hg' hx
  · obtain ⟨n, hn, hk, -⟩ := mem_successors.1 (by simpa using hy)
    exact ⟨n.kind, kind?_eq_some.2 ⟨n, hn, rfl⟩, hk⟩
  · obtain rfl := List.mem_singleton.1 ha
    exact ⟨.start, kind?_start_of_verify hg.verified, rfl⟩
  · obtain ⟨n, hn⟩ := contains_iff.1 (hlive hx)
    simp [positions, lt_size_of_node? hn, lt_size_of_node? (h.node x n hn)]

theorem floatingInputs_eq (hg : g.verify = .ok ()) (hx : g.contains x) :
    g'.floatingInputs (f x) = (g.floatingInputs x).map f := by
  obtain ⟨n, hn⟩ := contains_iff.1 hx
  simp only [floatingInputs, hn, h.node x n hn, Node.dataEdges_rename, List.filter_map]
  congr 1
  refine List.filter_congr fun y hy => ?_
  simp only [Function.comp_apply, h.kind (contains_of_dataEdge hg hn hy)]

theorem floatingOrder_eq (hg : g.Tidy) (hg' : g'.Tidy) :
    g'.floatingOrder = g.floatingOrder.map f := by
  let P : NodeId → Prop := fun x => g.contains x
  have hfloating : ∀ {x y}, y ∈ g.floatingInputs x → P y := by
    intro x y hy
    obtain ⟨-, k, hk, -⟩ := mem_floatingInputs.1 hy
    obtain ⟨n, hn, -⟩ := kind?_eq_some.1 hk
    exact contains_iff.2 ⟨n, hn⟩
  have hagenda :
      g'.reachable.flatMap g'.floatingInputs = (g.reachable.flatMap g.floatingInputs).map f := by
    rw [h.reachable_eq hg hg', List.flatMap_map, List.map_flatMap]
    refine List.flatMap_congr fun x hx => h.floatingInputs_eq hg.verified ?_
    obtain ⟨k, hk, -⟩ := hg.mem_reachable_iff.1 hx
    obtain ⟨n, hn, -⟩ := kind?_eq_some.1 hk
    exact contains_iff.2 ⟨n, hn⟩
  unfold floatingOrder depthFirst
  rw [hagenda]
  refine visit_map (P := P) (by simp) (by simp [or_comm]) (fun x y hx hy => h.injective hx hy)
    (fun x hx => h.floatingInputs_eq hg.verified hx) (fun x _ y hy => hfloating hy)
    _ _ _ _ _ (Nat.le_refl _) (Nat.le_refl _) (List.nodup_range.filter _)
    (List.nodup_range.filter _) (fun a ha => ?_) fun x hx => ?_
  · obtain ⟨m, -, hm⟩ := List.mem_flatMap.1 ha
    exact hfloating hm
  · obtain ⟨n, hn⟩ := contains_iff.1 hx
    have hfixed : f x ∈ g'.reachable ↔ x ∈ g.reachable := by
      rw [hg.mem_reachable_iff, hg'.mem_reachable_iff, h.kind hx]
    simp [positions, lt_size_of_node? hn, lt_size_of_node? (h.node x n hn), hfixed]

theorem canonicalOrder_eq (hg : g.Tidy) (hg' : g'.Tidy) :
    g'.canonicalOrder = g.canonicalOrder.map f := by
  rw [hg.canonicalOrder_eq, hg'.canonicalOrder_eq, h.reachable_eq hg hg', h.floatingOrder_eq hg hg',
    List.map_append]

end IsIso

/-! ## Texts -/

theorem numberIn_map {order : List NodeId} (hf : ∀ y ∈ order, f y = f x → y = x) :
    numberIn (order.map f) (f x) = numberIn order x := by
  have hidx : (order.map f).idxOf? (f x) = order.idxOf? x := by
    induction order with
    | nil => rfl
    | cons y order ih =>
      have ih := ih fun z hz => hf z (List.mem_cons_of_mem _ hz)
      have hy : f y = f x ↔ y = x := ⟨hf y List.mem_cons_self, fun h => h ▸ rfl⟩
      simp only [List.map_cons, List.idxOf?_cons, ih, beq_eq_decide, hy]
  unfold numberIn
  rw [hidx]

theorem nodeLine_rename {order : List NodeId} (hf : ∀ x ∈ n.edges, ∀ y ∈ order, f y = f x → y = x) :
    nodeLine (order.map f) (n.rename f) = nodeLine order n := by
  have hmap : ∀ ids, ids ⊆ n.edges →
      (ids.map f).map (numberIn (order.map f)) = ids.map (numberIn order) := by
    intro ids hsub
    rw [List.map_map]
    exact List.map_congr_left fun x hx => numberIn_map (hf x (hsub hx))
  have hinputs := hmap n.inputs fun x hx => by simp [Node.edges, hx]
  have hcontrol := hmap n.control fun x hx => by simp [Node.edges, hx]
  unfold nodeLine numberList
  cases hs : n.state with
  | none => simp only [Node.rename, hs, Option.map_none, List.isEmpty_map, hinputs, hcontrol]
  | some s =>
    have hstate : numberIn (order.map f) (f s) = numberIn order s :=
      numberIn_map (hf s (by simp [Node.edges, hs]))
    simp only [Node.rename, hs, Option.map_some, List.isEmpty_map, hinputs, hcontrol, hstate]

/-- One line of the text. -/
def canonicalLine (g : Graph) (order : List NodeId) (id : NodeId) : String :=
  numberIn order id ++ " " ++ ((g.node? id).map (nodeLine order)).getD "" ++ "\n"

theorem mapM_eq_ok {ε α β : Type} {u : α → Except ε β} {v : α → β} {xs : List α}
    (h : ∀ x ∈ xs, u x = .ok (v x)) :
    xs.mapM u = .ok (xs.map v) := by
  induction xs with
  | nil => rfl
  | cons x xs ih =>
    rw [List.mapM_cons, h x List.mem_cons_self, ih fun y hy => h y (List.mem_cons_of_mem _ hy)]
    rfl

/-- A tidy graph has a text. -/
theorem Tidy.canonicalText_eq (hg : g.Tidy) :
    g.canonicalText =
      .ok (String.join (g.canonicalOrder.map (g.canonicalLine g.canonicalOrder))) := by
  unfold canonicalText
  dsimp only
  rw [mapM_eq_ok (v := g.canonicalLine g.canonicalOrder) fun x hx => ?_]
  · rfl
  · obtain ⟨n, hn⟩ := contains_iff.1 (hg.mem_canonicalOrder_iff.1 hx)
    simp only [nodeAt, hn, canonicalLine, Option.map_some, Option.getD_some]
    rfl

/-- Isomorphic tidy graphs have the same text. -/
theorem IsIso.canonicalText_eq (h : IsIso g g' f) (hg : g.Tidy) (hg' : g'.Tidy) :
    g'.canonicalText = g.canonicalText := by
  rw [hg.canonicalText_eq, hg'.canonicalText_eq, h.canonicalOrder_eq hg hg', List.map_map]
  congr 2
  refine List.map_congr_left fun x hx => ?_
  have hin : ∀ {y}, y ∈ g.canonicalOrder → g.contains y := hg.mem_canonicalOrder_iff.1
  obtain ⟨n, hn⟩ := contains_iff.1 (hin hx)
  simp only [Function.comp_apply, canonicalLine, hn, h.node x n hn, Option.map_some,
    Option.getD_some]
  rw [numberIn_map fun y hy => h.injective (hin hy) (hin hx), nodeLine_rename]
  exact fun y hy z hz => h.injective (hin hz) (contains_of_edge hg.verified hn hy)

end Graph

end TieredEngine

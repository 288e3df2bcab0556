import TieredEngine.Proofs.Specialize.Operations
/-!
# Joins

Several paths of a routine become one: a merge, a phi for every value that
differs, and the facts that all paths share.
-/

namespace TieredEngine

namespace Specialize

variable {X : Setting} {g g₁ g' whole : Graph} {ρ ρ₀ ρ' : Bindings}

/-- Where spots are the same moment, what is left is the same. -/
theorem Setting.continues_of_moment {S T : Spot} {k : ℕ} (hg : T.Good whole X.arguments ρ')
    (hm : ∀ w, T.moment (valueAt whole X.arguments ρ') w = S.moment (valueAt whole X.arguments ρ) w)
    (hc : T.callers = S.callers)
    (hv : ∀ c ∈ S.callers, ∀ x ∈ c.frame.nodes,
        valueAt whole X.arguments ρ x = valueAt whole X.arguments ρ' x)
    (hd : T.depth + k ≤ S.depth) : (X.point whole S).Continues (X.point whole T) k ρ ρ' := by
  refine ⟨hg, fun w o hw => ⟨w, ⟨hw.1, ?_⟩, by simp only [Setting.point]; omega⟩⟩
  obtain ⟨j, o₁, h1, h2, h3⟩ := hw.2
  exact ⟨j, o₁, by rw [hm, h1], h2, hc ▸ h3.congr hv⟩

/-! ## Joined values -/

/-- The value of a join: what all paths have in common, or a phi at or above
`lo`. -/
def Joins (lo : NodeId) (g : Graph) (merge : NodeId) (column : List NodeId) (x : NodeId) : Prop :=
  (∀ y ∈ column, y = x) ∨
    (lo ≤ x ∧ g.node? x = some { kind := .phi, inputs := column, control := [merge] })

/-- What joining some columns of values appends. -/
structure Joined (merge : NodeId) (g g' : Graph) (columns : List (List NodeId)) (xs : List NodeId) :
    Prop where
  size : g.nodes.size ≤ g'.nodes.size
  old : ∀ id < g.nodes.size, g'.node? id = g.node? id
  new : ∀ id n, g.nodes.size ≤ id → g'.node? id = some n →
    ∃ column ∈ columns, n = { kind := .phi, inputs := column, control := [merge] }
  joins : List.Forall₂ (Joins g.nodes.size g' merge) columns xs

theorem Joined.refl (merge : NodeId) (g : Graph) : Joined merge g g [] [] where
  size := Nat.le_refl _
  old _ _ := rfl
  new _ _ h hn := absurd (Graph.lt_size_of_node? hn) (Nat.not_lt.2 h)
  joins := .nil

/-- One more column. -/
theorem Joined.concat {merge x : NodeId} {columns : List (List NodeId)} {xs column : List NodeId}
    {b b' : Building} (h : Joined merge g b.graph columns xs)
    (hrun : (joinValues merge column).run b = .ok (x, b')) :
    b'.returns = b.returns ∧ Joined merge g b'.graph (columns ++ [column]) (xs ++ [x]) := by
  have hphi : ∀ {x b'},
      (addNode { kind := .phi, inputs := column, control := [merge] }).run b = .ok (x, b') →
      b'.returns = b.returns ∧ Joined merge g b'.graph (columns ++ [column]) (xs ++ [x]) := by
    intro x b' hrun
    obtain ⟨rfl, rfl⟩ := run_addNode hrun
    have hold : ∀ id < b.graph.nodes.size,
        (b.push { kind := .phi, inputs := column, control := [merge] }).graph.node? id =
        b.graph.node? id := fun id hid => by rw [Building.node?_push, if_neg (Nat.ne_of_lt hid)]
    refine ⟨rfl, h.size.trans (by simp), fun id hid => ?_, fun id n hid hn => ?_,
      List.rel_append (h.joins.imp ?_) (.cons ?_ .nil)⟩
    · rw [hold id (hid.trans_le h.size), h.old id hid]
    · rw [Building.node?_push] at hn
      split at hn
      · cases hn
        exact ⟨column, by simp, rfl⟩
      · obtain ⟨c, hc, rfl⟩ := h.new id n hid hn
        exact ⟨c, by simp [hc], rfl⟩
    · intro c y hy
      refine hy.imp_right fun hy => ⟨hy.1, ?_⟩
      rw [hold y (Graph.lt_size_of_node? hy.2), hy.2]
    · exact .inr ⟨h.size, by rw [Building.node?_push, if_pos rfl]⟩
  unfold joinValues at hrun
  split at hrun
  · exact hphi hrun
  · split at hrun
    · obtain ⟨rfl, rfl⟩ := run_pure hrun
      refine ⟨rfl, h.size, h.old, fun id n hid hn => ?_,
        List.rel_append h.joins (.cons (.inl ?_) .nil)⟩
      · obtain ⟨c, hc, rfl⟩ := h.new id n hid hn
        exact ⟨c, by simp [hc], rfl⟩
      · intro y hy
        rcases List.mem_cons.1 hy with rfl | hy
        · rfl
        · have := List.all_eq_true.1 ‹_› y hy
          simpa using this
    · exact hphi hrun

/-- Behind a merge, a joined value is what came in over the edge. -/
theorem Joins.denotes {arguments : List Value} {lo merge x y : NodeId} {column : List NodeId}
    {i : ℕ} (h : Joins lo g' merge column x)
    (hnew : ∀ id n, lo ≤ id → g'.node? id = some n → whole.node? id = some n)
    (hy : column[i]? = some y) (hk : Known whole arguments ρ y) (hle : ρ.Le ρ')
    (hset : PhisSet whole arguments ρ ρ' merge i) : Denotes whole arguments ρ' x
      (valueAt whole arguments ρ y) := by
  rcases h with h | h
  · obtain rfl := h y (List.mem_of_getElem? hy)
    exact hk.denotes.mono hle
  · have hn := hnew x _ h.1 h.2
    exact .register hn rfl (hset x _ y hn rfl rfl hy)

theorem Facts.mem_of_common {first : Facts} {others : List Facts} {fact : NodeId × ValueType}
    (h : fact ∈ Facts.common first others) : ∀ facts ∈ first :: others, fact ∈ facts := by
  obtain ⟨h1, h2⟩ := List.mem_filter.1 h
  simp only [Bool.and_eq_true, decide_eq_true_eq, List.all_eq_true] at h2
  intro facts hf
  rcases List.mem_cons.1 hf with rfl | hf
  · exact h1
  · exact mem_of_lookup (h2.2 facts hf)

/-- Several more columns. -/
theorem Joined.append {ι : Type} {merge : NodeId} {column : ι → List NodeId} (is : List ι) :
    ∀ {columns : List (List NodeId)} {xs ys : List NodeId} {b b' : Building},
      Joined merge g b.graph columns xs →
      (is.mapM fun i => joinValues merge (column i)).run b = .ok (ys, b') →
      b'.returns = b.returns ∧ Joined merge g b'.graph (columns ++ is.map column) (xs ++ ys) := by
  induction is with
  | nil =>
    intro columns xs ys b b' h hrun
    rw [List.mapM_nil] at hrun
    obtain ⟨rfl, rfl⟩ := run_pure hrun
    simpa using h
  | cons i is ih =>
    intro columns xs ys b b' h hrun
    rw [List.mapM_cons] at hrun
    obtain ⟨y, b₁, h1, h2⟩ := run_bind hrun
    obtain ⟨ys', b₂, h3, h4⟩ := run_bind h2
    obtain ⟨rfl, rfl⟩ := run_pure h4
    obtain ⟨h5, h6⟩ := h.concat h1
    obtain ⟨h7, h8⟩ := ih h6 h3
    exact ⟨h7.trans h5, by simpa using h8⟩

theorem forall₂_of_common {α β γ : Type} {P : α → β → Prop} {Q : α → γ → Prop} {R : β → γ → Prop}
    {cs : List α} {xs : List β} {ys : List γ} (h : List.Forall₂ P cs xs) (h' : List.Forall₂ Q cs ys)
    (hR : ∀ c x, ∀ y ∈ ys, P c x → Q c y → R x y) : List.Forall₂ R xs ys := by
  induction h generalizing ys with
  | nil => cases h'; exact .nil
  | cons h1 _ ih =>
    cases h' with
    | cons h2 h3 =>
      exact .cons (hR _ _ _ List.mem_cons_self h1 h2)
        (ih h3 fun c x y hy => hR c x y (List.mem_cons_of_mem _ hy))

/-- The columns of a join, one for the value and one for each local slot. -/
def columnsOf (arrivals : List Arrival) (slots : ℕ) : List (List NodeId) :=
  arrivals.map Arrival.value :: (List.range slots).map fun slot => arrivals.filterMap fun a =>
    a.path.locals[slot]?

/-- Every arrival has the slot. -/
theorem filterMap_locals {arrivals : List Arrival} {n j : ℕ}
    (hl : ∀ a ∈ arrivals, a.path.locals.length = n) (hj : j < n) :
    arrivals.filterMap (fun a => a.path.locals[j]?) = arrivals.map fun a =>
      (a.path.locals[j]?).getD 0 := by
  rw [← List.filterMap_eq_map]
  refine List.filterMap_congr fun x hx => ?_
  have : j < x.path.locals.length := by rw [hl x hx]; exact hj
  simp [this]

/-- The rows of the columns are what the arrivals have. -/
theorem row_of_columns {arrivals : List Arrival} {n : ℕ}
    (hl : ∀ a ∈ arrivals, a.path.locals.length = n) {i : ℕ} {a : Arrival}
    (ha : arrivals[i]? = some a) :
    List.Forall₂ (fun (column : List NodeId) y => column[i]? = some y) (columnsOf arrivals n)
      (a.value :: a.path.locals) := by
  refine .cons (by simp [ha])
    (List.forall₂_iff_get.2 ⟨by simp [hl a (List.mem_of_getElem? ha)], fun j h1 h2 => ?_⟩)
  have hj : j < n := by simpa using h1
  simp only [List.get_eq_getElem, List.getElem_map, List.getElem_range, filterMap_locals hl hj,
    List.getElem?_map, ha]
  simp [show j < a.path.locals.length from h2]

namespace Scope

variable {s : Scope X} {ss : List NodeSlot} {p p' : Path} {b : Building} {facts facts' : Facts}

/-- Frames with the same values are the same. -/
theorem frame_congr (ss : List NodeSlot) (p p' : Path) {f f' : NodeId → Value}
    (hx : ∀ x, x ∈ s.context.arguments ∨ x ∈ pendingNodes ss → f' x = f x)
    (hl : p'.locals.map f' = p.locals.map f) : (s.frame ss p').slots f' = (s.frame ss p).slots f ∧
      ∀ w, (s.frame ss p').activation f' w = (s.frame ss p).activation f w := by
  refine ⟨List.map_congr_left fun t ht => ?_, fun w => ?_⟩
  · have : t.pending.map f' = t.pending.map f := List.map_congr_left fun x hxt =>
      hx x (.inr (List.mem_flatMap.2 ⟨t, ht, hxt⟩))
    rw [NodeSlot.slot, NodeSlot.slot, this]
  · have : s.context.arguments.map f' = s.context.arguments.map f :=
      List.map_congr_left fun x hxa => hx x (.inl hxa)
    simp only [NodeFrame.activation, Scope.frame, this, hl]

/-- Control comes to a join over one of its edges. -/
theorem continues_join {arrivals : List Arrival} {n : ℕ}
    (hl : ∀ a ∈ arrivals, a.path.locals.length = n) {lo merge value : NodeId} {locals : List NodeId}
    {common : Facts} (hc : ∀ fact ∈ common, ∀ a ∈ arrivals, fact ∈ a.path.facts)
    (hnew : ∀ id n, lo ≤ id → g'.node? id = some n → whole.node? id = some n)
    (hphis : ∀ id p, whole.node? id = some p → p.kind = .phi → p.control = [merge] →
        p.inputs ∈ columnsOf arrivals n)
    (hj : List.Forall₂ (Joins lo g' merge) (columnsOf arrivals n) (value :: locals)) {i : ℕ}
    {a : Arrival} (ha : arrivals[i]? = some a) (hρ : (s.arrive ss a).2.Good whole X.arguments ρ) :
    PhisReady whole X.arguments ρ merge i ∧ ∀ ρ', ρ.Le ρ' → PhisSet whole X.arguments ρ ρ' merge i →
      (X.point whole (s.arrive ss a).2).Continues
        (X.point whole (s.arrive ss ⟨value, merge, locals, common⟩).2) 0 ρ ρ' := by
  have hrow := row_of_columns hl ha
  have hknown : ∀ y ∈ a.value :: a.path.locals, Known whole X.arguments ρ y := by
    intro y hy
    refine hρ.known y (mem_nodes.2 ?_)
    rcases List.mem_cons.1 hy with rfl | hy
    · exact .inr (.inr (.inr (.inl (by simp [Doing.nodes]))))
    · exact .inr (.inl hy)
  refine ⟨fun x p hx hk hm => ?_, fun ρ' hle hset => ?_⟩
  · obtain ⟨y, hy, h1⟩ := forall₂_exists_of_mem hrow (hphis x p hx hk hm)
    exact ⟨y, h1, hknown y hy⟩
  have hden : List.Forall₂
      (fun x y => Denotes whole X.arguments ρ' x (valueAt whole X.arguments ρ y))
      (value :: locals) (a.value :: a.path.locals) :=
    forall₂_of_common hj hrow fun c x y hy hx hcy => hx.denotes hnew hcy (hknown y hy) hle hset
  obtain ⟨hvalue, hlocals⟩ := List.forall₂_cons.1 hden
  have hmap : locals.map (valueAt whole X.arguments ρ') =
      a.path.locals.map (valueAt whole X.arguments ρ) := by
    rw [← List.forall₂_eq_eq_eq, List.forall₂_map_left_iff, List.forall₂_map_right_iff]
    exact hlocals.imp fun _ _ h => h.valueAt_eq
  have hsame : ∀ x ∈ (s.arrive ss a).2.nodes, valueAt whole X.arguments ρ' x = valueAt whole
      X.arguments ρ x := fun x hx => (hρ.known x hx).valueAt_mono hle
  refine Setting.continues_of_moment ?_ (fun w => ?_) rfl
    (fun c hc x hx => (hsame x (mem_nodes.2 ?_)).symm) (Nat.le_refl _)
  · refine good_of (hρ.mono hle) (fun x hx => ?_) fun fact hfact =>
      .inl (hc fact hfact a (List.mem_of_getElem? ha))
    rcases hx with hx | hx | hx
    · obtain ⟨y, -, h⟩ := forall₂_exists_of_mem hlocals hx
      exact .inr ⟨_, h⟩
    · exact .inl (mem_nodes.2 (.inr (.inr (.inl hx))))
    · obtain rfl : x = value := by simpa [Doing.nodes] using hx
      exact .inr ⟨_, hvalue⟩
  · obtain ⟨h1, h2⟩ := frame_congr (s := s) ss a.path ⟨merge, locals, common⟩
      (fun x hx => hsame x (mem_nodes.2 (by tauto))) hmap
    simp only [arrive, tip, spot, spotOn, Spot.moment, h1, h2, hvalue.valueAt_eq]
  · exact .inr (.inr (.inr (.inr ⟨c, hc, hx⟩)))

/-- Several paths become one. -/
theorem builds_join {arrivals : List Arrival} {n : ℕ}
    (hl : ∀ a ∈ arrivals, a.path.locals.length = n) :
    s.Builds (arrivals.map (s.arrive ss)) b (join arrivals)
      (fun o => ∀ a ∈ o, a.path.locals.length = n)
      fun o => o.toList.map (s.arrive ss) := by
  unfold join
  match arrivals, hl with
  | [], _ => exact .pure rfl (by simp)
  | [a], hl => exact .pure rfl (by simpa using hl)
  | first :: second :: rest, hl =>
    dsimp only
    generalize harr : first :: second :: rest = arrivals at hl ⊢
    have hfirst : first.path.locals.length = n := hl first (by simp [← harr])
    intro hn hb o b' hrun
    obtain ⟨merge, b₁, h1, h2⟩ := run_bind hrun
    obtain ⟨rfl, rfl⟩ := run_addNode h1
    obtain ⟨value, b₂, h3, h4⟩ := run_bind h2
    obtain ⟨locals, b₃, h5, h6⟩ := run_bind h4
    obtain ⟨rfl, rfl⟩ := run_pure h6
    obtain ⟨h7, h8⟩ := (Joined.refl b.graph.nodes.size _).concat h3
    obtain ⟨h9, h10⟩ := h8.append _ h5
    rw [hfirst] at h10
    refine ⟨fun a ha => ?_, [], by simp [h9, h7], by simp, ?_⟩
    · cases ha
      simpa [hfirst] using h10.joins.length_eq.symm
    have hsize := h10.size
    rw [Building.size_push] at hsize
    have hkeys : keys (arrivals.map (s.arrive ss)) = arrivals.map fun a => a.path.control := by
      simp [keys, arrive, tip]
    refine Emits.merge .merge rfl (by simp) hn hb (by rw [hkeys]; rfl) h10.size h10.old
      (fun id n hid hn => ?_) fun whole hf i e he ρ hρ => ?_
    · obtain ⟨column, -, rfl⟩ := h10.new id n hid hn
      exact ⟨rfl, rfl⟩
    · obtain ⟨a, ha, rfl⟩ : ∃ a, arrivals[i]? = some a ∧ s.arrive ss a = e := by simpa using he
      refine continues_join hl (fun fact hfact a ha => ?_) (fun id n hid hn => ?_)
        (fun id p hid hk hc => ?_) h10.joins ha hρ
      · subst harr
        refine Facts.mem_of_common hfact a.path.facts ?_
        rcases List.mem_cons.1 ha with rfl | ha
        · exact List.mem_cons_self
        · exact List.mem_cons_of_mem _ (List.mem_map_of_mem ha)
      · rw [Building.size_push] at hid
        rw [hf.new id (by grind) (Graph.lt_size_of_node? hn), hn]
      · obtain ⟨h11, h12, -⟩ := hf.phi_of_merge (Nat.lt_of_succ_le hsize) hid hk (by rw [hc]; rfl)
        rw [hf.new id (Nat.le_of_lt h11) h12] at hid
        obtain ⟨column, hmem, rfl⟩ := h10.new id p (by rw [Building.size_push]; exact h11) hid
        exact hmem

end Scope

end Specialize

end TieredEngine

import TieredEngine.Proofs.Specialize.Branches
/-!
# Loops

A loop gets a header with one phi for every local slot before its condition
and body are known. When the body ends, the header gets an edge back and every
phi one more input, the only changes ever made to nodes that stand. The spot
at the header is the loop before its condition is evaluated, with the phis as
local slots, so the way in and the way back lead to the same spot.
-/

namespace TieredEngine

namespace Specialize

open Interpreter (Step)

/-! ## Headers and their phis -/

/-- The phi of a local slot in a loop that is open. -/
def openPhi (header v : NodeId) : Node := { kind := .phi, inputs := [v], control := [header] }

/-- Phis for some values have been appended. -/
structure Opened (header : NodeId) (g g' : Graph) (vs : List NodeId) : Prop where
  size : g'.nodes.size = g.nodes.size + vs.length
  old : ∀ id < g.nodes.size, g'.node? id = g.node? id
  phi : ∀ (j : ℕ) v, vs[j]? = some v → g'.node? (g.nodes.size + j) = some (openPhi header v)

theorem run_phis {header : NodeId} (vs : List NodeId) :
    ∀ {b b' : Building} {phis : List NodeId},
      (vs.mapM fun v => addNode { kind := .phi, inputs := [v], control := [header] }).run b =
      .ok (phis, b') → b'.returns = b.returns ∧ phis = List.range' b.graph.nodes.size vs.length ∧
      Opened header b.graph b'.graph vs := by
  induction vs with
  | nil =>
    intro b b' phis h
    rw [List.mapM_nil] at h
    obtain ⟨rfl, rfl⟩ := run_pure h
    exact ⟨rfl, rfl, by simp, fun _ _ => rfl, by simp⟩
  | cons v vs ih =>
    intro b b' phis h
    rw [List.mapM_cons] at h
    obtain ⟨phi, b₁, h1, h2⟩ := run_bind h
    obtain ⟨rfl, rfl⟩ := run_addNode h1
    obtain ⟨phis', b₂, h3, h4⟩ := run_bind h2
    obtain ⟨rfl, rfl⟩ := run_pure h4
    obtain ⟨h5, rfl, h6⟩ := ih h3
    have hs := h6.size
    have hold := h6.old
    have hphi := h6.phi
    simp only [Building.size_push] at hs hold hphi
    refine ⟨h5, by simp [List.range'_succ], by rw [hs, List.length_cons]; omega, fun id hid => ?_,
      fun j x hx => ?_⟩
    · rw [hold id (hid.trans (Nat.lt_succ_self _)), Building.node?_push, if_neg (Nat.ne_of_lt hid)]
    · cases j with
      | zero =>
        obtain rfl : v = x := by simpa using hx
        rw [Nat.add_zero, hold _ (Nat.lt_succ_self _), Building.node?_push, if_pos rfl]
        rfl
      | succ j =>
        have := hphi j x (by simpa using hx)
        rwa [Nat.add_right_comm] at this

/-- The phi with one more input. -/
def feed (v : NodeId) (n : Node) : Node := { n with inputs := n.inputs ++ [v] }

/-- Feeding consecutive phis changes just these. -/
theorem node?_feed (vs : List NodeId) : ∀ (k : NodeId) (g : Graph),
    (((List.range' k vs.length).zip vs).foldl (fun g u => g.modify u.1 (feed u.2)) g).nodes.size =
      g.nodes.size ∧
    (∀ id, id < k ∨ k + vs.length ≤ id →
      (((List.range' k vs.length).zip vs).foldl (fun g u => g.modify u.1 (feed u.2)) g).node? id =
        g.node? id) ∧
    ∀ (j : ℕ) v, vs[j]? = some v →
      (((List.range' k vs.length).zip vs).foldl (fun g u => g.modify u.1 (feed u.2)) g).node?
        (k + j) =
        (g.node? (k + j)).map (feed v) := by
  induction vs with
  | nil => intro k g; simp
  | cons v vs ih =>
    intro k g
    obtain ⟨h1, h2, h3⟩ := ih (k + 1) (g.modify k (feed v))
    rw [List.length_cons, List.range'_succ, List.zip_cons_cons, List.foldl_cons]
    dsimp only
    refine ⟨by rw [h1, Graph.size_modify], fun id hid => ?_, fun j x hx => ?_⟩
    · rw [h2 id (by grind), Graph.node?_modify, if_neg (by grind)]
    · cases j with
      | zero =>
        obtain rfl : v = x := by simpa using hx
        have := h2 k (.inl (Nat.lt_succ_self _))
        rwa [Graph.node?_modify, if_pos rfl] at this
      | succ j =>
        have := h3 j x (by simpa using hx)
        rw [Graph.node?_modify, if_neg (by grind), Nat.add_right_comm] at this
        exact this

/-- The node of a header. -/
def headerNode (edges : List NodeId) : Node := { kind := .loopBegin, control := edges }

/-- A header and its phis have been appended. -/
structure Headed (g g' : Graph) (p : Path) : Prop where
  size : g'.nodes.size = g.nodes.size + 1 + p.locals.length
  old : ∀ id < g.nodes.size, g'.node? id = g.node? id
  header : g'.node? g.nodes.size = some (headerNode [p.control])
  phi : ∀ (j : ℕ) v, p.locals[j]? = some v →
    g'.node? (g.nodes.size + 1 + j) = some (openPhi g.nodes.size v)

/-- The path behind a new header. -/
def headed (g : Graph) (p : Path) : Path :=
  ⟨g.nodes.size, List.range' (g.nodes.size + 1) p.locals.length, p.facts⟩

theorem run_openLoop {p p' : Path} {l : OpenLoop} {b b' : Building}
    (h : (openLoop p).run b = .ok ((l, p'), b')) :
    b'.returns = b.returns ∧ p' = headed b.graph p ∧ l = ⟨p'.control, p'.locals⟩ ∧
      Headed b.graph b'.graph p := by
  obtain ⟨header, b₁, h1, h2⟩ := run_bind h
  obtain ⟨rfl, rfl⟩ := run_addNode h1
  obtain ⟨phis, b₂, h3, h4⟩ := run_bind h2
  obtain ⟨h5, h6⟩ := run_pure h4
  cases h5
  subst h6
  obtain ⟨h7, rfl, h8⟩ := run_phis _ h3
  have hs := h8.size
  have hold := h8.old
  have hphi := h8.phi
  simp only [Building.size_push] at hs hold hphi
  refine ⟨h7, by simp [headed], rfl, hs, fun id hid => ?_, ?_, hphi⟩
  · rw [hold id (hid.trans (Nat.lt_succ_self _)), Building.node?_push, if_neg (Nat.ne_of_lt hid)]
  · rw [hold _ (Nat.lt_succ_self _), Building.node?_push, if_pos rfl]
    rfl

/-- A position behind a new header holds the phi of a slot. -/
theorem Headed.phi_at {g g' : Graph} {p : Path} (h : Headed g g' p) {id : NodeId}
    (h1 : g.nodes.size < id) (h2 : id < g'.nodes.size) :
    ∃ (j : ℕ) (v : NodeId), p.locals[j]? = some v ∧ id = g.nodes.size + 1 + j := by
  rw [h.size] at h2
  have hj : id - (g.nodes.size + 1) < p.locals.length := by grind
  exact ⟨_, _, List.getElem?_eq_getElem hj, by grind⟩

/-- The header has got its edge back and the phis their inputs. -/
structure Closed (header : NodeId) (g g' : Graph) (q : Path) : Prop where
  size : g'.nodes.size = g.nodes.size
  same : ∀ id, id < header ∨ header + 1 + q.locals.length ≤ id → g'.node? id = g.node? id
  edge : g'.node? header = (g.node? header).map fun n =>
    { n with control := n.control ++ [q.control] }
  phi : ∀ (j : ℕ) v, q.locals[j]? = some v →
    g'.node? (header + 1 + j) = (g.node? (header + 1 + j)).map (feed v)

theorem run_closeLoop {header : NodeId} {a : Arrival} {u : Unit} {b b' : Building} (h : (closeLoop
      ⟨header, List.range' (header + 1) a.path.locals.length⟩ (some a)).run b = .ok (u, b')) :
    b'.returns = b.returns ∧ Closed header b.graph b'.graph a.path := by
  cases h
  obtain ⟨h1, h2, h3⟩ := node?_feed a.path.locals (header + 1)
    (b.graph.modify header fun n => { n with control := n.control ++ [a.path.control] })
  refine ⟨rfl, h1.trans (Graph.size_modify _ _ _), fun id hid => ?_, ?_, fun j v hv => ?_⟩
  · exact (h2 id (by grind)).trans (by rw [Graph.node?_modify, if_neg (by grind)])
  · exact (h2 header (.inl (Nat.lt_succ_self _))).trans (by rw [Graph.node?_modify, if_pos rfl])
  · exact (h3 j v hv).trans (by rw [Graph.node?_modify, if_neg (by grind)])

variable {X : Setting} {whole : Graph} {ρ ρ₀ ρ' : Bindings}

section

variable {g g₁ g₂ g₃ : Graph} {p : Path} {a : Arrival} {H B : Spot} {rest : List End}
    (h : Headed g g₁ p) (inner : Emits X [(g.nodes.size, H)] g₁ g₂ ((a.path.control, B) :: rest))
    (hl : a.path.locals.length = p.locals.length) (hc : Closed g.nodes.size g₂ g₃ a.path)

include h

theorem Headed.head_lt : g.nodes.size < g₁.nodes.size := by
  rw [h.size]
  omega

include hl in
/-- Every position behind the header holds a phi, which has a value from
before the loop and one from the body. -/
theorem Headed.locals_at {x : NodeId} (hx : g.nodes.size < x) (hlt : x < g₁.nodes.size) :
    ∃ (j : ℕ) (v v' : NodeId), p.locals[j]? = some v ∧ a.path.locals[j]? = some v' ∧
      x = g.nodes.size + 1 + j := by
  obtain ⟨j, v, hj, rfl⟩ := h.phi_at hx hlt
  have hlt : j < a.path.locals.length := by rw [hl]; exact (List.getElem?_eq_some_iff.1 hj).1
  exact ⟨j, v, _, hj, List.getElem?_eq_getElem hlt, rfl⟩

include inner hc

theorem Headed.phi_closed {j : ℕ} {v v' : NodeId} (hv : p.locals[j]? = some v)
    (hv' : a.path.locals[j]? = some v') :
    g₃.node? (g.nodes.size + 1 + j) =
      some { kind := .phi, inputs := [v, v'], control := [g.nodes.size] } := by
  have hj : j < p.locals.length := (List.getElem?_eq_some_iff.1 hv).1
  rw [hc.phi j v' hv', inner.old _ (by rw [h.size]; omega), h.phi j v hv]
  rfl

/-- In a whole graph the phis are there. -/
theorem Headed.phi_whole (hf : Fits g g₃ whole) {j : ℕ} {v v' : NodeId} (hv : p.locals[j]? = some v)
    (hv' : a.path.locals[j]? = some v') :
    whole.node? (g.nodes.size + 1 + j) =
      some { kind := .phi, inputs := [v, v'], control := [g.nodes.size] } := by
  have hj : j < p.locals.length := (List.getElem?_eq_some_iff.1 hv).1
  have hlt : g.nodes.size + 1 + j < g₃.nodes.size := by
    have := inner.size
    rw [h.size, ← hc.size] at this
    omega
  rw [hf.new _ (by omega) hlt, h.phi_closed inner hc hv hv']

include hl

theorem Headed.looped (hq : p.control < g.nodes.size) :
    Looped g g₁ g₂ g₃ p.control a.path.control where
  before := hq
  head := h.head_lt
  old := h.old
  opened x n hge hlt hn := by
    rcases Nat.eq_or_lt_of_le hge with rfl | hgt
    · rw [h.header] at hn
      cases hn
      exact .inr rfl
    · obtain ⟨j, v, hj, rfl⟩ := h.phi_at hgt hlt
      rw [h.phi j v hj] at hn
      cases hn
      exact .inl rfl
  size := hc.size
  same x hx := hc.same x (by rwa [hl, ← h.size])
  header := by
    rw [hc.edge, inner.old _ h.head_lt, h.header]
    rfl
  phis x n hgt hlt hn := by
    obtain ⟨j, v, v', hv, hv', rfl⟩ := h.locals_at hl hgt hlt
    rw [h.phi_closed inner hc hv hv'] at hn
    cases hn
    exact ⟨rfl, rfl⟩

/-- In a whole graph the header has no other phis. -/
theorem Headed.phis_whole (hf : Fits g g₃ whole) {x : NodeId} {n : Node}
    (hx : whole.node? x = some n) (hk : n.kind = .phi) (hcx : n.control = [g.nodes.size]) :
    ∃ (j : ℕ) (v v' : NodeId), p.locals[j]? = some v ∧ a.path.locals[j]? = some v' ∧
      x = g.nodes.size + 1 + j := by
  have hsize : g₁.nodes.size ≤ g₃.nodes.size := hc.size ▸ inner.size
  obtain ⟨hgt, hlt, -⟩ := hf.phi_of_merge (h.head_lt.trans_le hsize) hx hk (by rw [hcx]; rfl)
  refine h.locals_at hl hgt (Nat.lt_of_not_le fun hge => ?_)
  rw [hf.new x (Nat.le_of_lt hgt) hlt, hc.same x (.inr (by rwa [hl, ← h.size]))] at hx
  -- a phi inside the loop belongs to a merge inside the loop
  obtain ⟨m, hm, hle, -⟩ := (inner.nodes x n hge hx).phi hk
  rw [hcx] at hm
  cases hm
  exact absurd h.head_lt (Nat.not_lt.2 hle)

end

namespace Scope

variable {s : Scope X} {ss : List NodeSlot} {p q : Path} {b : Building} {id : ExprId}
    {condition body : Expr}

/-- The slot of a loop's condition. -/
def conditionSlot (id : ExprId) (condition body : Expr) : NodeSlot :=
  ⟨.whileLoop id condition body, 0, []⟩

/-- The slot of a loop's body. -/
def bodySlot (id : ExprId) (condition body : Expr) : NodeSlot :=
  ⟨.whileLoop id condition body, 1, []⟩

/-- The end of a path where a loop is about to evaluate its condition. -/
def atCondition (s : Scope X) (ss : List NodeSlot) (id : ExprId) (condition body : Expr)
    (p : Path) : End :=
  s.tip (ss ++ [conditionSlot id condition body]) p (.enter condition)

/-- Entering a loop is entering its condition. -/
theorem to_condition : X.To whole (s.tip ss p (.enter (.whileLoop id condition body))).2
    (s.atCondition ss id condition body p).2 := by
  refine silent (fun f w => ⟨w, ?_, by simp [conditionSlot]⟩) (fun x hx => ?_) (List.Subset.refl _)
  · rw [moment_enter_concat]
    exact .firstOperand rfl
  · simp only [pendingNodes_concat, conditionSlot, List.append_nil, Doing.nodes, List.not_mem_nil,
      or_false] at hx
    exact mem_nodes.2 (by tauto)

/-- The end of the body leads back to the condition, out of the body. -/
theorem continues_again {a : Arrival}
    (hρ : (s.arrive (ss ++ [bodySlot id condition body]) a).2.Good whole X.arguments ρ) :
    (X.point whole (s.arrive (ss ++ [bodySlot id condition body]) a).2).Continues
      (X.point whole (s.atCondition ss id condition body a.path).2) 1 ρ ρ := by
  refine ⟨good_of hρ (fun x hx => .inl (mem_nodes.2 ?_)) fun fact hfact => .inl hfact,
    fun w o hw => ⟨w, ⟨hw.1, ?_⟩, ?_⟩⟩
  · simp only [pendingNodes_concat, conditionSlot, bodySlot, Doing.nodes, List.not_mem_nil,
      or_false] at hx ⊢
    tauto
  · refine Spot.ends_step ?_ (by rfl) hw.2
    rw [atCondition, tip, spot, moment_enter_concat, arrive, tip, spot, moment_value_concat]
    exact .again
  · simp only [Setting.point, Spot.depth, arrive, atCondition, tip, spot, spotOn, Scope.frame,
      loopDepth_concat, bodySlot, conditionSlot]
    omega

/-- Over either edge control gets to the header with the phis as local slots.
`ρ₀` is what could be read where the loop was entered. -/
theorem continues_header {header : NodeId} {i : ℕ} (hl : q.locals.length = p.locals.length)
    (hphi : ∀ (j : ℕ) v, q.locals[j]? = some v → ∃ n, whole.node? (header + 1 + j) = some n ∧
      n.kind = .phi ∧ n.control = [header] ∧ n.inputs[i]? = some v)
    (hS : (s.atCondition ss id condition body p).2.Good whole X.arguments ρ₀) (h₁ : ρ₀.Le ρ)
    (h₂ : ρ₀.Le ρ') (hset : PhisSet whole X.arguments ρ ρ' header i) :
    (X.point whole (s.atCondition ss id condition body q).2).Continues
      (X.point whole (s.atCondition ss id condition body
      ⟨header, List.range' (header + 1) p.locals.length, p.facts⟩).2) 0 ρ ρ' := by
  have hden : List.Forall₂ (fun x v => Denotes whole X.arguments ρ' x
      (valueAt whole X.arguments ρ v)) (List.range' (header + 1) p.locals.length) q.locals := by
    refine List.forall₂_iff_get.2 ⟨by simp [hl], fun j h3 h4 => ?_⟩
    obtain ⟨n, h5, h6, h7, h8⟩ := hphi j (q.locals.get ⟨j, h4⟩) (by simp)
    simp only [List.get_eq_getElem, List.getElem_range', Nat.one_mul]
    exact .register h5 (by rw [h6]; rfl) (hset _ n _ h5 h6 h7 h8)
  have hmap : (List.range' (header + 1) p.locals.length).map (valueAt whole X.arguments ρ') =
      q.locals.map (valueAt whole X.arguments ρ) := by
    rw [← List.forall₂_eq_eq_eq, List.forall₂_map_left_iff, List.forall₂_map_right_iff]
    exact hden.imp fun _ _ h => h.valueAt_eq
  -- what was there before the loop is the same in every turn
  have hsame : ∀ x ∈ (s.atCondition ss id condition body p).2.nodes,
      valueAt whole X.arguments ρ' x = valueAt whole X.arguments ρ x := fun x hx => by
    rw [(hS.known x hx).valueAt_mono h₁, (hS.known x hx).valueAt_mono h₂]
  refine Setting.continues_of_moment ?_ (fun w => ?_) rfl
    (fun c hc x hx => (hsame x (mem_nodes.2 ?_)).symm) (Nat.le_refl _)
  · refine good_of (hS.mono h₂) (fun x hx => ?_) fun fact hfact => .inl hfact
    rcases hx with hx | hx | hx
    · obtain ⟨v, -, h⟩ := forall₂_exists_of_mem hden hx
      exact .inr ⟨_, h⟩
    · exact .inl (mem_nodes.2 (.inr (.inr (.inl hx))))
    · simp [Doing.nodes] at hx
  · obtain ⟨h3, h4⟩ := frame_congr (s := s) (ss ++ [conditionSlot id condition body]) q
      ⟨header, List.range' (header + 1) p.locals.length, p.facts⟩
      (fun x hx => hsame x (mem_nodes.2 (by tauto))) hmap
    simp only [atCondition, tip, spot, spotOn, Spot.moment, h3, h4]
  · exact .inr (.inr (.inr (.inr ⟨c, hc, hx⟩)))

/-- What has to be shown about an edge to a header, where a path comes in over
edge `i`. -/
theorem leads_header {g : Graph} {i : ℕ} (hl : q.locals.length = p.locals.length)
    (hphi : ∀ (j : ℕ) v, q.locals[j]? = some v → ∃ n, whole.node? (g.nodes.size + 1 + j) = some n ∧
      n.kind = .phi ∧ n.control = [g.nodes.size] ∧ n.inputs[i]? = some v)
    (hall : ∀ x n, whole.node? x = some n → n.kind = .phi → n.control = [g.nodes.size] →
      ∃ (j : ℕ) (v : NodeId), q.locals[j]? = some v ∧ x = g.nodes.size + 1 + j)
    (hS : (s.atCondition ss id condition body p).2.Good whole X.arguments ρ₀) (h₁ : ρ₀.Le ρ)
    (hq : (s.atCondition ss id condition body q).2.Good whole X.arguments ρ) :
    PhisReady whole X.arguments ρ g.nodes.size i ∧
      ∀ ρ', ρ₀.Le ρ' → PhisSet whole X.arguments ρ ρ' g.nodes.size i →
      (X.point whole (s.atCondition ss id condition body q).2).Continues
        (X.point whole (s.atCondition ss id condition body (headed g p)).2) 0 ρ ρ' := by
  refine ⟨fun x n hx hk hc => ?_, fun ρ' h₂ hset => continues_header hl hphi hS h₁ h₂ hset⟩
  obtain ⟨j, v, hv, rfl⟩ := hall x n hx hk hc
  obtain ⟨n', h1, -, -, h2⟩ := hphi j v hv
  obtain rfl := Option.some.inj (hx.symm.trans h1)
  exact ⟨v, h2, hq.known v (mem_nodes.2 (.inr (.inl (List.mem_of_getElem? hv))))⟩

/-- A header that never gets an edge back. -/
theorem emits_header {g g₁ : Graph} (hq : p.control < g.nodes.size) (h : Headed g g₁ p) :
    Emits X [s.tip ss p (.enter (.whileLoop id condition body))] g g₁
      [s.atCondition ss id condition body (headed g p)] := by
  refine Emits.merge .loopBegin rfl (fun _ => ⟨_, rfl⟩) (by simp) (by simpa [tip] using hq) rfl
    (by rw [h.size, Graph.size_add]; omega) (fun x hx => ?_) (fun x n hx hn => ?_)
    fun whole hf i e he ρ hρ => ?_
  · rw [Graph.size_add] at hx
    rw [Graph.node?_add]
    split
    · subst ‹x = _›
      exact h.header
    · exact h.old x (Nat.lt_of_le_of_ne (Nat.lt_succ_iff.1 hx) ‹_›)
  · rw [Graph.size_add] at hx
    obtain ⟨j, v, hj, rfl⟩ := h.phi_at hx (Graph.lt_size_of_node? hn)
    rw [h.phi j v hj] at hn
    cases hn
    exact ⟨rfl, rfl⟩
  · obtain ⟨rfl, rfl⟩ : i = 0 ∧ e = s.tip ss p (.enter (.whileLoop id condition body)) := by
      cases i with
      | zero => simpa using he.symm
      | succ i => simp at he
    have hcond := to_condition ρ hρ
    have hm := h.head_lt
    have hphi : ∀ (j : ℕ) v, p.locals[j]? = some v →
        whole.node? (g.nodes.size + 1 + j) = some (openPhi g.nodes.size v) := by
      intro j v hv
      have hj : j < p.locals.length := (List.getElem?_eq_some_iff.1 hv).1
      rw [hf.new _ (by grind) (by rw [h.size]; omega)]
      exact h.phi j v hv
    obtain ⟨h1, h2⟩ := leads_header (g := g) (i := 0) rfl
      (fun j v hv => ⟨_, hphi j v hv, rfl, rfl, rfl⟩) (fun x n hx hk hc => by
      obtain ⟨h3, h4, -⟩ := hf.phi_of_merge hm hx hk (by rw [hc]; rfl)
      exact h.phi_at h3 h4) hcond.1 (.refl ρ) hcond.1
    exact ⟨h1, fun ρ' hle hset => hcond.trans (h2 ρ' hle hset)⟩

/-- A header that gets an edge back from the end of the body. -/
theorem emits_loop {g g₁ g₂ g₃ : Graph} (hq : p.control < g.nodes.size) (h : Headed g g₁ p)
    {a : Arrival} {rest : List End}
    (inner : Emits X [s.atCondition ss id condition body (headed g p)] g₁ g₂
      (s.arrive (ss ++ [bodySlot id condition body]) a :: rest))
    (hl : a.path.locals.length = p.locals.length) (hc : Closed g.nodes.size g₂ g₃ a.path) :
    Emits X [s.tip ss p (.enter (.whileLoop id condition body))] g g₃ rest := by
  refine Emits.loop (h.looped inner hl hc hq) inner (fun whole hf ρ hρ => ?enter)
    fun whole hf ρ₀ ρ hle hS hB => ?back
  case enter =>
    have hcond := to_condition ρ hρ
    obtain ⟨hready, hset⟩ := leads_header (g := g) (q := p) (i := 0) rfl (fun j v hv => by
      have hj : j < a.path.locals.length := by rw [hl]; exact (List.getElem?_eq_some_iff.1 hv).1
      exact ⟨_, h.phi_whole inner hc hf hv (List.getElem?_eq_getElem hj), rfl, rfl, rfl⟩)
        (fun x n hx hk hcx => by
      obtain ⟨j, v, v', hv, hv', rfl⟩ := h.phis_whole inner hl hc hf hx hk hcx
      exact ⟨j, v, hv, rfl⟩) hcond.1 (.refl ρ) hcond.1
    exact ⟨hready, fun ρ' hle hphis => hcond.trans (hset ρ' hle hphis)⟩
  case back =>
    have hcond := to_condition ρ₀ hS
    have hagain := continues_again hB
    obtain ⟨hready, hset⟩ := leads_header (g := g) (q := a.path) (i := 1) hl (fun j v hv => by
      have hj : j < p.locals.length := by rw [← hl]; exact (List.getElem?_eq_some_iff.1 hv).1
      exact ⟨_, h.phi_whole inner hc hf (List.getElem?_eq_getElem hj) hv, rfl, rfl, rfl⟩)
        (fun x n hx hk hcx => by
      obtain ⟨j, v, v', hv, hv', rfl⟩ := h.phis_whole inner hl hc hf hx hk hcx
      exact ⟨j, v', hv', rfl⟩) hcond.1 hle hagain.1
    exact ⟨hready, fun ρ' hle' hphis => hagain.trans (hset ρ' hle' hphis)⟩

/-- What is built inside a loop: where the body ends, if it does, and where
the loop is left, if it is. -/
abbrev Insides := Option Arrival × Option Path

/-- The ends that the inside of a loop leaves open. -/
def insideEnds (s : Scope X) (ss : List NodeSlot) (id : ExprId) (condition body : Expr)
    (r : Insides) : List End :=
  r.1.toList.map (s.arrive (ss ++ [bodySlot id condition body])) ++ r.2.toList.map fun q =>
    s.tip ss q (.literal .null)

/-- A loop, given what is built inside. -/
theorem builds_loop (hp : s.Keeps p) {inner : Path → Build Insides}
    (hinner : ∀ p b, s.Keeps p → s.Builds [s.atCondition ss id condition body p] b (inner p)
      (fun r => (∀ a ∈ r.1, s.Keeps a.path) ∧ ∀ q ∈ r.2, s.Keeps q)
        (s.insideEnds ss id condition body)) :
    s.Builds [s.tip ss p (.enter (.whileLoop id condition body))] b
      (do
        let (l, p) ← openLoop p
        let r ← inner p
        closeLoop l r.1
        return r.2)
      (fun o => ∀ q ∈ o, s.Keeps q) fun o => o.toList.map fun q => s.tip ss q (.literal .null) := by
  intro hn hb o b' hrun
  obtain ⟨⟨l, p'⟩, b₁, h1, h2⟩ := run_bind hrun
  obtain ⟨⟨back, after⟩, b₂, h3, h4⟩ := run_bind h2
  obtain ⟨u, b₃, h5, h6⟩ := run_bind h4
  obtain ⟨rfl, rfl⟩ := run_pure h6
  dsimp only at h5 h6 ⊢
  obtain ⟨h7, rfl, rfl, hopen⟩ := run_openLoop h1
  have hlt : b.graph.nodes.size < b₁.graph.nodes.size := by rw [hopen.size]; omega
  obtain ⟨hkeeps, new, h8, h9, hemits⟩ :=
    hinner (headed b.graph p) b₁ (by simpa [Keeps, headed] using hp) (by simp)
      (by simpa [atCondition, tip, headed] using hlt) _ _ h3
  have hq : p.control < b.graph.nodes.size := hb _ (by simp [tip])
  refine ⟨hkeeps.2, new, ?_⟩
  cases back with
  | none =>
    obtain ⟨-, rfl⟩ := run_pure h5
    refine ⟨by rw [h8, h7], h9, .trans (emits_header hq hopen) ?_⟩
    simpa [insideEnds] using hemits
  | some a =>
    have hlen : a.path.locals.length = p.locals.length := (hkeeps.1 a rfl).trans hp.symm
    rw [headed, ← hlen] at h5
    obtain ⟨h10, hclosed⟩ := run_closeLoop h5
    refine ⟨by rw [h10, h8, h7], h9, emits_loop hq hopen ?_ hlen hclosed⟩
    simpa [insideEnds] using hemits

/-- What a loop builds between its header and the edge back, once its
condition has a value. -/
def loopInside (c : Context) (node : ExprId) (v : NodeId) (stack : List NodeId) (p : Path)
    (body : Path → Build (Option Arrival)) : Build Insides := do
  match ← branching c node v (stack ++ [v]) p with
  | .ended => return (none, none)
  | .always false p => return (none, some p)
  | .always true p => return (← body p, none)
  | .either =>
    let (inside, after) ← split v p
    return (← body inside, some after)

/-- Behind a loop there is null. -/
def leaveLoop : Option Path → Build (Option Arrival)
  | none => return none
  | some p => do return some ⟨← constant .null, p⟩

theorem loopOn_eq (c : Context) (node : ExprId) (l : OpenLoop) (v : NodeId) (stack : List NodeId)
    (p : Path) (body : Path → Build (Option Arrival)) : loopOn c node l v stack p body = (do
      let r ← loopInside c node v stack p body
      closeLoop l r.1
      leaveLoop r.2) := by
  rw [loopOn, loopInside, bind_assoc]
  congr 1
  funext o
  match o with
  | .ended => simp [closeLoop, leaveLoop]
  | .always false p => simp [closeLoop, leaveLoop]
  | .always true p => simp [leaveLoop]
  | .either => simp [leaveLoop]

/-- What a loop builds between its header and the edge back. -/
def whileInside (c : Context) (node : ExprId) (stack : List NodeId)
    (condition body : Path → Build (Option Arrival)) (p : Path) :
    Build Insides := do
  let some ⟨v, p⟩ ← condition p | return (none, none)
  loopInside c node v stack p body

/-- A loop is opened, built inside, closed and left. -/
theorem while_eq (c : Context) (node : ExprId) (stack : List NodeId)
    (condition body : Path → Build (Option Arrival)) (p : Path) :
    (do
      let (l, p) ← openLoop p
      let some ⟨v, p⟩ ← condition p | return none
      loopOn c node l v stack p body) = (do
      let after ← (do
        let (l, p) ← openLoop p
        let r ← whileInside c node stack condition body p
        closeLoop l r.1
        return r.2)
      leaveLoop after) := by
  simp only [bind_assoc]
  congr 1
  funext opened
  simp only [whileInside, bind_assoc]
  congr 1
  funext o
  cases o with
  | none => simp [closeLoop, leaveLoop]
  | some a => simp [loopOn_eq]

/-- A loop, given what its condition and its body build. -/
theorem builds_while (hp : s.Keeps p) (hin : s.Inside ss (.whileLoop id condition body))
    {evalCondition evalBody : Path → Build (Option Arrival)}
    (hcondition : ∀ p b, s.Keeps p →
      s.Builds [s.atCondition ss id condition body p] b (evalCondition p)
      (fun o => ∀ a ∈ o, s.Keeps a.path) fun o => o.toList.map fun a =>
        s.tip ss a.path (.ready (.whileLoop id condition body) [a.value]))
    (hbody : ∀ p b, s.Keeps p →
      s.Builds [s.tip (ss ++ [bodySlot id condition body]) p (.enter body)] b (evalBody p)
      (fun o => ∀ a ∈ o, s.Keeps a.path) fun o =>
        o.toList.map (s.arrive (ss ++ [bodySlot id condition body]))) :
    s.Builds [s.tip ss p (.enter (.whileLoop id condition body))] b
      (do
        let (l, p) ← openLoop p
        let some ⟨v, p⟩ ← evalCondition p | return none
        loopOn s.context id l v (pendingNodes ss) p evalBody)
      (fun o => ∀ a ∈ o, s.Keeps a.path) fun o => o.toList.map (s.arrive ss) := by
  rw [while_eq]
  refine (builds_loop hp fun p b hp => ?_).bind fun o b₁ ho => ?_
  · refine (hcondition p b hp).bind fun o b₁ ho => ?_
    obtain _ | ⟨v, p₁⟩ := o
    · exact .pure rfl (by simp)
    have hacts : s.Acts ss p₁ (.whileLoop id condition body) [v] :=
      ⟨hin, ho _ rfl, rfl, .inl (by simp [Expr.operands])⟩
    refine (builds_branching hacts trivial).bind fun way b₂ hway => ?_
    cases way with
    | ended => exact .pure rfl (by simp)
    | always taken p₂ =>
      cases taken with
      | false => exact .pure rfl (by simpa using hway)
      | true =>
        refine (hbody p₂ b₂ hway).bind fun o b₃ ho₃ => .pure ?_ ⟨ho₃, by simp⟩
        simp [insideEnds]
    | either =>
      refine (builds_split hacts trivial).bind fun ps b₃ hps => ?_
      obtain ⟨inside, after⟩ := ps
      refine ((hbody inside b₃ hps.1).frame (C := [s.way ss _ after false])).bind fun o b₄ ho₄ =>
        .pure ?_ ⟨ho₄, by simpa using hps.2⟩
      simp [insideEnds, way, wayOf]
  · obtain _ | p₁ := o
    · exact .pure rfl (by simp)
    · exact (builds_constant .null).bind fun v b₂ _ => .pure rfl (by simpa using ho p₁ rfl)

end Scope

end Specialize

end TieredEngine

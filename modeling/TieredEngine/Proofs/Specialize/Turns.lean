import TieredEngine.Proofs.Specialize.Steps
/-!
# Joins, branches and loops keep the graph sound

Where paths meet, a value is available if it was on all of them, or a phi
takes its place. The body of a loop is dominated by the header, which is what
an edge back to the header needs.
-/

namespace TieredEngine

namespace Specialize

open TieredEngine.Graph

variable {fails : CompileError → Prop} {base : Graph} {slots : ℕ} {p p' : Path} {b : Building}
    {q : NodeId} {A : List NodeId} {c : Context} {stack : List NodeId} {node : ExprId}

/-! ## Joins -/

/-- Several steps of one kind, one after the other. -/
theorem grows_mapM {ι β : Type} {f : ι → Build β} {I : Graph → Prop} {P : Graph → β → Prop}
    (hP : ∀ g g' r, g.Kept g' → P g r → P g' r) (is : List ι)
    (hf : ∀ i ∈ is, ∀ b : Building, I b.graph →
        Grows fails base q A b (f i) (fun g r => I g ∧ P g r) fun _ => A) :
    ∀ b : Building, I b.graph → Grows fails base q A b (is.mapM f)
      (fun g rs => I g ∧ rs.length = is.length ∧ ∀ r ∈ rs, P g r) fun _ => A := by
  induction is with
  | nil => exact fun b hI => .pure rfl ⟨hI, rfl, by simp⟩
  | cons i is ih =>
    intro b hI
    rw [List.mapM_cons]
    refine (hf i List.mem_cons_self b hI).bind fun r b₁ _ hr => ?_
    refine (ih (fun j hj => hf j (List.mem_cons_of_mem _ hj)) b₁ hr.1).bind fun rs b₂ hkept hrs =>
      .pure rfl ?_
    obtain ⟨hI₂, hlen, hrs⟩ := hrs
    refine ⟨hI₂, by simp [hlen], fun s hs => ?_⟩
    rcases List.mem_cons.1 hs with rfl | hs
    · exact hP _ _ _ hkept hr.2
    · exact hrs s hs

/-- A merge stands, and what comes in over its edges can be read there. -/
structure Meets (g : Graph) (merge : NodeId) (edges : List NodeId) (columns : List (List NodeId)) :
    Prop where
  node : g.node? merge = some { kind := .merge, control := edges }
  some_edge : edges ≠ []
  count : ∀ column ∈ columns, column.length = edges.length
  available : ∀ column ∈ columns, ∀ (i : ℕ) e y, edges[i]? = some e → column[i]? = some y →
    g.Available e y
  below : ∀ e ∈ edges, e < g.nodes.size

theorem Meets.extends {g g' : Graph} {merge : NodeId} {edges : List NodeId}
    {columns : List (List NodeId)} (h : Meets g merge edges columns) (he : g.Extends g')
    (hk : g.Kept g') :
    Meets g' merge edges columns where
  node := he.node h.node
  some_edge := h.some_edge
  count := h.count
  available column hc i e y hi hy :=
    hk.available e y (h.below e (List.mem_of_getElem? hi)) (h.available column hc i e y hi hy)
  below e he' := (h.below e he').trans_le hk.size

/-- The value at a join can be read there. -/
theorem grows_joinValues {merge : NodeId} {edges column : List NodeId}
    {columns : List (List NodeId)} (h : Meets b.graph merge edges columns) (hc : column ∈ columns)
    (hm : base.nodes.size ≤ merge) :
    Grows fails base q A b (joinValues merge column)
      (fun g x => Meets g merge edges columns ∧ g.Available merge x)
      fun _ => A := by
  refine .of_sound fun _ ⟨D, hs⟩ => ?_
  have hphi : Grows fails base q A b
      (addNode { kind := .phi, inputs := column, control := [merge] })
      (fun g x => Meets g merge edges columns ∧ g.Available merge x) fun _ => A := by
    intro C hbase hsound
    have hkept := hsound.kept (.add _ { kind := .phi, inputs := column, control := [merge] })
    refine .of_run (addNode_run b _)
      ⟨hbase.push (by simpa using hm), hkept, ⟨h.extends (.add _ _) hkept, ?_⟩,
      [], by simp, by simp, hsound.phi h.node rfl (h.count column hc) (h.available column hc)⟩
    exact .register (.inl (mem_phisOf.2 ⟨_, node?_add_new _ _, rfl, rfl⟩)) (.refl _)
  unfold joinValues
  split
  · exact hphi
  · rename_i first rest
    split
    · rename_i hall
      refine .pure rfl ⟨h, ?_⟩
      have hne : merge ≠ Graph.start := by
        rintro rfl
        have := hs.wired.start
        simp [kind?, h.node] at this
      have hsame : ∀ y ∈ first :: rest, y = first := by
        intro y hy
        rcases List.mem_cons.1 hy with rfl | hy
        · rfl
        · simpa using List.all_eq_true.1 hall y hy
      refine Available.of_follows hne (fun e he => ?_) ?_
      · obtain ⟨n, hn, -, hmem⟩ := he
        obtain rfl := Option.some.inj (h.node.symm.trans hn)
        obtain ⟨i, hi, rfl⟩ := List.getElem_of_mem hmem
        have hi' : i < (first :: rest).length := by rw [h.count _ hc]; exact hi
        have hav :=
          h.available _ hc i _ _ (List.getElem?_eq_getElem hi) (List.getElem?_eq_getElem hi')
        rwa [hsame _ (List.getElem_mem hi')] at hav
      · obtain ⟨e, he⟩ := List.exists_mem_of_ne_nil _ h.some_edge
        exact ⟨e, _, h.node, rfl, he⟩
    · exact hphi

/-- Paths that arrive become one. -/
theorem grows_join {arrivals : List Arrival} (h : ∀ a ∈ arrivals, a.Ready b.graph q slots) :
    Grows fails base q (tips arrivals) b (join arrivals) (fun g o => ∀ a ∈ o, a.Ready g q slots)
      fun o => tips o.toList := by
  unfold join
  split
  · exact grows_ended rfl
  · refine .pure rfl ?_
    rintro _ ⟨⟩
    exact h _ (by simp)
  · rename_i first rest hne
    let arrivals := first :: rest
    have hlen : ∀ a ∈ arrivals, a.path.locals.length = slots := fun a ha => (h a ha).slots
    have hedges : ∀ a ∈ arrivals, a.path.control < b.graph.nodes.size := fun a ha => (h a ha).here
    have havail : ∀ column ∈ columnsOf arrivals slots, ∀ (i : ℕ) e y, (tips arrivals)[i]? = some e →
        column[i]? = some y → b.graph.Available e y := by
      intro column hcol i e y hi hy
      obtain ⟨a, ha, rfl⟩ : ∃ a, arrivals[i]? = some a ∧ a.path.control = e := by
        simpa [tips] using hi
      obtain ⟨z, hz, hcz⟩ := forall₂_exists_of_mem (row_of_columns hlen ha) hcol
      obtain rfl := Option.some.inj (hcz.symm.trans hy)
      have hready := h a (List.mem_of_getElem? ha)
      rcases List.mem_cons.1 hz with rfl | hz
      · exact hready.value
      · exact hready.locals z hz
    have hcount : ∀ column ∈ columnsOf arrivals slots, column.length = (tips arrivals).length := by
      intro column hcol
      rcases List.mem_cons.1 hcol with rfl | hcol
      · simp [tips]
      · obtain ⟨j, hj, rfl⟩ := List.mem_map.1 hcol
        rw [filterMap_locals hlen (List.mem_range.1 hj)]
        simp [tips]
    refine .of_sound fun hbase hsound => ?_
    have hmerge : Grows fails base q _ b _ _ _ :=
      grows_behind (n := { kind := .merge, control := tips arrivals }) rfl (by simp) (by simp) rfl
        (by simp [Node.Counted, tips, arrivals]) (by simp) (by simp)
    refine Grows.bind hmerge fun merge b₁ hkept hm => ?_
    obtain ⟨hpos, hnode, hdom⟩ := hm
    simp only [NodeKind.isTerminal, Bool.false_eq_true, if_false]
    have hlow : base.nodes.size ≤ merge := hpos ▸ hbase.size
    have hmeets : Meets b₁.graph merge (tips arrivals) (columnsOf arrivals slots) := by
      refine ⟨hnode, by simp [tips, arrivals], hcount, fun column hcol i e y hi hy => ?_,
        fun e he => ?_⟩
      · obtain ⟨a, ha, rfl⟩ : ∃ a, arrivals[i]? = some a ∧ a.path.control = e := by
          simpa [tips] using hi
        exact hkept.available _ y (hedges a (List.mem_of_getElem? ha))
          (havail column hcol i _ y hi hy)
      · obtain ⟨a, ha, rfl⟩ := List.mem_map.1 he
        exact (hedges a ha).trans_le hkept.size
    have hq : b₁.graph.Dominates q merge := hdom q fun e he => by
      obtain ⟨a, ha, rfl⟩ := List.mem_map.1 he
      exact (h a ha).dominated
    refine (grows_joinValues hmeets (by simp [columnsOf, arrivals]) hlow).bind
      fun value b₂ hkept₂ hv => ?_
    have hlocals : Grows fails base q [merge] b₂ _ _ _ := grows_mapM
      (f := fun slot => joinValues merge (arrivals.filterMap fun a => a.path.locals[slot]?))
      (I := fun g => Meets g merge (tips arrivals) (columnsOf arrivals slots) ∧
          g.Available merge value ∧ g.Dominates q merge)
      (P := fun g x => merge < g.nodes.size ∧ g.Available merge x)
      (fun g g' x hk hx => ⟨hx.1.trans_le hk.size, hk.available _ x hx.1 hx.2⟩) (List.range slots)
      (fun slot hslot b hI => ?_) b₂ ⟨hv.1, hv.2, hkept₂.dominates _ _ (lt_size_of_node? hnode) hq⟩
    · rw [show first.path.locals.length = slots from (h first (by simp)).slots]
      refine Grows.bind hlocals fun locals b₃ hkept₃ hl => .pure rfl ?_
      obtain ⟨⟨hmeets₃, hvalue₃, hq₃⟩, hlen₃, hl⟩ := hl
      rintro _ ⟨⟩
      exact ⟨⟨lt_size_of_node? hmeets₃.node, hq₃, fun x hx => (hl x hx).2, by simpa using hlen₃⟩,
        hvalue₃⟩
    · obtain ⟨hmeets', hvalue', hq'⟩ := hI
      have hlt := lt_size_of_node? hmeets'.node
      refine (grows_joinValues hmeets' ?_ hlow).imp (fun g x hk hx => ?_) fun _ _ _ =>
        List.Perm.refl _
      · exact List.mem_cons_of_mem _ (List.mem_map_of_mem hslot)
      · exact ⟨⟨hx.1, hk.available _ _ hlt hvalue', hk.dominates _ _ hlt hq'⟩,
          lt_size_of_node? hx.1.node, hx.2⟩

/-! ## Branches -/

/-- The ends that a decision about a branch leaves open. -/
def Branching.ends (p : Path) : Branching → List NodeId
  | .ended => []
  | .always _ p' => [p'.control]
  | .either => [p.control]

/-- The path of a branch that goes one way only is further along. -/
def Branching.Ready (g : Graph) (p : Path) (slots : ℕ) : Branching → Prop
  | .always _ p' => p'.Ready g p.control slots
  | _ => True

theorem grows_branching {condition : NodeId} (h : Stage c b.graph slots p stack)
    (hv : condition ∈ stack) :
    Grows fails base p.control [p.control] b (branching c node condition stack p)
      (fun g r => r.Ready g p slots)
      (Branching.ends p) := by
  unfold branching
  refine .read rfl ?_
  split
  · exact (grows_giveUp h).bind fun _ _ _ _ => .pure rfl trivial
  · refine .read rfl ?_
    split
    · exact .pure rfl h.ready
    · split
      · exact (grows_guardBefore h _ _ hv).bind fun p' _ _ hp => .pure rfl hp
      · exact .pure rfl trivial

/-- Both sides of a branch are further along. -/
theorem grows_split {condition : NodeId} (h : Stage c b.graph slots p stack)
    (hv : b.graph.Available p.control condition) :
    Grows fails base p.control [p.control] b (split condition p)
      (fun g r => r.1.Ready g p.control slots ∧ r.2.Ready g p.control slots) fun r =>
        [r.1.control, r.2.control] := by
  intro C hbase hs
  let branch : Node := { kind := .branch, inputs := [condition], control := [p.control] }
  let onTrue : Node := { kind := .onTrue, control := [b.graph.nodes.size] }
  let onFalse : Node := { kind := .onFalse, control := [b.graph.nodes.size] }
  have hrun : (split condition p).run b =
      .ok (({ p with control := (b.push branch).graph.nodes.size },
      { p with control := ((b.push branch).push onTrue).graph.nodes.size }),
      ((b.push branch).push onTrue).push onFalse) := rfl
  simp only [Building.size_push] at hrun
  let g' : Graph := (((b.push branch).push onTrue).push onFalse).graph
  have hsound : Sound g' ((b.graph.nodes.size + 1) :: (b.graph.nodes.size + 2) :: C) := hs.split hv
  have hext : b.graph.Extends g' :=
    ((Extends.add _ branch).trans (.add _ onTrue)).trans (.add _ onFalse)
  have hkept := hs.kept hext
  have hgrown : base.Grown g' :=
    ((hbase.push (n := branch) (by simp [branch])).push (n := onTrue) (by simp [onTrue])).push
      (by simp [onFalse])
  have hnode : ∀ id, g'.node? id = if id = b.graph.nodes.size + 2 then some onFalse
      else if id = b.graph.nodes.size + 1 then some onTrue else if id =
        b.graph.nodes.size then some branch
      else b.graph.node? id := by
    intro id
    simp only [g', Building.node?_push, Building.size_push]
  have hbranch : g'.Dominates p.control b.graph.nodes.size := by
    refine dominates_of_follows (Nat.ne_of_gt (Nat.zero_lt_of_lt h.here)) fun e he => ?_
    obtain ⟨n, hn, -, hmem⟩ := he
    rw [hnode, if_neg (by grind), if_neg (by grind), if_pos rfl] at hn
    cases hn
    obtain rfl := List.mem_singleton.1 hmem
    exact .refl _
  have hside : ∀ k, (k = b.graph.nodes.size + 1 ∨ k = b.graph.nodes.size + 2) →
      g'.Dominates p.control k := by
    intro k hk
    refine dominates_of_follows (by rcases hk with rfl | rfl <;> exact Nat.succ_ne_zero _)
      fun e he => ?_
    obtain ⟨n, hn, -, hmem⟩ := he
    have hcontrol : n.control = [b.graph.nodes.size] := by
      rcases hk with rfl | rfl
      · rw [hnode, if_neg (by grind), if_pos rfl] at hn
        cases hn
        rfl
      · rw [hnode, if_pos rfl] at hn
        cases hn
        rfl
    rw [hcontrol, List.mem_singleton] at hmem
    exact hmem ▸ hbranch
  have hready : ∀ k, (k = b.graph.nodes.size + 1 ∨ k = b.graph.nodes.size + 2) →
      Path.Ready { p with control := k } g' p.control slots := by
    intro k hk
    refine ⟨hsound.lt_of_mem (by rcases hk with rfl | rfl <;> simp), hside k hk,
      fun x hx => ?_, h.slots⟩
    exact (hkept.available _ x h.here (h.locals x hx)).dominated (hside k hk)
  exact .of_run hrun
    ⟨hgrown, hkept, ⟨hready _ (.inl rfl), hready _ (.inr rfl)⟩, [], by simp, by simp, hsound⟩

/-- A conditional whose sides go on from where they are entered. -/
theorem evaluates_conditional {condition : NodeId} {onTrue onFalse : Path → Build (Option Arrival)}
    (h : Stage c b.graph slots p stack) (hv : b.graph.Available p.control condition)
    (hT : ∀ p' b', Stage c b'.graph slots p' stack → Evaluates fails base slots p' b' (onTrue p'))
    (hF : ∀ p' b', Stage c b'.graph slots p' stack →
        Evaluates fails base slots p' b' (onFalse p')) :
    Evaluates fails base slots p b (conditional c node condition stack p onTrue onFalse) := by
  have hfull : Stage c b.graph slots p (stack ++ [condition]) := h.with (by simpa using hv)
  unfold conditional
  refine (grows_branching hfull (by simp)).bind fun r b₁ hkept hr => ?_
  have h₁ := h.kept hkept
  cases r with
  | ended => exact grows_ended rfl
  | always taken p' =>
    cases taken with
    | true => exact (hT p' b₁ (h₁.move hr)).from hr
    | false => exact (hF p' b₁ (h₁.move hr)).from hr
  | either =>
    refine (grows_split h₁ (hkept.available _ _ h.here hv)).bind fun sides b₂ hkept₂ hsides => ?_
    obtain ⟨whenTrue, whenFalse⟩ := sides
    obtain ⟨hready, hready'⟩ := hsides
    have h₂ := h₁.kept hkept₂
    refine (((hT whenTrue b₂ (h₂.move hready)).from hready).frame (D := [whenFalse.control])).bind
      fun first b₃ hkept₃ hfirst => ?_
    have hother := hready'.kept hkept₃
    have hsecond :=
      ((hF whenFalse b₃ ((h₂.kept hkept₃).move hother)).from hother).frame (D := tips first.toList)
    refine (hsecond.perm List.perm_append_comm).bind fun second b₄ hkept₄ hsecond => ?_
    refine (grows_join fun a (ha : a ∈ first.toList ++ second.toList) => ?_).perm ?_
    · rcases List.mem_append.1 ha with ha | ha
      · exact (hfirst a (by simpa using ha)).kept hkept₄
      · exact hsecond a (by simpa using ha)
    · simp only [tips, List.map_append]
      exact List.perm_append_comm

/-! ## Loops -/

/-- The header of a loop stands, with a phi for every local slot. -/
theorem grows_openLoop (h : Stage c b.graph slots p stack) :
    Grows fails base p.control [p.control] b (openLoop p)
      (fun g r => r.2.Ready g p.control slots ∧
        r.1 = ⟨r.2.control, List.range' (r.2.control + 1) slots⟩ ∧
        LoopOpen g r.2.control slots ∧ base.nodes.size ≤ r.2.control) fun r => [r.2.control] := by
  intro C hbase hs
  have hgrows : Grows fails base p.control [p.control] b (openLoop p) (fun g r =>
      r.2.Ready g p.control slots ∧ base.nodes.size ≤ r.2.control) fun r => [r.2.control] := by
    unfold openLoop
    have hheader : Grows fails base p.control _ b _ _ _ :=
      grows_behind (n := { kind := .loopBegin, control := [p.control] }) rfl (by simp) (by simp) rfl
        (by simp [Node.Counted]) (by simp) (by simp)
    refine Grows.bind hheader fun header b₁ hkept hh => ?_
    obtain ⟨hpos, hnode, hdom⟩ := hh
    have hlow : base.nodes.size ≤ header := hpos ▸ hbase.size
    have hq : b₁.graph.Dominates p.control header := hdom _ (by simpa using Dominates.refl _)
    simp only [NodeKind.isTerminal, Bool.false_eq_true, if_false]
    have hphis : Grows fails base p.control [header] b₁ _ _ _ := grows_mapM
      (f := fun v => addNode { kind := .phi, inputs := [v], control := [header] })
      (I := fun g => g.node? header = some (headerNode [p.control]) ∧
        (∀ v ∈ p.locals, g.Available p.control v) ∧
        p.control < g.nodes.size ∧ g.Dominates p.control header)
      (P := fun g x => header < g.nodes.size ∧ g.Available header x)
      (fun g g' x hk hx => ⟨hx.1.trans_le hk.size, hk.available _ x hx.1 hx.2⟩) p.locals
        (fun v hmem b hI => ?_) b₁
      ⟨hnode, fun v hv => hkept.available _ v h.here (h.locals v hv),
          h.here.trans_le hkept.size, hq⟩
    · refine Grows.bind hphis fun phis b₂ hkept₂ hp =>
        .pure rfl ⟨⟨?_, hp.1.2.2.2, fun x hx => (hp.2.2 x hx).2, ?_⟩, hlow⟩
      · exact lt_size_of_node? hp.1.1
      · rw [hp.2.1, h.slots]
    · obtain ⟨hhead, hlocals, hhere, hq'⟩ := hI
      intro C' hbase' hs'
      have hk := hs'.kept (.add _ { kind := .phi, inputs := [v], control := [header] })
      refine .of_run (addNode_run b _)
        ⟨hbase'.push (by simpa using hlow), hk, ⟨⟨?_, fun w hw => ?_, ?_, ?_⟩, ?_, ?_⟩,
        [], by simp, by simp, hs'.phi hhead rfl rfl fun i e y hi hy => ?_⟩
      · exact (Extends.add _ _).node hhead
      · exact hk.available _ w hhere (hlocals w hw)
      · exact hhere.trans_le hk.size
      · exact hk.dominates _ _ (lt_size_of_node? hhead) hq'
      · exact (lt_size_of_node? hhead).trans_le hk.size
      · exact .register (.inl (mem_phisOf.2 ⟨_, node?_add_new _ _, rfl, rfl⟩)) (.refl _)
      · obtain rfl : y = v := by
          have := List.mem_of_getElem? hy
          simpa using this
        obtain rfl : e = p.control := by
          have := List.mem_of_getElem? hi
          simpa [headerNode] using this
        exact hlocals y hmem
  refine (hgrows C hbase hs).with_run.imp ?_
  rintro ⟨l, p'⟩ b' ⟨hrun, hbase', hkept, ⟨hready, hlow⟩, hrest⟩
  obtain ⟨-, rfl, rfl, hheaded⟩ := run_openLoop hrun
  refine ⟨hbase', hkept, ⟨hready, ?_, ?_, hlow⟩, hrest⟩
  · simp [headed, h.slots]
  · refine ⟨⟨_, hheaded.header⟩, fun j hj => ?_, fun x n hx hk hm => ?_⟩
    · have hj' : j < p.locals.length := by rw [h.slots]; exact hj
      exact ⟨_, hheaded.phi j _ (List.getElem?_eq_getElem hj')⟩
    · have hle : b.graph.nodes.size < x := by
        rcases Nat.lt_trichotomy x b.graph.nodes.size with hlt | rfl | hgt
        · rw [hheaded.old x hlt] at hx
          have hm' : b.graph.nodes.size ∈ n.control := hm
          exact absurd (hs.wired.below x n _ hx (by simp [Node.edges, hm'])) (Nat.lt_irrefl _)
        · rw [hheaded.header] at hx
          cases hx
          cases hk
        · exact hgt
      obtain ⟨j, v, hj, rfl⟩ := hheaded.phi_at hle (lt_size_of_node? hx)
      exact ⟨j, h.slots ▸ (List.getElem?_eq_some_iff.1 hj).1, rfl⟩

/-- The end of the body leads back to the header. -/
theorem grows_closeLoop {header : NodeId} {o : Option Arrival} (hl : LoopOpen b.graph header slots)
    (hlow : base.nodes.size ≤ header) (ho : ∀ a ∈ o, a.Ready b.graph header slots) :
    Grows fails base q (tips o.toList) b (closeLoop ⟨header, List.range' (header + 1) slots⟩ o)
      (fun _ _ => True)
      fun _ => [] := by
  cases o with
  | none => exact .pure rfl trivial
  | some a =>
    intro C hbase hs
    have hready : a.Ready b.graph header slots := ho a rfl
    have hslots := hready.slots
    subst hslots
    refine Yields.imp (Q := fun u b' => (closeLoop ⟨header, List.range' (header + 1)
      a.path.locals.length⟩ (some a)).run b = .ok (u, b')) (.of_run rfl rfl) fun u b' hrun => ?_
    obtain ⟨hret, hclosed⟩ := run_closeLoop hrun
    refine ⟨⟨⟨hbase.size.trans hclosed.size.ge, fun id hid => ?_⟩, fun id n hid hn hk m hm => ?_⟩,
      hclosed.kept hl hready.dominated, trivial, [], by simp [hret], by simp,
      hs.close hclosed hl hready.dominated hready.locals⟩
    · rw [hclosed.same id (.inl (hid.trans_le hlow)), hbase.same id hid]
    · rcases hclosed.nodes hl id with ⟨-, e, -, h2⟩ | ⟨j, v, w, -, -, -, h2⟩ | ⟨-, -, heq⟩
      · rw [h2] at hn
        cases hn
        cases hk
      · rw [h2] at hn
        cases hn
        obtain rfl := List.mem_singleton.1 hm
        exact hlow
      · exact hbase.apart id n hid (heq ▸ hn) hk m hm

/-- A loop whose header stands and whose condition has a value. -/
theorem grows_loopOn {header condition : NodeId} {body : Path → Build (Option Arrival)}
    (h : Stage c b.graph slots p stack) (hv : b.graph.Available p.control condition)
    (hp : p.Ready b.graph header slots) (hl : LoopOpen b.graph header slots)
    (hlow : base.nodes.size ≤ header) (hq : b.graph.Dominates q header)
    (hbody : ∀ base p' b', Stage c b'.graph slots p' stack →
        Evaluates fails base slots p' b' (body p')) :
    Grows fails base q [p.control] b
      (loopOn c node ⟨header, List.range' (header + 1) slots⟩ condition stack p body)
      (fun g o => ∀ a ∈ o, a.Ready g q slots) fun o => tips o.toList := by
  have hfull : Stage c b.graph slots p (stack ++ [condition]) := h.with (by simpa using hv)
  have hqp : b.graph.Dominates q p.control := hq.trans hp.dominated
  have hhead : header < b.graph.nodes.size := by
    obtain ⟨e, he⟩ := hl.head
    exact lt_size_of_node? he
  unfold loopOn
  refine ((Grows.keep fun base => grows_branching hfull (by simp)).after h.here hqp).bind
    fun r b₁ hkept hr => ?_
  obtain ⟨hgrown, hr⟩ := hr
  have h₁ := h.kept hkept
  have hl₁ := hl.grown hgrown
  have hqp₁ : b₁.graph.Dominates q p.control := hkept.dominates _ _ h.here hqp
  have hhp₁ : b₁.graph.Dominates header p.control := hkept.dominates _ _ h.here hp.dominated
  cases r with
  | ended => exact grows_ended rfl
  | always taken p' =>
    have hready : p'.Ready b₁.graph p.control slots := hr
    cases taken with
    | false =>
      have hconst : Evaluates fails base slots p' b₁ _ := evaluates_constant (h₁.move hready) .null
      exact (hconst.after hready.here (hqp₁.trans hready.dominated)).imp (fun _ _ hk ho a ha =>
        (ho a ha).after (hk.dominates _ _ hready.here (hqp₁.trans hready.dominated)))
        fun _ _ _ => List.Perm.refl _
    | true =>
      have hloop : Grows fails base p'.control _ b₁ _ _ _ :=
        .keep fun base => hbody base p' b₁ (h₁.move hready)
      refine (hloop.after hready.here (hqp₁.trans hready.dominated)).bind fun o b₂ hk₂ ho => ?_
      refine (grows_closeLoop (hl₁.grown ho.1) hlow fun a ha => ?_).bind fun _ _ _ _ =>
        grows_ended rfl
      exact (ho.2 a ha).after (hk₂.dominates _ _ hready.here (hhp₁.trans hready.dominated))
  | either =>
    have hsplit : Grows fails base p.control _ b₁ _ _ _ := .keep fun base =>
      grows_split (h₁.with (fun y (hy : y ∈ []) => by simp at hy)) (hkept.available _ _ h.here hv)
    refine (hsplit.after h₁.here hqp₁).bind fun sides b₂ hk₂ hsides => ?_
    obtain ⟨inside, after⟩ := sides
    obtain ⟨hgrown₂, hin, hout⟩ := hsides
    have hqp₂ := hk₂.dominates _ _ h₁.here hqp₁
    have hloop : Grows fails base inside.control _ b₂ _ _ _ := .keep fun base =>
      hbody base inside b₂ ((h₁.kept hk₂).move hin)
    refine ((hloop.after hin.here (hqp₂.trans hin.dominated)).frame (D := [after.control])).bind
      fun o b₃ hk₃ ho => ?_
    have hclose : Grows fails base q _ b₃ _ _ _ :=
      grows_closeLoop ((hl₁.grown hgrown₂).grown ho.1) hlow fun a ha =>
      (ho.2 a ha).after
        (hk₃.dominates _ _ hin.here ((hk₂.dominates _ _ h₁.here hhp₁).trans hin.dominated))
    refine (hclose.frame (D := [after.control])).bind fun _ b₄ hk₄ _ => ?_
    have hk := hk₃.trans hk₄
    have hout₄ := hout.kept hk
    have hconst : Evaluates fails base slots after b₄ _ :=
      evaluates_constant (((h₁.kept hk₂).kept hk).move hout₄) .null
    have hqp₄ := hk.dominates _ _ (h₁.here.trans_le hk₂.size) hqp₂
    exact (hconst.after hout₄.here (hqp₄.trans hout₄.dominated)).imp (fun _ _ hk ho a ha =>
      (ho a ha).after (hk.dominates _ _ hout₄.here (hqp₄.trans hout₄.dominated)))
      fun _ _ _ => List.Perm.refl _

/-- A loop whose condition and body go on from where they are entered. -/
theorem evaluates_while {condition body : Path → Build (Option Arrival)}
    (h : Stage c b.graph slots p stack)
    (hcond : ∀ base p' b', Stage c b'.graph slots p' stack →
        Evaluates fails base slots p' b' (condition p'))
    (hbody : ∀ base p' b', Stage c b'.graph slots p' stack →
        Evaluates fails base slots p' b' (body p')) :
    Evaluates fails base slots p b (do
      let (l, p) ← openLoop p
      let some ⟨v, p⟩ ← condition p | return none
      loopOn c node l v stack p body) := by
  refine (grows_openLoop h).bind fun r b₁ hkept hr => ?_
  obtain ⟨l, p₁⟩ := r
  dsimp only at hr ⊢
  obtain ⟨hready, rfl, hl, hlow⟩ := hr
  have h₁ := (h.kept hkept).move hready
  have hc : Grows fails base p₁.control _ b₁ _ _ _ := .keep fun base => hcond base p₁ b₁ h₁
  refine (hc.after hready.here hready.dominated).bind fun o b₂ hk₂ ho => ?_
  obtain ⟨hgrown, ho⟩ := ho
  cases o with
  | none => exact grows_ended rfl
  | some a =>
    obtain ⟨v, p₂⟩ := a
    have ha : Arrival.Ready ⟨v, p₂⟩ b₂.graph p₁.control slots := ho _ rfl
    exact grows_loopOn ((h₁.kept hk₂).move ha.toReady) ha.value ha.toReady (hl.grown hgrown) hlow
      (hk₂.dominates _ _ hready.here hready.dominated) hbody

end Specialize

end TieredEngine

import TieredEngine.Proofs.Inlining.Replay
import TieredEngine.Proofs.Optimize.Reductions
import TieredEngine.Proofs.Specialize.Places
import TieredEngine.Proofs.Specialize.Success
/-!
# The calls that are left

Specialization goes through every expression of a routine at most once, and
enters an inlined routine once for every site. So no two calls of its graph
stand at the same place (`residual_eval`), and where a call stands, the plan
has an entry that was rejected (`callsResidual_of_covers`). Rewrites never add
a call. Hence a graph has at most as many calls as the plan has rejected
sites: `specialize_leaves_rejected`.
-/

namespace TieredEngine

namespace Specialize

open TieredEngine.Graph

variable {α β : Type} {g g' g'' : Graph}

/-! ## Steps that leave calls -/

/-- The step leaves calls below some sites of the routine, which is entered at
`up`. -/
structure Residual (wanted : NodeKind → Place → Prop) (c : Context) (up : Place)
    (sites : Set ExprId) (x : Build α) : Prop where
  leaves : ∀ b r b', b.graph.Stands c.outer up → x.run b = .ok (r, b') →
    Leaves wanted c.target up sites b.graph b'.graph

section

variable {wanted : NodeKind → Place → Prop} {c : Context} {up : Place} {sites sites' : Set ExprId}
    {x : Build α} {f : α → Build β}

theorem Silent.residual (h : Silent x) : Residual wanted c up ∅ x := by
  refine ⟨fun b r b' _ hrun => ?_⟩
  obtain ⟨hmarks, hno⟩ := h.quiet b r b' hrun
  refine ⟨hmarks, fun y k s hy hm hk => ?_, fun y _ k _ _ hy _ hcall => ?_⟩
  · rw [hno y k s hy hm] at hk
    cases hk
  · obtain ⟨hk, s, hm, -⟩ := hcall
    rw [hno y k s hy hm] at hk
    cases hk

theorem Residual.mono (h : Residual wanted c up sites x) (hs : sites ⊆ sites') :
    Residual wanted c up sites' x :=
  ⟨fun b r b' hb hrun => (h.leaves b r b' hb hrun).mono hs⟩

theorem Residual.bind (hx : Residual wanted c up sites x)
    (hf : ∀ a, Residual wanted c up sites' (f a)) (hd : Disjoint sites sites') :
    Residual wanted c up (sites ∪ sites') (x >>= f) := by
  refine ⟨fun b r b' hb hrun => ?_⟩
  obtain ⟨a, b₁, h1, h2⟩ := run_bind hrun
  have hfirst := hx.leaves b a b₁ hb h1
  exact hfirst.trans ((hf a).leaves b₁ r b' (hb.grown hfirst.marks) h2) hd

theorem Residual.after (hx : Silent x) (hf : ∀ a, Residual wanted c up sites (f a)) :
    Residual wanted c up sites (x >>= f) :=
  (hx.residual.bind hf (Set.empty_disjoint _)).mono (by simp)

theorem Residual.before (hx : Residual wanted c up sites x) (hf : ∀ a, Silent (f a)) :
    Residual wanted c up sites (x >>= f) :=
  (hx.bind (fun a => (hf a).residual) (Set.disjoint_empty _)).mono (by simp)

theorem Silent.within (h : Silent x) :
    Residual wanted c up sites x := h.residual.mono (Set.empty_subset _)

end

section

variable {wanted : NodeKind → Place → Prop} {c : Context} {up : Place} {sites sites' : Set ExprId}
    {node : ExprId} {stack : List NodeId} {p : Path}

/-- A value, and on from there below other sites; without a value nothing
follows. -/
theorem Residual.bindSome {x : Build (Option α)} {f : Option α → Build (Option β)}
    (hx : Residual wanted c up sites x) (hnone : f none = pure none)
    (hf : ∀ a, Residual wanted c up sites' (f (some a))) (hd : Disjoint sites sites') :
    Residual wanted c up (sites ∪ sites') (x >>= f) := by
  refine hx.bind (fun o => ?_) hd
  cases o with
  | none =>
    rw [hnone]
    exact (Silent.pure _).within
  | some a => exact hf a

/-- The same, where nothing is left after the value. -/
theorem Residual.beforeSome {x : Build (Option α)} {f : Option α → Build (Option β)}
    (hx : Residual wanted c up sites x) (hnone : f none = pure none)
    (hf : ∀ a, Silent (f (some a))) :
    Residual wanted c up sites (x >>= f) := by
  refine hx.before fun o => ?_
  cases o with
  | none =>
    rw [hnone]
    exact .pure _
  | some a => exact hf a

theorem residual_conditional {condition : NodeId} {onTrue onFalse : Path → Build (Option Arrival)}
    (hT : ∀ p, Residual wanted c up sites (onTrue p))
    (hF : ∀ p, Residual wanted c up sites' (onFalse p)) (hd : Disjoint sites sites') :
    Residual wanted c up (sites ∪ sites')
      (conditional c node condition stack p onTrue onFalse) := by
  unfold conditional
  refine .after (silent_branching _) fun way => ?_
  match way with
  | .ended => exact (Silent.pure _).within
  | .always true p => exact (hT p).mono Set.subset_union_left
  | .always false p => exact (hF p).mono Set.subset_union_right
  | .either =>
    exact .after (silent_split _ _) fun _ =>
      (hT _).bind (fun _ => (hF _).before fun _ => silent_join _) hd

theorem residual_loopOn {l : OpenLoop} {condition : NodeId} {body : Path → Build (Option Arrival)}
    (hB : ∀ p, Residual wanted c up sites (body p)) :
    Residual wanted c up sites (loopOn c node l condition stack p body) := by
  unfold loopOn
  refine .after (silent_branching _) fun way => ?_
  match way with
  | .ended => exact (Silent.pure _).within
  | .always false p => exact ((silent_constant _).bind fun _ => .pure _).within
  | .always true p => exact (hB p).before fun _ => (silent_closeLoop _ _).bind fun _ => .pure _
  | .either =>
    exact .after (silent_split _ _) fun _ => (hB _).before fun _ =>
      (silent_closeLoop _ _).bind fun _ => (silent_constant _).bind fun _ => .pure _

/-! ## Expressions -/

/-- The ids of an expression and of those inside it. -/
def idsOf (e : Expr) : Set ExprId := {i | i ∈ e.preorder.map Expr.id}

/-- The ids of some expressions and of those inside them. -/
def idsOfAll (es : List Expr) : Set ExprId := {i | i ∈ (Expr.preorderAll es).map Expr.id}

/-- No two expressions in the list, or inside, have the same id. -/
def Distinct (es : List Expr) : Prop := ((Expr.preorderAll es).map Expr.id).Nodup

theorem idsOfAll_cons (e : Expr) (es : List Expr) : idsOfAll (e :: es) = idsOf e ∪ idsOfAll es := by
  ext i
  simp only [idsOfAll, idsOf, Expr.preorderAll, List.map_append, List.mem_append, Set.mem_ofPred_eq,
    Set.mem_union]

@[simp]
theorem idsOfAll_nil : idsOfAll [] = ∅ := by
  ext i
  simp [idsOfAll, Expr.preorderAll]

theorem idsOf_eq (e : Expr) : idsOf e = insert e.id (idsOfAll e.children) := by
  ext i
  simp [idsOf, idsOfAll, Expr.preorder_eq e, eq_comm]

theorem Distinct.head {e : Expr} {es : List Expr} (h : Distinct (e :: es)) :
    Disjoint (idsOf e) (idsOfAll es) := by
  rw [Distinct, Expr.preorderAll, List.map_append] at h
  exact Set.disjoint_left.2 fun i hi hi' => (List.disjoint_of_nodup_append h) hi hi'

theorem Distinct.tail {e : Expr} {es : List Expr} (h : Distinct (e :: es)) : Distinct es := by
  rw [Distinct, Expr.preorderAll, List.map_append] at h
  exact h.of_append_right

theorem Distinct.of_mem {o : Expr} {es : List Expr} (h : Distinct es) (ho : o ∈ es) :
    Distinct [o] := by
  induction es with
  | nil => cases ho
  | cons e es ih =>
    rcases List.mem_cons.1 ho with rfl | ho
    · rw [Distinct, Expr.preorderAll, List.map_append] at h
      rw [Distinct, Expr.preorderAll, Expr.preorderAll, List.append_nil]
      exact h.of_append_left
    · exact ih h.tail ho

theorem Distinct.children {e : Expr} {es : List Expr} (h : Distinct (e :: es)) :
    e.id ∉ idsOfAll e.children ∧ Distinct e.children := by
  rw [Distinct, Expr.preorderAll, List.map_append] at h
  have := h.of_append_left
  rw [Expr.preorder_eq, List.map_cons, List.nodup_cons] at this
  exact this

/-- What becomes of a call once its arguments have values. -/
def callOn (c : Context) (id : ExprId) (target : TargetId) (arguments stack : List NodeId)
    (p : Path) : Build (Option Arrival) :=
  match c.entries.lookup id with
  | some enter => enter (frameState c id .afterCall stack p) arguments p
  | none => emitInvoke c id target arguments stack p

/-- Every call in the expression leaves calls below its own site. -/
def CallsResidual (wanted : NodeKind → Place → Prop) (c : Context) (up : Place) (e : Expr) : Prop :=
  ∀ id target args, .call id target args ∈ e.preorder → ∀ arguments stack p,
    Residual wanted c up {id} (callOn c id target arguments stack p)

theorem residual_evalBlock {es : List Expr}
    (he : ∀ e ∈ es, ∀ stack p, Residual wanted c up (idsOf e) (eval c e stack p))
    (hd : Distinct es) :
    ∀ last p, Residual wanted c up (idsOfAll es) (evalBlock c es last stack p) := by
  induction es with
  | nil =>
    intro last p
    rw [evalBlock]
    exact (Silent.pure _).within
  | cons e es ih =>
    intro last p
    rw [evalBlock, idsOfAll_cons]
    refine (he e List.mem_cons_self stack p).bindSome rfl (fun a => ?_) hd.head
    exact ih (fun e' he' => he e' (List.mem_cons_of_mem _ he')) hd.tail _ _

theorem residual_evalAll {es : List Expr}
    (he : ∀ e ∈ es, ∀ stack p, Residual wanted c up (idsOf e) (eval c e stack p))
    (hd : Distinct es) :
    ∀ done p, Residual wanted c up (idsOfAll es) (evalAll c es done stack p) := by
  induction es with
  | nil =>
    intro done p
    rw [evalAll]
    exact (Silent.pure _).within
  | cons e es ih =>
    intro done p
    rw [evalAll, idsOfAll_cons]
    refine (he e List.mem_cons_self _ p).bindSome rfl (fun a => ?_) hd.head
    exact ih (fun e' he' => he e' (List.mem_cons_of_mem _ he')) hd.tail _ _

/-- Specializing an expression leaves calls below its own sites. -/
theorem residual_eval : ∀ e, Distinct [e] → CallsResidual wanted c up e → ∀ stack p,
    Residual wanted c up (idsOf e) (eval c e stack p) := by
  refine Expr.induction_children fun e ih hd hcalls stack p => ?_
  obtain ⟨hid, hchildren⟩ := hd.children
  have hsub : idsOfAll e.children ⊆ idsOf e := idsOf_eq e ▸ Set.subset_insert _ _
  replace ih : ∀ o ∈ e.children, ∀ stack p,
    Residual wanted c up (idsOf o) (eval c o stack p) := fun o ho =>
    ih o ho (hchildren.of_mem ho) fun id target args hmem =>
      hcalls id target args (Expr.preorder_subset_of_mem_children ho hmem)
  cases e with
  | constant id v =>
    rw [eval]
    exact ((silent_constant v).bind fun _ => .pure _).within
  | argument id index =>
    rw [eval]
    split
    · exact (Silent.pure _).within
    · exact ((silent_constant .null).bind fun _ => .pure _).within
  | readLocal id slot =>
    rw [eval]
    split
    · exact (Silent.pure _).within
    · exact (Silent.throw _).within
  | writeLocal id slot o =>
    simp only [Expr.children, idsOfAll_cons, idsOfAll_nil, Set.union_empty] at hsub
    rw [eval]
    refine .mono ?_ hsub
    refine (ih o (by simp [Expr.children]) stack p).beforeSome rfl fun a => ?_
    dsimp only
    split
    · exact .pure _
    · exact .throw _
  | binary id op l r =>
    simp only [Expr.children, idsOfAll_cons, idsOfAll_nil, Set.union_empty] at hsub
    have hlr : Disjoint (idsOf l) (idsOf r) := by simpa [idsOfAll_cons] using hchildren.head
    rw [eval]
    refine .mono ?_ hsub
    refine (ih l (by simp [Expr.children]) stack p).bindSome rfl (fun a => ?_) hlr
    exact (ih r (by simp [Expr.children]) _ _).beforeSome rfl fun b => silent_emitBinary ..
  | unary id op o =>
    simp only [Expr.children, idsOfAll_cons, idsOfAll_nil, Set.union_empty] at hsub
    rw [eval]
    refine .mono ?_ hsub
    exact (ih o (by simp [Expr.children]) stack p).beforeSome rfl fun a => silent_emitUnary ..
  | block id parts =>
    rw [eval]
    exact (Residual.after (silent_constant .null) fun last =>
      residual_evalBlock ih hchildren last p).mono hsub
  | ifThen id condition body =>
    simp only [Expr.children, idsOfAll_cons, idsOfAll_nil, Set.union_empty] at hsub
    have hcb : Disjoint (idsOf condition) (idsOf body) := by
      simpa [idsOfAll_cons] using hchildren.head
    rw [eval]
    refine .mono ?_ hsub
    refine (ih condition (by simp [Expr.children]) stack p).bindSome rfl (fun a => ?_) hcb
    have hskip : ∀ p : Path,
        Residual wanted c up ∅ (do return some (Arrival.mk (← constant .null) p)) := fun p =>
      ((silent_constant .null).bind fun _ => .pure _).residual
    exact (residual_conditional (fun p => ih body (by simp [Expr.children]) stack p) hskip
      (Set.disjoint_empty _)).mono (by simp)
  | ifElse id condition body alternative =>
    simp only [Expr.children, idsOfAll_cons, idsOfAll_nil, Set.union_empty] at hsub
    have hc : Disjoint (idsOf condition) (idsOf body ∪ idsOf alternative) := by
      simpa [idsOfAll_cons] using hchildren.head
    have hba : Disjoint (idsOf body) (idsOf alternative) := by
      simpa [idsOfAll_cons] using hchildren.tail.head
    rw [eval]
    refine .mono ?_ hsub
    refine (ih condition (by simp [Expr.children]) stack p).bindSome rfl (fun a => ?_) hc
    exact residual_conditional (fun p => ih body (by simp [Expr.children]) stack p)
      (fun p => ih alternative (by simp [Expr.children]) stack p) hba
  | whileLoop id condition body =>
    simp only [Expr.children, idsOfAll_cons, idsOfAll_nil, Set.union_empty] at hsub
    have hcb : Disjoint (idsOf condition) (idsOf body) := by
      simpa [idsOfAll_cons] using hchildren.head
    rw [eval]
    refine Residual.after (silent_openLoop p) fun r => .mono ?_ hsub
    refine (ih condition (by simp [Expr.children]) stack _).bindSome rfl (fun a => ?_) hcb
    exact residual_loopOn fun p => ih body (by simp [Expr.children]) stack p
  | ret id o =>
    simp only [Expr.children, idsOfAll_cons, idsOfAll_nil, Set.union_empty] at hsub
    rw [eval]
    refine .mono ?_ hsub
    exact (ih o (by simp [Expr.children]) stack p).beforeSome rfl fun a => silent_recordReturn ..
  | call id target es =>
    have hown : Disjoint (idsOfAll es) {id} := Set.disjoint_singleton_right.2 hid
    rw [eval]
    rw [idsOf_eq, ← Set.union_singleton]
    refine (residual_evalAll ih hchildren [] p).bindSome rfl (fun r => ?_) hown
    exact hcalls id target es (Expr.self_mem_preorder _) r.1 stack r.2

/-! ## Calls -/

/-- A call that stays is at its own site. -/
theorem residual_emitInvoke {target : TargetId} {arguments : List NodeId}
    (hw : wanted (.invoke target node) ((c.target, node) :: up)) :
    Residual wanted c up {node} (emitInvoke c node target arguments stack p) := by
  refine ⟨fun b r b' hb hrun => ?_⟩
  obtain ⟨state, b₁, h1, h2⟩ := run_bind hrun
  obtain ⟨rfl, rfl⟩ := run_addNode h1
  obtain ⟨invoke, b₂, h3, h4⟩ := run_bind h2
  obtain ⟨rfl, rfl⟩ := run_addNode h3
  obtain ⟨-, rfl⟩ := run_pure h4
  generalize hf : ({ kind := .frameState _, inputs := _, state := c.outer } : Node) = frame
  have hsize : (b.push frame).graph.nodes.size = b.graph.nodes.size + 1 := by simp
  generalize hi :
    ({ kind := .invoke target node, inputs := _, control := _, state := _ } : Node) = call
  have hmarks : b.graph.SameMarks ((b.push frame).push call).graph :=
    (sameMarks_push b frame).trans (sameMarks_push _ call)
  have hmark : ∀ y k s, b.graph.nodes.size ≤ y →
      ((b.push frame).push call).graph.mark y = some (k, s) → k.isInvoke →
      y = b.graph.nodes.size + 1 ∧ k = .invoke target node ∧ s = some b.graph.nodes.size := by
    intro y k s hy hm hk
    rw [mark_push, mark_push, hsize] at hm
    split at hm
    · cases hi
      cases hm
      exact ⟨‹_›, rfl, rfl⟩
    · split at hm
      · cases hf
        cases hm
        cases hk
      · exact absurd (lt_size_of_mark hm) (Nat.not_lt.2 hy)
  refine ⟨hmarks, fun y k s hy hm hk => ?_, fun y z k l place hy hz hcy hcz => ?_⟩
  · obtain ⟨rfl, rfl, rfl⟩ := hmark y k s hy hm hk
    refine ⟨node, rfl, (c.target, node) :: up, ⟨hk, _, hm, ?_⟩, hw, List.suffix_refl _⟩
    cases hf
    exact @Stands.frame _ _ (.ofLengths c.target node .afterCall c.arguments.length p.locals.length
      stack.length) _ _ (by simp [mark_push]) (hb.grown hmarks)
  · obtain ⟨hky, s, hmy, -⟩ := hcy
    obtain ⟨hkz, t, hmz, -⟩ := hcz
    rw [(hmark y k s hy hmy hky).1, (hmark z l t hz hmz hkz).1]

/-- What is left inside a routine that is entered at a site is left below the
site. -/
theorem Residual.enter {x : NodeId → Build α} {c' : NodeId → Context}
    (ho : ∀ outer, (c' outer).outer = some outer)
    (hx : ∀ outer, Residual wanted (c' outer) ((c.target, node) :: up) sites (x outer)) :
    Residual wanted c up {node} (frameState c node .afterCall stack p >>= x) := by
  refine ⟨fun b r b' hb hrun => ?_⟩
  obtain ⟨outer, b₁, h1, h2⟩ := run_bind hrun
  have hframe : Residual wanted c up ∅ (frameState c node .afterCall stack p) :=
    (silent_frameState c node .afterCall stack p).residual
  have hstands : b₁.graph.Stands (c' outer).outer ((c.target, node) :: up) := by
    obtain ⟨rfl, rfl⟩ := run_addNode h1
    rw [ho]
    exact @Stands.frame _ _ (.ofLengths c.target node .afterCall c.arguments.length p.locals.length
      stack.length) _ _ (by rw [mark_push, if_pos rfl]) (hb.grown (sameMarks_push b _))
  have hinside := ((hx outer).leaves b₁ r b' hstands h2).outer
  exact ((hframe.leaves b outer b₁ hb h1).trans hinside (Set.empty_disjoint _)).mono (by simp)

theorem residual_inlineRoutine {target : TargetId} {callee : CallTarget}
    {entries : List (ExprId × Entry)} {outer : NodeId} {arguments : List NodeId}
    (h : ∀ inside, Residual wanted c up sites (eval c callee.routine.body [] inside))
    (hc : c = ⟨target, callee.routine.name, callee.profile, arguments, some outer, entries⟩) :
    Residual wanted c up sites (inlineRoutine target callee entries outer arguments p) := by
  subst hc
  refine .after (silent_constant .null) fun _ => .after Silent.get fun _ =>
    .after (silent_modifyReturns fun _ => []) fun _ => ?_
  exact (h _).before fun _ => (silent_finishRoutine _).bind fun _ =>
    (silent_modifyReturns fun _ => _).bind fun _ => .pure _

end

/-! ## Plans -/

section

open TieredEngine.Plan

variable {targets : Registry} {root : TargetId} {vs : List Visit}

/-- The routine that is entered by the innermost of some inlined entries. -/
def targetAt (root : TargetId) : List PlanEntry → TargetId
  | [] => root
  | e :: _ => e.target

/-- The place where that routine is entered. -/
def placeAbove (root : TargetId) : List PlanEntry → Place
  | [] => []
  | e :: above => (targetAt root above, e.site) :: placeAbove root above

/-- The place of an entry's call. -/
def placeOf (root : TargetId) (v : Visit) : Place :=
  (targetAt root v.above, v.entry.site) :: placeAbove root v.above

theorem targets_placeOf (root : TargetId) (v : Visit) :
    (placeOf root v).map Prod.fst = v.above.map PlanEntry.target ++ [root] := by
  have h : ∀ above, targetAt root above :: (placeAbove root above).map Prod.fst = above.map
      PlanEntry.target ++ [root] := by
    intro above
    induction above with
    | nil => rfl
    | cons e above ih =>
      rw [placeAbove, List.map_cons, ih, targetAt, List.map_cons, List.cons_append]
  exact h v.above

/-- Some entry was rejected whose call is of this kind and at this place. -/
def Rejected (root : TargetId) (vs : List Visit) (k : NodeKind) (place : Place) : Prop :=
  ∃ v ∈ vs, v.isInlined = false ∧ k = .invoke v.entry.target v.entry.site ∧ place = placeOf root v

theorem mem_visitsBelow {above es : List PlanEntry} {e : PlanEntry} (he : e ∈ es) :
    entryVisits above e ⊆ visitsBelow above es := by
  induction es with
  | nil => cases he
  | cons e' es ih =>
    rw [visitsBelow]
    rcases List.mem_cons.1 he with rfl | he
    · exact List.subset_append_left _ _
    · exact List.subset_append_of_subset_right _ (ih he)

theorem rejected_of_lookup {id : ExprId} {es : List PlanEntry}
    (h : (entriesOf targets es).lookup id = none) {e : PlanEntry} (he : e ∈ es)
    (hid : e.site = id) : e.isInlined = false := by
  induction es with
  | nil => cases he
  | cons e' es ih =>
    rw [entriesOf] at h
    split at h
    case isTrue hin =>
      rw [List.lookup_cons] at h
      split at h
      case h_1 => cases h
      case h_2 hne =>
        rcases List.mem_cons.1 he with rfl | he
        · simp [hid] at hne
        · exact ih h he
    case isFalse hin =>
      rcases List.mem_cons.1 he with rfl | he
      · simpa using hin
      · exact ih h he

theorem distinct_body (r : Routine) : Distinct [r.body] := by
  obtain ⟨e, he⟩ := r.numbered
  rw [Distinct, Expr.preorderAll, Expr.preorderAll, List.append_nil, he, Expr.preorder_number_ids]
  exact List.nodup_range'

/-- An inlined call leaves what the body of its callee does. -/
theorem residual_entryOf {wanted : NodeKind → Place → Prop} {c : Context} {up : Place}
    {e : PlanEntry} {node : ExprId} {arguments stack : List NodeId} {p : Path}
    (h : ∀ callee, targets[e.target]? = some callee → ∀ c' : Context, c'.target = e.target →
      c'.entries = entriesOf targets e.children →
        CallsResidual wanted c' ((c.target, node) :: up) callee.routine.body) :
    Residual wanted c up {node}
      (entryOf targets e (frameState c node .afterCall stack p) arguments p) := by
  obtain ⟨site, target, decision, children⟩ := e
  rw [entryOf]
  cases hcallee : targets[target]? with
  | none => exact (Silent.throw _).within
  | some callee =>
    let inner : NodeId → Context := fun outer =>
      ⟨target, callee.routine.name, callee.profile, arguments, some outer,
        entriesOf targets children⟩
    have hinner : ∀ outer,
        Residual wanted (inner outer) ((c.target, node) :: up) (idsOf callee.routine.body)
        (inlineRoutine target callee (entriesOf targets children) outer arguments p) := fun outer =>
      residual_inlineRoutine (fun inside =>
        residual_eval _ (distinct_body _) (h callee hcallee _ rfl rfl) _ _) rfl
    exact .enter (fun _ => rfl) hinner

/-- Under a plan that covers the routine, what is left at each call was
rejected. -/
theorem callsResidual_of_covers {routines : TargetId → Option Routine} {r : Routine}
    {es : List PlanEntry} (h : Covers routines r es)
    (hsame : ∀ target r, routines target = some r → routinesOf targets target = some r) :
    ∀ {above : List PlanEntry} {c : Context}, visitsBelow above es ⊆ vs →
      c.target = targetAt root above → c.entries = entriesOf targets es →
        CallsResidual (Rejected root vs) c (placeAbove root above) r.body := by
  induction h with
  | @mk r es hsites hsome _ _ ih =>
    intro above c hvs htarget hentries id target args hmem arguments stack p
    obtain ⟨e, he, hsite⟩ : ∃ e ∈ es, (e.site, e.target) = (id, target) := by
      have : (id, target) ∈ r.callSites := List.mem_filterMap.2 ⟨_, hmem, rfl⟩
      rw [← hsites] at this
      exact List.mem_map.1 this
    obtain ⟨rfl, rfl⟩ := Prod.mk.inj hsite
    unfold callOn
    rw [hentries]
    cases hl : (entriesOf targets es).lookup e.site with
    | none =>
      refine residual_emitInvoke
        ⟨⟨above, e⟩, hvs (mem_visitsBelow he ?_), rejected_of_lookup hl he rfl, rfl, ?_⟩
      · rw [entryVisits_eq]
        exact List.mem_cons_self
      · rw [placeOf, htarget]
    | some enter =>
      obtain ⟨e', he', hid, hin, rfl⟩ := inlined_of_lookup hl
      have hbelow : visitsBelow (e' :: above) e'.children ⊆ vs :=
        fun v hv => hvs (mem_visitsBelow he' (by
        rw [entryVisits_eq]
        exact List.mem_cons_of_mem _ hv))
      obtain ⟨r', hr'⟩ := Option.isSome_iff_exists.1 (hsome e' he')
      refine residual_entryOf fun callee hcallee c' htarget' hentries' => ?_
      obtain rfl : callee.routine = r' := by simpa [routinesOf, hcallee] using hsame _ _ hr'
      rw [htarget, ← hid]
      exact ih e' he' hin _ hr' hbelow htarget' hentries'

theorem residual_buildRoutine {wanted : NodeKind → Place → Prop} {target : TargetId}
    {t : CallTarget} {entries : List (ExprId × Entry)} {c₀ : Context} (ho : c₀.outer = none)
    (ht : c₀.target = target)
    (h : ∀ c : Context, c.target = target → c.entries = entries →
        CallsResidual wanted c [] t.routine.body) :
    Residual wanted c₀ [] (idsOf t.routine.body) (buildRoutine target t entries) := by
  unfold buildRoutine
  refine .after (Silent.mapM (fun _ => silent_addNode rfl) _) fun arguments =>
    .after (silent_constant .null) fun null =>
    .after (silent_guardEntry _ _ _) fun p => ?_
  let c : Context :=
    { target, name := t.routine.name, profile := t.profile, arguments, outer := none, entries }
  have hbody : Residual wanted c₀ [] (idsOf t.routine.body) (eval c t.routine.body [] p) := by
    refine ⟨fun b r b' hb hrun => ?_⟩
    rw [ho] at hb
    rw [ht]
    exact (residual_eval _ (distinct_body _) (h c rfl rfl) [] p).leaves b r b' hb hrun
  refine hbody.before fun o => (silent_finishRoutine o).bind fun r => ?_
  cases r with
  | none => exact .pure _
  | some a => exact (silent_addNode rfl).bind fun _ => .pure _

end

end Specialize

/-! ## Graphs and their plans -/

namespace Graph

open Specialize TieredEngine.Plan

variable {g g' : Graph} {plan : Plan} {x : NodeId} {k : NodeKind}

/-- The chain of frames from a state edge on is at the place where they
stand. -/
theorem frames_of_stands (fuel : ℕ) :
    ∀ {s place}, (g.followStates fuel s).ending = .complete → g.Stands (some s) place →
      (g.followStates fuel s).frames.map (fun f => (f.1.target, f.1.node)) = place := by
  induction fuel with
  | zero => exact fun h => nomatch h
  | succ fuel ih =>
    intro s place hend hs
    cases hs with
    | @frame _ shape outer place hm hrest =>
      obtain ⟨⟨kind, inputs, control, state⟩, hn, heq⟩ := Option.map_eq_some_iff.1 hm
      obtain ⟨rfl, rfl⟩ := Prod.mk.inj heq
      simp only [followStates, hn] at hend ⊢
      split at hend
      case isFalse => cases hend
      case isTrue hl =>
        rw [if_pos hl]
        cases state with
        | none =>
          cases hrest
          rfl
        | some outer =>
          dsimp only at hend ⊢
          rw [List.map_cons, ih hend hrest]

/-- What can hand over has a chain of frames that ends. -/
theorem complete_of_verifyFrameStates {n : Node} {s : NodeId} (h : g.verifyFrameStates = .ok ())
    (hn : g.node? x = some n) (hk : n.kind.canDeoptimize) (hs : n.state = some s) :
    (g.stateChain s).ending = .complete := by
  obtain ⟨s', hs', hend⟩ := verifyFrameStates_eq_ok_iff.1 h x n hn hk
  obtain rfl := Option.some.inj (hs.symm.trans hs')
  exact hend

/-- Every call of the graph is at a rejected site of the plan, and no two at
the same: the entry names the site and the callee, and the frames of the call
are those of the inlined entries around it and of the root. -/
def CallsAreRejected (g : Graph) (plan : Plan) : Prop :=
  ∃ entryAt : NodeId → ℕ, Set.InjOn entryAt {x | x ∈ g.idsWhere NodeKind.isInvoke} ∧
    ∀ x n target site, g.node? x = some n → n.kind = .invoke target site → ∃ v state,
      plan.visits[entryAt x]? = some v ∧ v.isInlined = false ∧ v.entry.site = site ∧
        v.entry.target = target ∧ n.state = some state ∧ (g.stateChain state).ending = .complete ∧
        (g.stateChain state).frames.map
          (fun f => f.1.target) = v.above.map PlanEntry.target ++ [plan.root]

/-- The graph has at most as many calls as the plan has rejected sites, and
none if every site is inlined. -/
structure FewCalls (g : Graph) (plan : Plan) : Prop where
  count : (g.idsWhere NodeKind.isInvoke).length ≤ plan.stats.rejected
  none : (∀ v ∈ plan.visits, v.isInlined) → g.idsWhere NodeKind.isInvoke = []

/-- A call of the graph of a routine is a rejected call of its plan. -/
theorem exists_visit {name : String} {target : TargetId} {sites : Set ExprId} {vs : List Visit}
    (h : Leaves (Rejected target vs) target [] sites (Graph.init name) g)
    (hx : x ∈ g.idsWhere NodeKind.isInvoke) :
    1 ≤ x ∧ ∃ (i : ℕ) (v : Visit), vs[i]? = some v ∧ v.isInlined = false ∧
      g.CallAt x (.invoke v.entry.target v.entry.site) (placeOf target v) := by
  obtain ⟨k, hk, hinvoke⟩ := mem_idsWhere.1 hx
  obtain ⟨n, hn, rfl⟩ := kind?_eq_some.1 hk
  have hm : g.mark x = some (n.kind, n.state) := by rw [mark, hn]; rfl
  have hpos : 1 ≤ x := by
    refine Nat.one_le_iff_ne_zero.2 ?_
    rintro rfl
    have hstart : (Graph.init name).mark 0 = some (.start, none) := rfl
    rw [h.marks.mark 0 Nat.zero_lt_one, hstart] at hm
    rw [← (Prod.mk.inj (Option.some.inj hm)).1] at hinvoke
    cases hinvoke
  obtain ⟨site, -, place, hcall, ⟨v, hv, hrejected, hkind, rfl⟩, -⟩ := h.place x _ _ hpos hm hinvoke
  obtain ⟨i, hi⟩ := List.getElem?_of_mem hv
  exact ⟨hpos, i, v, hi, hrejected, hkind ▸ hcall⟩

theorem callsAreRejected {name : String} {sites : Set ExprId}
    (h : Leaves (Rejected plan.root plan.visits) plan.root [] sites (Graph.init name) g)
    (hf : g.verifyFrameStates = .ok ()) :
    g.CallsAreRejected plan := by
  have hentry : ∀ x, ∃ i : ℕ, x ∈ g.idsWhere NodeKind.isInvoke → ∃ v, plan.visits[i]? = some v ∧
      v.isInlined = false ∧
      g.CallAt x (.invoke v.entry.target v.entry.site) (placeOf plan.root v) := by
    intro x
    by_cases hx : x ∈ g.idsWhere NodeKind.isInvoke
    · obtain ⟨-, i, hi⟩ := exists_visit h hx
      exact ⟨i, fun _ => hi⟩
    · exact ⟨0, fun hx' => absurd hx' hx⟩
  choose entryAt hentryAt using hentry
  refine ⟨entryAt, fun x hx y hy hxy => ?_, fun x n target site hn hk => ?_⟩
  · obtain ⟨v, hv, -, hcall⟩ := hentryAt x hx
    obtain ⟨w, hw, -, hcall'⟩ := hentryAt y hy
    rw [← hxy, hv] at hw
    obtain rfl := Option.some.inj hw
    exact h.apart x y _ _ _ (exists_visit h hx).1 (exists_visit h hy).1 hcall hcall'
  · have hx : x ∈ g.idsWhere NodeKind.isInvoke :=
      mem_idsWhere.2 ⟨_, kind?_eq_some.2 ⟨n, hn, hk⟩, rfl⟩
    obtain ⟨v, hv, hrejected, -, s, hm, hs⟩ := hentryAt x hx
    rw [mark, hn, Option.map_some] at hm
    obtain ⟨hkind, rfl⟩ := Prod.mk.inj (Option.some.inj hm)
    rw [hk] at hkind
    obtain ⟨rfl, rfl⟩ := NodeKind.invoke.inj hkind
    cases hstate : n.state with
    | none =>
      rw [hstate] at hs
      cases hs
    | some state =>
      rw [hstate] at hs
      have hcomplete := complete_of_verifyFrameStates hf hn (by rw [hk]; rfl) hstate
      refine ⟨v, state, hv, hrejected, rfl, rfl, rfl, hcomplete, ?_⟩
      rw [← targets_placeOf, ← frames_of_stands _ hcomplete hs, List.map_map]
      rfl

theorem length_filter_range {α : Type} (p : α → Bool) (xs : List α) :
    ((List.range xs.length).filter fun i => (xs[i]?).any p).length = xs.countP p := by
  induction xs with
  | nil => rfl
  | cons x xs ih =>
    rw [List.length_cons, List.range_succ_eq_map, List.filter_cons, List.filter_map,
      List.countP_cons, ← ih]
    by_cases hp : p x <;> simp [hp, Function.comp_def]

/-- Different calls are different rejected sites, so there are not more
calls. -/
theorem CallsAreRejected.fewCalls (h : g.CallsAreRejected plan)
    (hstats : plan.stats = tally plan.visits) : g.FewCalls plan := by
  obtain ⟨entryAt, hinj, hentry⟩ := h
  have hrejected : ∀ x ∈ g.idsWhere NodeKind.isInvoke, ∃ v, plan.visits[entryAt x]? = some v ∧
      v.isInlined = false := by
    intro x hx
    obtain ⟨k, hk, hinvoke⟩ := mem_idsWhere.1 hx
    obtain ⟨n, hn, rfl⟩ := kind?_eq_some.1 hk
    obtain ⟨target, site, hkind⟩ : ∃ target site, n.kind = .invoke target site := by
      revert hinvoke
      cases n.kind <;> simp [NodeKind.isInvoke]
    obtain ⟨v, -, hv, hr, -⟩ := hentry x n target site hn hkind
    exact ⟨v, hv, hr⟩
  refine ⟨?_, fun hall => List.eq_nil_iff_forall_not_mem.2 fun x hx => ?_⟩
  · have hnodup : ((g.idsWhere NodeKind.isInvoke).map entryAt).Nodup :=
      List.Nodup.map_on (fun x hx y hy => hinj hx hy) (g.entries_filter_nodup _)
    have hsub : (g.idsWhere NodeKind.isInvoke).map entryAt ⊆ (List.range plan.visits.length).filter
        fun i => (plan.visits[i]?).any fun v => !v.isInlined := by
      intro i hi
      obtain ⟨x, hx, rfl⟩ := List.mem_map.1 hi
      obtain ⟨v, hv, hr⟩ := hrejected x hx
      exact List.mem_filter.2
        ⟨List.mem_range.2 (List.getElem?_eq_some_iff.1 hv).1, by simp [hv, hr]⟩
    have hle := (List.subperm_of_subset hnodup hsub).length_le
    rw [List.length_map, length_filter_range] at hle
    rw [hstats]
    exact hle
  · obtain ⟨v, hv, hr⟩ := hrejected x hx
    rw [hall v (List.mem_of_getElem? hv)] at hr
    cases hr

/-! ## Rewrites -/

/-- A rewrite adds no call. -/
theorem Rewrite.call_of_call (h : g.Rewrite g') (hf : g.Formed) (hk : g'.kind? x = some k)
    (hi : k.isInvoke) : g.kind? x = some k := by
  obtain ⟨n, hn, rfl⟩ := kind?_eq_some.1 hk
  rw [kind?_eq_some]
  cases h with
  | constant v =>
    change (g.add { kind := .constant v }).1.node? x = some n at hn
    rw [node?_add] at hn
    split at hn
    · cases hn
      cases hi
    · exact ⟨n, hn, rfl⟩
  | simplify _ | share _ _ _ _ | phi _ _ _ _ _ =>
    obtain ⟨-, n₀, hn₀, rfl⟩ := node?_replaceValue_eq_some.1 hn
    exact ⟨n₀, hn₀, rfl⟩
  | swap hm _ _ hin =>
    rw [node?_swapped hm hin] at hn
    split at hn
    · subst x
      cases hn
      exact ⟨_, hm, rfl⟩
    · exact ⟨n, hn, rfl⟩
  | join _ _ _ _ | guard _ _ _ _ _ =>
    obtain ⟨-, -, n₀, hn₀, rfl⟩ := node?_spliced_eq_some.1 hn
    exact ⟨n₀, hn₀, rfl⟩
  | @branch _ _ _ _ b _ _ hm hkm _ hc _ hs =>
    have hsk := (splice_branch hf.orderly hm hkm hc hs b).skeleton_spliced hf.orderly
    obtain ⟨n₁, hn₁, hkind, -⟩ := (cut_cutUnreachable hsk).exists_old hsk hn
    obtain ⟨-, -, n₀, hn₀, rfl⟩ := node?_spliced_eq_some.1 hn₁
    exact ⟨n₀, hn₀, hkind.symm⟩
  | sweep => exact ⟨n, (node?_sweepDead.1 hn).1, rfl⟩

theorem Rewrites.call_of_call (h : Rewrites g g') (hf : g.Formed) (hk : g'.kind? x = some k)
    (hi : k.isInvoke) : g.kind? x = some k := by
  induction h with
  | refl => exact hk
  | tail h₁ h₂ ih => exact ih (h₂.call_of_call (Rewrites.formed h₁ hf) hk hi)

theorem FewCalls.of_calls (h : g.FewCalls plan)
    (hc : ∀ x k, g'.kind? x = some k → k.isInvoke → g.kind? x = some k) :
    g'.FewCalls plan := by
  have hsub : g'.idsWhere NodeKind.isInvoke ⊆ g.idsWhere NodeKind.isInvoke := by
    intro x hx
    obtain ⟨k, hk, hi⟩ := mem_idsWhere.1 hx
    exact mem_idsWhere.2 ⟨k, hc x k hk hi, hi⟩
  refine ⟨(List.subperm_of_subset (g'.entries_filter_nodup _) hsub).length_le.trans h.count,
    fun hall => ?_⟩
  have hnil := h.none hall
  rw [hnil] at hsub
  exact List.subset_nil.1 hsub

end Graph

/-! ## Specialization -/

namespace Engine

open Specialize TieredEngine.Plan

/-- The calls that specialization leaves under a plan are rejected sites of
the plan, each at most once, and the optimizer adds none: so there are at most
as many as sites were rejected, and none where every site is inlined. There is
such a graph where words can count slots and values. -/
theorem specialize_leaves_rejected {targets earlier : Registry} {policy : InliningPolicy}
    {budget bound : ℕ} {id : TargetId} {t : CallTarget} {plan : Plan}
    (hplan : (Plan.build earlier policy budget bound id t.routine
        () : Outcome CompileError Unit Plan) = .done plan ())
    (hsame : ∀ target r, routinesOf earlier target = some r → routinesOf targets target = some r) :
    (FitsWords targets t.routine → ∃ g, specialize targets id t plan = .ok g) ∧
      ∀ g, specialize targets id t plan = .ok g → g.CallsAreRejected plan ∧ g.FewCalls plan ∧
        ∀ cap, ∃ g' s, Optimize.optimize cap g = .ok (g', s) ∧ g'.FewCalls plan ∧
          ∀ x k, g'.kind? x = some k → k.isInvoke → g.kind? x = some k := by
  have hplanned : PlannedFor targets id t.routine plan :=
    .inr ⟨earlier, policy, budget, bound, hplan, hsame⟩
  refine ⟨specialize_succeeds hplanned, fun g hg => ?_⟩
  have hformed := formed_of_specialize hg
  have hroot : plan.root = id := hplanned.root
  obtain ⟨⟨b, hrun, rfl⟩, -⟩ := run_of_specialize hg
  obtain ⟨hcovers, hstats⟩ : Covers (routinesOf earlier) t.routine plan.entries ∧
      plan.stats = tally plan.visits := by
    unfold Plan.build at hplan
    split at hplan
    next es p hp =>
      cases hplan
      obtain ⟨hcovers, hdecides⟩ := decides_of_decideSites bound [] hp
      exact ⟨hcovers, hdecides.stats.trans (PlanStats.zero_plus _)⟩
    all_goals cases hplan
  have hleaves : Leaves (Rejected plan.root plan.visits) plan.root [] (idsOf t.routine.body)
      (Graph.init t.routine.name) b.graph := by
    let outermost : Context := ⟨plan.root, t.routine.name, t.profile, [], none, []⟩
    have hres : Residual (Rejected plan.root plan.visits) outermost [] (idsOf t.routine.body)
        (buildRoutine id t (entriesOf targets plan.entries)) := by
      rw [← hroot]
      refine residual_buildRoutine rfl rfl fun c hc hentries => ?_
      have hbelow : visitsBelow [] plan.entries ⊆ plan.visits := List.Subset.refl _
      exact callsResidual_of_covers hcovers hsame hbelow hc hentries
    exact hres.leaves _ _ _ .root hrun
  have hcalls := Graph.callsAreRejected hleaves (Graph.verifyFrameStates_of_formed hformed)
  have hfew := hcalls.fewCalls hstats
  refine ⟨hcalls, hfew, fun cap => ?_⟩
  obtain ⟨g', s, hopt, hrewrites, -⟩ := Optimize.optimize_rewrites cap hformed
  have hold : ∀ x k, g'.kind? x = some k → k.isInvoke → b.graph.kind? x = some k := fun x k hk hi =>
    hrewrites.call_of_call hformed hk hi
  exact ⟨g', s, hopt, hfew.of_calls hold, hold⟩

/-- A target that calls itself twice, inside a call of itself. -/
def nested : CallTarget := .ofRoutine (.ofBody "nested" 1 (.block 0 [.ifThen 0 (.argument 0 0)
      (.call 0 0 [.argument 0 0]), .call 0 0 [.call 0 0 [.argument 0 0]]]))

/-- Of the calls in a routine that is inlined into itself once, only those are
left that the depth rejected. -/
theorem specialize_nested_leaves : ∃ plan : Plan,
    (Plan.build #[nested]
      ⟨fun _ context => if context.depth = 0 then .inline else .keep (.depthExceeded 1 1)⟩ 100 3 0
      nested.routine () : Outcome CompileError Unit Plan) = .done plan () ∧
        plan.stats.rejected = 9 ∧
      ∃ g, specialize #[nested] 0 nested plan = .ok g ∧ g.CallsAreRejected plan ∧ g.FewCalls plan ∧
        ∀ cap, ∃ g' s, Optimize.optimize cap g = .ok (g', s) ∧ g'.FewCalls plan ∧
          ∀ x k, g'.kind? x = some k → k.isInvoke → g.kind? x = some k := by
  obtain ⟨plan, hplan, hrejected⟩ : ∃ plan : Plan,
      (Plan.build #[nested]
        ⟨fun _ context => if context.depth = 0 then .inline else .keep (.depthExceeded 1 1)⟩ 100 3 0
        nested.routine () : Outcome CompileError Unit Plan) = .done plan () ∧
          plan.stats.rejected = 9 := ⟨_, rfl, by decide +kernel⟩
  obtain ⟨hexists, hleaves⟩ := specialize_leaves_rejected hplan fun _ _ h => h
  obtain ⟨g, hg⟩ := hexists ⟨by decide, by decide, by decide⟩
  exact ⟨plan, hplan, hrejected, g, hg, hleaves g hg⟩

end Engine

end TieredEngine

import TieredEngine.Proofs.Specialize.Scopes
/-!
# Operations of a routine under specialization

The building steps for single operations: constants, frame states, guards,
hand-overs, operators and calls that stay calls. Each is a `Scope.Builds`: it
starts where an expression has its operands and is about to act, and ends
where the expression has its value.
-/

namespace TieredEngine

/-! ## Types of values -/

theorem BinaryOp.type_of_apply {op : BinaryOp} {a b v : Value} (h : op.apply a b = .ok v) :
    v.type = op.resultType := by
  unfold BinaryOp.apply at h
  split at h
  · subst ‹op = _›
    cases h
    rfl
  · split at h
    · cases h
      cases op <;> rfl
    · cases h

theorem UnaryOp.type_of_apply {op : UnaryOp} {a v : Value} (h : op.apply a = .ok v) :
    v.type = op.resultType := by
  unfold UnaryOp.apply at h
  split at h
  · cases h; rfl
  · cases h; rfl
  · cases h

/-- An operator succeeds on operands of its type. -/
theorem BinaryOp.apply_of_type {op : BinaryOp} {t : ValueType} (ht : op.operandType = some t)
    {a b : Value} (ha : a.type = t) (hb : b.type = t) : ∃ v, op.apply a b = .ok v := by
  cases op <;> cases ht <;> cases a <;> cases ha <;> cases b <;> cases hb <;> exact ⟨_, rfl⟩

theorem BinaryOp.apply_of_untyped {op : BinaryOp} (ht : op.operandType = none) (a b : Value) :
    ∃ v, op.apply a b = .ok v := by
  cases op <;> cases ht
  exact ⟨_, rfl⟩

theorem UnaryOp.apply_of_type {op : UnaryOp} {a : Value} (ha : a.type = op.operandType) :
    ∃ v, op.apply a = .ok v := by
  cases op <;> cases a <;> cases ha <;> exact ⟨_, rfl⟩

/-- A value has the type that its node's kind tells. -/
theorem Denotes.type_of_stamp {whole : Graph} {ρ : Bindings} {arguments : List Value} {id : NodeId}
    {k : NodeKind} {t : ValueType} {v : Value} (h : Denotes whole arguments ρ id v)
    (hk : whole.kind? id = some k) (ht : k.stamp = some t) :
    v.type = t := by
  obtain ⟨n, hn, rfl⟩ := Graph.kind?_eq_some.1 hk
  cases h with
  | constant h hk =>
    obtain rfl := Option.some.inj (hn.symm.trans h)
    rw [hk] at ht
    cases ht
    rfl
  | parameter h hk =>
    obtain rfl := Option.some.inj (hn.symm.trans h)
    rw [hk] at ht
    cases ht
  | binary h hk _ _ _ _ ho =>
    obtain rfl := Option.some.inj (hn.symm.trans h)
    rw [hk] at ht
    cases ht
    exact BinaryOp.type_of_apply ho
  | unary h hk _ _ ho =>
    obtain rfl := Option.some.inj (hn.symm.trans h)
    rw [hk] at ht
    cases ht
    exact UnaryOp.type_of_apply ho
  | register h hk =>
    obtain rfl := Option.some.inj (hn.symm.trans h)
    generalize n.kind = kind at hk ht
    cases kind <;> simp_all [NodeKind.isRegister, NodeKind.stamp]

namespace Specialize

open Code (Effects Leads)

variable {X : Setting} {g g' whole : Graph} {ρ : Bindings}

/-! ## What a graph says about values -/

theorem forall₂_exists_of_mem {α β : Type} {R : α → β → Prop} {xs : List α} {ys : List β}
    (h : List.Forall₂ R xs ys) {x : α} (hx : x ∈ xs) : ∃ y ∈ ys, R x y := by
  induction h with
  | nil => cases hx
  | cons h1 _ ih =>
    rcases List.mem_cons.1 hx with rfl | hx
    · exact ⟨_, List.mem_cons_self, h1⟩
    · obtain ⟨y, hy, h⟩ := ih hx
      exact ⟨y, List.mem_cons_of_mem _ hy, h⟩

theorem Fits.kind_eq (hf : Fits g g' whole) {id : NodeId} {k : NodeKind} {t : ValueType}
    (h : g'.kind? id = some k) (ht : k.stamp = some t) : whole.kind? id = some k := by
  obtain ⟨n, hn, rfl⟩ := Graph.kind?_eq_some.1 h
  refine Graph.kind?_eq_some.2 ⟨n, hf.plain id n hn ?_ ?_, rfl⟩ <;> intro hk <;>
    simp [hk, NodeKind.stamp] at ht

theorem denotes_constant {arguments : List Value} {id : NodeId} {v : Value}
    (h : whole.kind? id = some (.constant v)) :
    Denotes whole arguments ρ id v := by
  obtain ⟨n, hn, hk⟩ := Graph.kind?_eq_some.1 h
  exact .constant hn hk

/-- The value of a node has the type that is known of it. -/
theorem type_of_known {arguments : List Value} {p : Path} {x : NodeId} {t : ValueType}
    (hf : Fits g g' whole) (hx : Known whole arguments ρ x)
    (hfacts : ∀ fact ∈ p.facts, ∃ v, Denotes whole arguments ρ fact.1 v ∧ v.type = fact.2)
    (h : ((g'.kind? x).bind NodeKind.stamp).or (p.facts.lookup x) = some t) :
      (valueAt whole arguments ρ x).type = t := by
  rcases Option.or_eq_some_iff.1 h with h | ⟨-, h⟩
  · obtain ⟨k, hk, ht⟩ := Option.bind_eq_some_iff.1 h
    exact hx.denotes.type_of_stamp (hf.kind_eq hk ht) ht
  · obtain ⟨v, hv, ht⟩ := hfacts _ (mem_of_lookup h)
    rw [hv.valueAt_eq, ht]

/-! ## Nodes without control -/

/-- The node of a frame state. -/
def stateNode (c : Context) (node : ExprId) (mode : ResumeMode) (stack : List NodeId) (p : Path) :
    Node where
  kind :=
    .frameState (.ofLengths c.target node mode c.arguments.length p.locals.length stack.length)
  inputs := c.arguments ++ p.locals ++ stack
  state := c.outer

theorem narrowed_stateNode {c : Context} {node : ExprId} {mode : ResumeMode} {stack : List NodeId}
    {p : Path} :
    (stateNode c node mode stack p).Narrowed := by
  rintro _ ⟨⟩
  simp only [stateNode, List.length_append]
  exact FrameShape.narrowedFrom_ofLengths

theorem frameState_eq (c : Context) (node : ExprId) (mode : ResumeMode) (stack : List NodeId)
    (p : Path) :
    frameState c node mode stack p = addNode (stateNode c node mode stack p) := rfl

theorem Fits.added {n : Node} (hf : Fits g (g.add n).1 whole) :
    whole.node? g.nodes.size = some n := by
  rw [hf.new _ (Nat.le_refl _) (by simp), Graph.node?_add, if_pos rfl]

theorem Fits.stays {n n' : Node} (hf : Fits g (g.add n).1 whole) {id : NodeId}
    (h : g.node? id = some n') (hp : n'.kind ≠ .phi) (hl : n'.kind ≠ .loopBegin) :
    whole.node? id = some n' :=
  hf.plain id n'
    (by rw [Graph.node?_add, if_neg (Nat.ne_of_lt (Graph.lt_size_of_node? h)), h]) hp hl

/-- A node that can hand over, with its frame state. -/
theorem Emits.stateful {S T : Spot} {q : NodeId} {state n : Node} {shape : FrameShape}
    (hs : state.kind = .frameState shape) (hw : state.Narrowed) (hc : n.control = [q])
    (hk : n.kind.canDeoptimize) (hq : q < g.nodes.size)
    (hd : ∀ whole ρ, whole.FramesCounted → whole.node? g.nodes.size = some state →
      whole.node? (g.nodes.size + 1) = some n → S.Good whole X.arguments ρ →
        ∃ effect, Effects whole X.arguments ρ (some q) (g.nodes.size + 1) effect ∧
        Leads X.meaning (X.point whole S) (X.point whole T) (g.nodes.size + 1) 0 ρ ρ effect) :
    Emits X [(q, S)] g ((g.add state).1.add n).1 [(g.nodes.size + 1, T)] := by
  have hfloat : Emits X [(q, S)] g (g.add state).1 [(q, S)] :=
    .float (by rw [hs]; rfl) (by simp [hs]) hw (by simp) (by simpa using hq)
  have hfixed : n.kind.isFixed ∧ n.kind ≠ .start ∧ n.kind ≠ .branch := by
    generalize n.kind = kind at hk
    cases kind <;> simp_all [NodeKind.canDeoptimize, NodeKind.isFixed]
  rw [← Graph.size_add g state]
  refine hfloat.trans
    (.behind hc hfixed.1 hfixed.2.1 hfixed.2.2 (hfloat.after q (by simp)) fun whole hf ρ hρ => ?_)
  have h1 : whole.node? g.nodes.size = some state :=
    hf.stays (by rw [Graph.node?_add, if_pos rfl]) (by simp [hs]) (by simp [hs])
  have h2 := hf.added
  rw [Graph.size_add] at h2 ⊢
  exact hd whole ρ hf.counted h1 h2 hρ

/-- The facts on a path behind a guard. -/
def factsBehind (check : GuardCheck) (x : NodeId) (facts : Facts) : Facts :=
  match check with
  | .type type => (x, type) :: facts
  | .condition _ => facts

theorem run_guardWith {state x : NodeId} {check : GuardCheck} {reason : DeoptReason} {p p' : Path}
    {b b' : Building} (h : (guardWith state x check reason p).run b = .ok (p', b')) :
    p' = ⟨b.graph.nodes.size, p.locals, factsBehind check x p.facts⟩ ∧
      b' = b.push {
        kind := .guard check reason
        inputs := [x]
        control := [p.control]
        state := some state } := by
  unfold guardWith at h
  obtain ⟨id, b₁, h1, h2⟩ := run_bind h
  obtain ⟨rfl, rfl⟩ := run_addNode h1
  obtain ⟨rfl, rfl⟩ := run_pure h2
  exact ⟨rfl, rfl⟩

/-- Making a constant leaves every end as it is. -/
theorem run_constant {v : Value} {id : NodeId} {b b' : Building}
    (h : (constant v).run b = .ok (id, b')) :
    b'.returns = b.returns ∧ b'.graph.kind? id = some (.constant v) ∧
      ∀ A : List End, (keys A).Nodup →
      (∀ q ∈ keys A, q < b.graph.nodes.size) → Emits X A b.graph b'.graph A := by
  have hnew : (b.graph.newConstant v).1.kind? (b.graph.newConstant v).2 = some (.constant v) ∧
      ∀ A : List End, (keys A).Nodup → (∀ q ∈ keys A, q < b.graph.nodes.size) →
        Emits X A b.graph (b.graph.newConstant v).1 A := by
    refine ⟨?_, fun A hn hb => ?_⟩
    · have : (b.graph.add { kind := .constant v }).1.node? b.graph.nodes.size =
          some { kind := .constant v } := by
        rw [Graph.node?_add, if_pos rfl]
      exact Graph.kind?_eq_some.2 ⟨_, this, rfl⟩
    · exact (Emits.float (n := { kind := .constant v }) rfl (by simp)
        (Node.narrowed_of_ne rfl) hn hb).congr_nodes (by rfl)
  have hrun : id = (b.graph.constant v).2 ∧ b' = { b with graph := (b.graph.constant v).1 } := by
    cases h
    exact ⟨rfl, rfl⟩
  obtain ⟨rfl, rfl⟩ := hrun
  refine ⟨rfl, ?_⟩
  dsimp only
  unfold Graph.constant
  split
  · split
    · exact ⟨‹_›, fun A hn hb => .refl hn hb⟩
    · exact hnew
  · exact hnew

namespace Scope

variable {s : Scope X} {facts : Facts} {ss : List NodeSlot} {p : Path} {b : Building} {e : Expr}
    {vs : List NodeId}

/-- A value that has no node yet gets one. -/
theorem builds_constant (v : Value) :
    s.Builds [s.tip ss p (.literal v)] b (constant v) (fun _ => True)
      fun id => [s.tip ss p (.value id)] := by
  intro hn hb id b' h
  obtain ⟨h1, h2, h3⟩ := run_constant (X := X) h
  refine ⟨trivial, [], by simpa using h1, by simp,
    (h3 _ hn hb).imp (by simp) fun e he => ⟨_, List.mem_singleton_self _, ?_⟩⟩
  obtain rfl : e = s.tip ss p (.value id) := by simpa using he
  refine ⟨rfl,
    fun whole hf => .of_ends (fun ρ hρ => ?_) fun ρ w o hρ _ hw => ⟨w, ?_, Nat.le_refl _⟩⟩
  · refine good_of hρ (fun x hx => ?_) fun fact hfact => .inl hfact
    rcases hx with hx | hx | hx
    · exact .inl (mem_nodes.2 (.inr (.inl hx)))
    · exact .inl (mem_nodes.2 (.inr (.inr (.inl hx))))
    · obtain rfl : x = id := by simpa [Doing.nodes] using hx
      exact .inr ⟨v, denotes_constant (hf.kind_eq h2 rfl)⟩
  · have hv : valueAt whole X.arguments ρ id = v :=
      (denotes_constant (hf.kind_eq h2 rfl)).valueAt_eq
    obtain ⟨k, o₁, h4, h5, h6⟩ := hw
    refine ⟨k, o₁, h4 ▸ ?_, h5, h6⟩
    simp only [tip, spot, spotOn, Spot.moment, hv]

/-- A constant may be made before anybody asks for it. -/
theorem builds_unused {A : List End} {v : Value} :
    s.Builds A b (constant v) (fun _ => True) fun _ => A := by
  intro hn hb id b' h
  obtain ⟨h1, -, h3⟩ := run_constant (X := X) h
  exact ⟨trivial, [], by simpa using h1, by simp, by simpa using h3 _ hn hb⟩

/-! ## Handing over -/

/-- An expression of the routine has its operands and is about to act. -/
structure Acts (s : Scope X) (ss : List NodeSlot) (p : Path) (e : Expr) (vs : List NodeId) :
    Prop where
  inside : s.Inside ss e
  keeps : s.Keeps p
  count : vs.length = e.operands.length
  acts : e.operands ≠ [] ∨ ∃ id target, e = .call id target []

theorem Acts.congr {p' : Path} (h : s.Acts ss p e vs) (hl : p'.locals = p.locals) :
    s.Acts ss p' e vs :=
  ⟨h.inside, by rw [Keeps, hl]; exact h.keeps, h.count, h.acts⟩

theorem frame_placed (h : s.Keeps p) : (s.frame ss p).Placed X.routines := ⟨s.registered, h⟩

/-- Where an expression is about to act, its frame state stands for frames
that resume to what is left. -/
theorem handOver (h : s.Acts ss p e vs) {state : NodeId} (hw : whole.FramesCounted)
    (hs : whole.node? state = some (stateNode s.context e.id .beforeNode (pendingNodes ss ++ vs) p))
    (hg : (s.spotOn facts ss p (.ready e vs)).Good whole X.arguments ρ) :
    ∃ callers, FramesAt whole X.arguments ρ state
      ((s.frame ss p).suspended (valueAt whole X.arguments ρ) e.id .beforeNode
        (vs.map (valueAt whole X.arguments ρ)) :: callers) ∧ ∀ w o,
      (X.point whole (s.spotOn facts ss p (.ready e vs))).ends ρ w o → ∃ w', X.meaning.resumes
        ((s.frame ss p).suspended (valueAt whole X.arguments ρ) e.id .beforeNode
            (vs.map (valueAt whole X.arguments ρ)))
        callers w' o := by
  refine ⟨_,
    hg.chain.framesAt hw (F := s.frame ss p) (t := vs) hs rfl ?_ s.outer fun x hx => hg.known x ?_,
    fun w o hw => ⟨w, Spot.ends_resumes (s.frame_placed h.keeps) s.placed (fun w => ?_) hw.2⟩⟩
  · simp [stateNode, Scope.frame, NodeFrame.nodes]
  · simpa [Spot.nodes, spotOn, Doing.nodes] using hx
  · exact ⟨h.inside _, by simpa using h.count, h.acts⟩

/-- Where an operand has another type than the expression asks for, the frame
fails. -/
theorem fails_of_type (h : s.Acts ss p e vs) {t : ValueType} (ht : e.operandType? = some t)
    {x : NodeId} (hx : x ∈ vs) {f : NodeId → Value} (hne : (f x).type ≠ t) :
    X.Fails ((s.frame ss p).suspended f e.id .beforeNode (vs.map f)) := by
  have hcount : (vs.map f).length = e.operands.length := by simpa using h.count
  obtain ⟨err, herr⟩ := (Expr.refuses_iff hcount).2 ⟨t, ht, f x, List.mem_map_of_mem hx, hne⟩
  have hstack : (pendingNodes ss).map f = Interpreter.pendingOf (ss.map (NodeSlot.slot f)) :=
    (pendingOf_slots (s.frame ss p) f).symm
  exact ⟨s.routine, err, s.registered,
    .of_within (h.inside f) rfl rfl (congrArg (· ++ vs.map f) hstack) herr⟩

/-- The interpreter takes over before an expression acts that is known to
fail. -/
theorem builds_giveUp (h : s.Acts ss p e vs) {t known : ValueType} (ht : e.operandType? = some t)
    (hne : known ≠ t) {x : NodeId} (hx : x ∈ vs) (hfact : (x, known) ∈ facts) :
    s.Builds [(p.control, s.spotOn facts ss p (.ready e vs))] b
      (giveUp s.context e.id (pendingNodes ss ++ vs) p)
      (fun _ => True) fun _ => [] := by
  intro hn hb a b' hrun
  rw [giveUp, frameState_eq] at hrun
  obtain ⟨state, b₁, h1, h2⟩ := run_bind hrun
  obtain ⟨rfl, rfl⟩ := run_addNode h1
  obtain ⟨id, b₂, h3, h4⟩ := run_bind h2
  obtain ⟨rfl, rfl⟩ := run_addNode h3
  obtain ⟨-, rfl⟩ := run_pure h4
  refine ⟨trivial, [], by simp, by simp, ?_⟩
  refine (Emits.stateful (T := s.spotOn facts ss p (.ready e vs)) rfl narrowed_stateNode rfl rfl
    (hb _ (by simp)) fun whole ρ hw hs hn hρ => ?_).imp (by simp) (by simp)
  obtain ⟨callers, h5, h6⟩ := handOver h hw hs hρ
  obtain ⟨v, hv, hknown⟩ := hρ.facts (x, known) hfact
  refine ⟨_, .deoptimize hn rfl rfl h5, fun _ => fails_of_type h ht hx ?_, h6⟩
  rwa [hv.valueAt_eq, hknown]

/-- A value is checked before an expression acts: its type, because the
expression asks for it, or a condition. -/
theorem builds_guardBefore (h : s.Acts ss p e vs) {x : NodeId} (hx : x ∈ vs) {check : GuardCheck}
    {reason : DeoptReason}
    (hreason : reason = .unreachedBranch ∨ ∃ t, e.operandType? = some t ∧ check = .type t)
    {S : Spot}
    (hS : ∀ whole ρ, (s.spotOn facts ss p (.ready e vs)).Good whole X.arguments ρ →
      check.holds (valueAt whole X.arguments ρ x) →
      (X.point whole (s.spotOn facts ss p (.ready e vs))).Continues (X.point whole S) 0 ρ ρ) :
    s.Builds [(p.control, s.spotOn facts ss p (.ready e vs))] b
      (guardBefore s.context e.id x check reason (pendingNodes ss ++ vs) p)
      (fun p' => p'.locals = p.locals ∧ p'.facts = factsBehind check x p.facts) fun p' =>
        [(p'.control, S)] := by
  intro hn hb a b' hrun
  rw [guardBefore, frameState_eq] at hrun
  obtain ⟨state, b₁, h1, h2⟩ := run_bind hrun
  obtain ⟨rfl, rfl⟩ := run_addNode h1
  obtain ⟨rfl, rfl⟩ := run_guardWith h2
  refine ⟨⟨rfl, rfl⟩, [], by simp, by simp, ?_⟩
  simp only [List.map_nil, List.append_nil, Building.size_push]
  refine Emits.stateful rfl narrowed_stateNode rfl rfl (hb _ (by simp))
    fun whole ρ hw hs hn hρ => ?_
  have hknown : Known whole X.arguments ρ x :=
    hρ.known x (mem_nodes.2 (.inr (.inr (.inr (.inl hx)))))
  by_cases hc : check.holds (valueAt whole X.arguments ρ x)
  · exact ⟨_, .holds hn rfl rfl hknown.denotes hc, Setting.leads_pass (hS whole ρ hρ hc)⟩
  · obtain ⟨callers, h5, h6⟩ := handOver h hw hs hρ
    refine ⟨_, .violated hn rfl rfl hknown.denotes (by simpa using hc) rfl h5, fun hun => ?_, h6⟩
    rcases hreason with rfl | ⟨t, ht, rfl⟩
    · rcases hun with hun | ⟨hun, -⟩ <;> cases hun
    · exact fails_of_type h ht hx (by simpa [GuardCheck.holds, ValueType.admits] using hc)

/-! ## Types and folding -/

/-- The value of a constant operand. -/
theorem valueAt_of_constant {arguments : List Value} (hf : Fits g g' whole) {x : NodeId} {v : Value}
    (h : g'.constantAt x = some v) : valueAt whole arguments ρ x = v := by
  obtain ⟨k, hk, hv⟩ := Option.bind_eq_some_iff.1 h
  obtain rfl : k = .constant v := by cases k <;> cases hv; rfl
  exact (denotes_constant (hf.kind_eq hk rfl)).valueAt_eq

/-- The type that a value has may be noted. -/
theorem continues_learn {x : NodeId} (hx : x ∈ vs) {t : ValueType}
    (hρ : (s.spotOn facts ss p (.ready e vs)).Good whole X.arguments ρ)
    (ht : (valueAt whole X.arguments ρ x).type = t) :
    (X.point whole (s.spotOn facts ss p (.ready e vs))).Continues
      (X.point whole (s.spotOn ((x, t) :: facts) ss p (.ready e vs))) 0 ρ ρ := by
  have hknown : Known whole X.arguments ρ x :=
    hρ.known x (mem_nodes.2 (.inr (.inr (.inr (.inl hx)))))
  refine ⟨good_of hρ (fun x hx => .inl (mem_nodes.2 (by tauto))) fun fact hfact => ?_,
    fun w o hw => ⟨w, hw, Nat.le_refl _⟩⟩
  rcases List.mem_cons.1 hfact with rfl | hfact
  · exact .inr ⟨_, hknown.denotes, ht⟩
  · exact .inl hfact

/-- The type of a value is made sure of before an expression acts that asks
for it. -/
theorem builds_ensureType (h : s.Acts ss p e vs) {x : NodeId} (hx : x ∈ vs) (hf : p.facts ⊆ facts)
    {t : ValueType} (ht : e.operandType? = some t) :
    s.Builds [(p.control, s.spotOn facts ss p (.ready e vs))] b
      (ensureType s.context e.id x t (pendingNodes ss ++ vs) p)
      (fun o => ∀ p' ∈ o, p'.locals = p.locals ∧ p'.facts ⊆ (x, t) :: facts)
      fun o => o.toList.map fun p' =>
        (p'.control, s.spotOn ((x, t) :: facts) ss p' (.ready e vs)) := by
  unfold ensureType
  refine .read (a := ((b.graph.kind? x).bind NodeKind.stamp).or (p.facts.lookup x)) rfl ?_
  cases hk : ((b.graph.kind? x).bind NodeKind.stamp).or (p.facts.lookup x) with
  | none =>
    refine (builds_guardBefore h hx (.inr ⟨t, ht, rfl⟩) fun whole ρ hρ hc =>
      continues_learn hx hρ (by simpa [GuardCheck.holds, ValueType.admits] using hc)).bind
        fun p' b₁ hp' => ?_
    rw [← spotOn_congr hp'.1]
    refine .pure rfl fun q hq => ?_
    obtain rfl : p' = q := by simpa using hq
    refine ⟨hp'.1, ?_⟩
    rw [hp'.2]
    exact List.cons_subset_cons _ hf
  | some known =>
    -- what is known may be noted, whether it is the type asked for or not
    refine Builds.pre_one (T := s.spotOn ((x, known) :: facts) ss p (.ready e vs)) ?_
      fun whole hfit ρ hρ => ?_
    · dsimp only
      split
      · subst ‹known = t›
        refine .pure rfl fun q hq => ?_
        obtain rfl : p = q := by simpa using hq
        exact ⟨rfl, List.subset_cons_of_subset _ hf⟩
      · exact (builds_giveUp h ht ‹_› hx List.mem_cons_self).bind fun _ _ _ => .pure rfl (by simp)
    · exact continues_learn hx hρ
        (type_of_known hfit (hρ.known x (mem_nodes.2 (.inr (.inr (.inr (.inl hx))))))
        (fun fact hfact => hρ.facts fact (hf hfact)) hk)

/-- What folding an expression on constants gives, or the interpreter takes
over where the expression refuses them. -/
theorem builds_fold (h : s.Acts ss p e vs) {cs : List Value}
    (hcs : List.Forall₂ (fun x c => b.graph.constantAt x = some c) vs cs)
    {folded : Except GuestError Value} (herr : ∀ err, folded = .error err → e.Refuses cs err)
    (hok : ∀ v whole, folded = .ok v → Fits b.graph b.graph whole →
      X.To whole (s.spot ss p (.ready e vs)) (s.spot ss p (.literal v))) :
    s.Builds [s.tip ss p (.ready e vs)] b (fold s.context e.id folded (pendingNodes ss ++ vs) p)
      (fun o => ∀ a ∈ o, s.Keeps a.path) fun o => o.toList.map (s.arrive ss) := by
  unfold fold
  cases folded with
  | error err =>
    obtain ⟨t, ht, c, hc, hne⟩ := (Expr.refuses_iff (hcs.length_eq ▸ h.count)).1 ⟨err, herr err rfl⟩
    obtain ⟨x, hx, hconst⟩ := forall₂_exists_of_mem hcs.flip hc
    refine Builds.pre_one (T := s.spotOn ((x, c.type) :: p.facts) ss p (.ready e vs)) ?_
      fun whole hfit ρ hρ => ?_
    · exact (builds_giveUp h ht hne hx List.mem_cons_self).bind fun _ _ _ => .pure rfl (by simp)
    · exact continues_learn hx hρ (by rw [valueAt_of_constant hfit hconst])
  | ok v =>
    refine Builds.pre_one (T := s.spot ss p (.literal v)) ?_ fun whole hf => hok v whole rfl hf
    refine (builds_constant v).bind fun id b₁ _ => .pure rfl ?_
    simpa using h.keeps

/-! ## Operators -/

/-- An operator becomes a floating node. -/
theorem builds_operator (h : s.Acts ss p e vs) {n : Node} (hk : n.kind.isFixed = false)
    (hp : n.kind ≠ .phi) (hs : n.kind.isFrameState = false) (hf : p.facts ⊆ facts)
    (hv : ∀ whole ρ id, whole.node? id = some n →
      (s.spotOn facts ss p (.ready e vs)).Good whole X.arguments ρ →
      ∃ v, Denotes whole X.arguments ρ id v ∧ ∀ context a, Interpreter.Step X.host
        (.ready context e (vs.map (valueAt whole X.arguments ρ)) a) (.value context v a)) :
    s.Builds [(p.control, s.spotOn facts ss p (.ready e vs))] b (do return some ⟨← addNode n, p⟩)
      (fun o => ∀ a ∈ o, s.Keeps a.path) fun o => o.toList.map (s.arrive ss) := by
  intro hn hb a b' hrun
  obtain ⟨id, b₁, h1, h2⟩ := run_bind hrun
  obtain ⟨rfl, rfl⟩ := run_addNode h1
  obtain ⟨rfl, rfl⟩ := run_pure h2
  refine ⟨by simpa using h.keeps, [], by simp, by simp, ?_⟩
  refine (Emits.float hk hp (Node.narrowed_of_ne hs) hn hb).imp (by simp) fun t ht =>
    ⟨_, List.mem_singleton_self _, ?_⟩
  obtain rfl : t = s.arrive ss ⟨b.graph.nodes.size, p⟩ := by simpa using ht
  refine ⟨rfl, fun whole hfit =>
    .trans (.step (T := s.spotOn facts ss p (.value b.graph.nodes.size)) ?_ rfl ?_) (forget hf)⟩
  · intro ρ hρ
    obtain ⟨v, hd, -⟩ := hv whole ρ _ hfit.added hρ
    refine good_of hρ (fun x hx => ?_) fun fact hfact => .inl hfact
    rcases hx with hx | hx | hx
    · exact .inl (mem_nodes.2 (.inr (.inl hx)))
    · exact .inl (mem_nodes.2 (.inr (.inr (.inl hx))))
    · obtain rfl : x = b.graph.nodes.size := by simpa [Doing.nodes] using hx
      exact .inr ⟨v, hd⟩
  · intro ρ w hρ
    obtain ⟨v, hd, hs⟩ := hv whole ρ _ hfit.added hρ
    refine ⟨w, ?_, Nat.le_refl _⟩
    simp only [Spot.moment, spotOn, hd.valueAt_eq]
    exact hs _ _

/-- The values of operands. -/
theorem Acts.known (hρ : (s.spotOn facts ss p (.ready e vs)).Good whole X.arguments ρ) {x : NodeId}
    (hx : x ∈ vs) :
    Known whole X.arguments ρ x :=
  hρ.known x (mem_nodes.2 (.inr (.inr (.inr (.inl hx)))))

/-- A binary operator on values that are not both known: operands of a type
are checked first. -/
theorem builds_checked {id : ExprId} {op : BinaryOp} {l r : Expr} {x y : NodeId}
    (h : s.Acts ss p (.binary id op l r) [x, y]) :
    s.Builds [s.tip ss p (.ready (.binary id op l r) [x, y])] b
      (match op.operandType with
        | none => do return some ⟨← addNode { kind := .binary op, inputs := [x, y] }, p⟩
        | some expected => do
          let some p ← ensureType s.context id x expected
            (pendingNodes ss ++ [x, y]) p | return none
          let some p ← ensureType s.context id y expected
            (pendingNodes ss ++ [x, y]) p | return none
          return some ⟨← addNode { kind := .binary op, inputs := [x, y] }, p⟩)
      (fun o => ∀ a ∈ o, s.Keeps a.path) fun o => o.toList.map (s.arrive ss) := by
  have hdenotes : ∀ {whole ρ m v}, whole.node? m = some { kind := .binary op, inputs := [x, y] } →
      Known whole X.arguments ρ x → Known whole X.arguments ρ y →
      op.apply (valueAt whole X.arguments ρ x) (valueAt whole X.arguments ρ y) = .ok v →
      Denotes whole X.arguments ρ m v ∧ ∀ context a, Interpreter.Step X.host
        (.ready context (.binary id op l r) ([x, y].map (valueAt whole X.arguments ρ)) a)
          (.value context v a) :=
    fun hm hx hy hv => ⟨.binary hm rfl rfl rfl hx.denotes hy.denotes hv, fun _ _ => .binary hv⟩
  cases ht : op.operandType with
  | none =>
    refine builds_operator h rfl (by simp) rfl (List.Subset.refl _) fun whole ρ m hm hρ => ?_
    obtain ⟨v, hv⟩ :=
      BinaryOp.apply_of_untyped ht (valueAt whole X.arguments ρ x) (valueAt whole X.arguments ρ y)
    exact ⟨v, hdenotes hm (Acts.known hρ (by simp)) (Acts.known hρ (by simp)) hv⟩
  | some t =>
    dsimp only
    refine (builds_ensureType h (x := x) (by simp) (List.Subset.refl _) ht).bind fun o b₁ ho => ?_
    obtain _ | p₁ := o
    · exact .pure rfl (by simp)
    obtain ⟨hl₁, hf₁⟩ := ho p₁ rfl
    refine (builds_ensureType (h.congr hl₁) (x := y) (by simp) hf₁ ht).bind fun o b₂ ho => ?_
    obtain _ | p₂ := o
    · exact .pure rfl (by simp)
    obtain ⟨hl₂, hf₂⟩ := ho p₂ rfl
    refine builds_operator (h.congr (hl₂.trans hl₁)) rfl (by simp) rfl hf₂ fun whole ρ m hm hρ => ?_
    have htype : ∀ x', (x', t) ∈ (y, t) :: (x, t) :: p.facts →
        (valueAt whole X.arguments ρ x').type = t := by
      intro x' hx'
      obtain ⟨v, hv, ht⟩ := hρ.facts _ hx'
      rw [hv.valueAt_eq, ht]
    obtain ⟨v, hv⟩ := BinaryOp.apply_of_type ht (htype x (by simp)) (htype y (by simp))
    exact ⟨v, hdenotes hm (Acts.known hρ (by simp)) (Acts.known hρ (by simp)) hv⟩

/-- A binary operator. -/
theorem builds_binary {id : ExprId} {op : BinaryOp} {l r : Expr} {x y : NodeId}
    (h : s.Acts ss p (.binary id op l r) [x, y]) :
    s.Builds [s.tip ss p (.ready (.binary id op l r) [x, y])] b
      (emitBinary s.context id op x y (pendingNodes ss) p)
      (fun o => ∀ a ∈ o, s.Keeps a.path) fun o => o.toList.map (s.arrive ss) := by
  unfold emitBinary
  refine .read (a := b.graph.constantAt x) rfl (.read (a := b.graph.constantAt y) rfl ?_)
  split
  · rename_i a c hx hy
    refine builds_fold h (.cons hx (.cons hy .nil)) (fun _ herr => herr) fun v whole hv hfit =>
      .step (fun ρ hρ => ?_) rfl fun ρ w hρ => ⟨w, ?_, Nat.le_refl _⟩
    · exact good_of hρ (fun x hx => .inl (mem_nodes.2 (by simp [Doing.nodes] at hx; tauto)))
        fun fact hfact => .inl hfact
    · simp only [Spot.moment, spot, spotOn, List.map_cons, List.map_nil,
        valueAt_of_constant hfit hx, valueAt_of_constant hfit hy]
      exact .binary hv
  · exact builds_checked h

/-- A unary operator. -/
theorem builds_unary {id : ExprId} {op : UnaryOp} {o : Expr} {x : NodeId}
    (h : s.Acts ss p (.unary id op o) [x]) :
    s.Builds [s.tip ss p (.ready (.unary id op o) [x])] b
      (emitUnary s.context id op x (pendingNodes ss) p)
      (fun o => ∀ a ∈ o, s.Keeps a.path) fun o => o.toList.map (s.arrive ss) := by
  unfold emitUnary
  refine .read (a := b.graph.constantAt x) rfl ?_
  cases hx : b.graph.constantAt x with
  | some a =>
    refine builds_fold h (.cons hx .nil) (fun _ herr => herr) fun v whole hv hfit =>
      .step (fun ρ hρ => ?_) rfl fun ρ w hρ => ⟨w, ?_, Nat.le_refl _⟩
    · exact good_of hρ (fun x hx => .inl (mem_nodes.2 (by simp [Doing.nodes] at hx; tauto)))
        fun fact hfact => .inl hfact
    · simp only [Spot.moment, spot, spotOn, List.map_cons, List.map_nil,
        valueAt_of_constant hfit hx]
      exact .unary hv
  | none =>
    dsimp only
    refine (builds_ensureType h (x := x) (by simp) (List.Subset.refl _) rfl).bind fun o b₁ ho => ?_
    obtain _ | p₁ := o
    · exact .pure rfl (by simp)
    obtain ⟨hl₁, hf₁⟩ := ho p₁ rfl
    refine builds_operator (h.congr hl₁) rfl (by simp) rfl hf₁ fun whole ρ m hm hρ => ?_
    obtain ⟨a, ha, ht⟩ := hρ.facts (x, op.operandType) (by simp [spotOn])
    obtain ⟨v, hv⟩ := UnaryOp.apply_of_type ht
    refine ⟨v, .unary hm rfl rfl ha hv, fun _ _ => ?_⟩
    simp only [List.map_cons, List.map_nil, ha.valueAt_eq]
    exact .unary hv

/-! ## Calls and returns -/

/-- A call that stays a call. -/
theorem builds_invoke {id : ExprId} {target : TargetId} {es : List Expr}
    (h : s.Acts ss p (.call id target es) vs) :
    s.Builds [s.tip ss p (.ready (.call id target es) vs)] b
      (emitInvoke s.context id target vs (pendingNodes ss) p)
      (fun o => ∀ a ∈ o, s.Keeps a.path) fun o => o.toList.map (s.arrive ss) := by
  intro hn hb a b' hrun
  rw [emitInvoke, frameState_eq] at hrun
  obtain ⟨state, b₁, h1, h2⟩ := run_bind hrun
  obtain ⟨rfl, rfl⟩ := run_addNode h1
  obtain ⟨invoke, b₂, h3, h4⟩ := run_bind h2
  obtain ⟨rfl, rfl⟩ := run_addNode h3
  obtain ⟨rfl, rfl⟩ := run_pure h4
  refine ⟨fun a ha => by cases ha; exact h.keeps, [], by simp, by simp, ?_⟩
  simp only [List.map_nil, List.append_nil, Building.size_push, Option.toList_some, List.map_cons]
  refine Emits.stateful rfl narrowed_stateNode rfl rfl (hb _ (by simp [tip]))
    fun whole ρ hw hstate hinvoke hρ => ?_
  let f := valueAt whole X.arguments ρ
  let c : Caller := ⟨s.frame ss p, .call id target es, 0⟩
  have hc : c.Placed X.routines :=
    { s.frame_placed h.keeps with inside := h.inside, call := ⟨_, _, _, rfl⟩ }
  have hframes : FramesAt whole X.arguments ρ b.graph.nodes.size
      (c.suspended f :: s.callers.map (Caller.suspended f)) := by
    refine hρ.chain.framesAt hw (F := s.frame ss p) (t := []) hstate ?_ ?_ s.outer fun x hx =>
      hρ.known x ?_
    · simp [stateNode, Scope.frame, c, Expr.id]
    · simp [stateNode, Scope.frame, NodeFrame.nodes]
    · simp only [Spot.nodes, spot, spotOn, List.mem_append, List.append_nil] at hx ⊢
      tauto
  have hvs := forall₂_valueAt fun x (hx : x ∈ vs) => Acts.known hρ hx
  have hgood : ∀ v ρ', ρ.Le ρ' → ρ' (b.graph.nodes.size + 1) = some v →
      Denotes whole X.arguments ρ' (b.graph.nodes.size + 1) v ∧
        (s.spot ss p (.value (b.graph.nodes.size + 1))).Good whole X.arguments ρ' := by
    intro v ρ' hle hm
    have hd : Denotes whole X.arguments ρ' (b.graph.nodes.size + 1) v := .register hinvoke rfl hm
    refine ⟨hd, good_of (hρ.mono hle) (fun x hx => ?_) fun fact hfact => .inl hfact⟩
    rcases hx with hx | hx | hx
    · exact .inl (mem_nodes.2 (.inr (.inl hx)))
    · exact .inl (mem_nodes.2 (.inr (.inr (.inl hx))))
    · obtain rfl : x = b.graph.nodes.size + 1 := by simpa [Doing.nodes] using hx
      exact .inr ⟨v, hd⟩
  refine ⟨_, .call hinvoke rfl hvs rfl hframes, fun v ρ' hle hm => (hgood v ρ' hle hm).2,
    fun w o hw => ⟨w, ?_⟩⟩
  rcases Spot.ends_call 0 hw.2 with ⟨err, w', hcall, rfl⟩ | ⟨v, w', hcall, k, o₁, h1, h2, h3⟩
  · simp only [Setting.meaning, hcall]
  have hcount : w ≤ w' := by
    have := X.counts.counts target (vs.map f) w (by simp [f, hcall])
    simpa [f, hcall, Outcome.final] using this
  simp only [Setting.meaning, f, hcall]
  refine ⟨h3.resumes s.placed h2 (k := k) s.registered ((Caller.resume_eq hc v k).trans h1),
    fun ρ' hle hm => ?_⟩
  obtain ⟨hd, -⟩ := hgood v ρ' hle hm
  have hstep : Interpreter.Step X.host (c.moment f v w')
      (Spot.moment f (s.spot ss p (.literal v)) w') := .returned
  obtain ⟨k', hk'⟩ := (Interpreter.rest_iff_of_step hstep h2).1 ⟨k, h1⟩
  have hends : (s.spot ss p (.literal v)).Ends (valueAt whole X.arguments ρ') X.host w' o := by
    refine Spot.Ends.congr (fun x hx => ((hρ.known x ?_).valueAt_mono hle).symm)
      ⟨k', o₁, hk', h2, h3⟩
    rw [spot, mem_nodes] at hx
    exact mem_nodes.2 (by simp [Doing.nodes] at hx; tauto)
  refine ⟨⟨hw.1, ?_⟩, by simpa [Setting.point, Spot.depth, spot, spotOn, Scope.frame] using hcount⟩
  obtain ⟨k, o₁, h4, h5, h6⟩ := hends
  refine ⟨k, o₁, h4 ▸ ?_, h5, h6⟩
  simp only [spot, spotOn, Scope.frame, Spot.moment, hd.valueAt_eq]

/-- A return ends the path. -/
theorem builds_return {id : ExprId} {e : Expr} {v : NodeId} :
    s.Builds [s.tip ss p (.ready (.ret id e) [v])] b (recordReturn v p)
      (fun o => ∀ a ∈ o, s.Keeps a.path)
      fun o => o.toList.map (s.arrive ss) := by
  intro hn hb a b' hrun
  obtain ⟨u, b₁, h1, h2⟩ := run_bind hrun
  obtain ⟨rfl, rfl⟩ := run_pure h2
  cases h1
  refine ⟨by simp, [⟨v, { p with locals := [] }⟩], rfl, by simp, ?_⟩
  refine (Emits.refl hn hb).imp (by simp [arrive, tip]) fun t ht =>
    ⟨_, List.mem_singleton_self _, ?_⟩
  obtain rfl : t = s.arrive [] ⟨v, { p with locals := [] }⟩ := by simpa using ht
  refine ⟨rfl, fun whole _ => .of_ends (fun ρ hρ => ?_) fun ρ w o hρ _ hw => ⟨w, ?_, ?_⟩⟩
  · refine good_of hρ (fun x hx => .inl (mem_nodes.2 ?_)) fun fact hfact => .inl hfact
    simp only [pendingNodes, Doing.nodes, List.flatMap_nil, List.not_mem_nil, false_or] at hx
    exact .inr (.inr (.inr (.inl hx)))
  · obtain ⟨k, o₁, h3, h4, h5⟩ := hw
    rw [Interpreter.rest_of_ends (by exact .returned) k] at h3
    refine ⟨k, o₁, ?_, h4, h5⟩
    rw [← h3]
    exact Interpreter.rest_of_ends .finished k
  · simp only [Spot.depth, arrive, tip, spot, spotOn, Scope.frame, loopDepth, List.map_nil,
      List.sum_nil]
    omega

end Scope

end Specialize

end TieredEngine

import TieredEngine.Proofs.Graph.Wellformed
import TieredEngine.Proofs.Interpreter.Resumption
import TieredEngine.Proofs.Specialize.Whole
/-!
# What guards rest on

A guard of a specialized graph is there for one of three reasons: a parameter
always had one type, a conditional always went one way, or an operator asks
for a type. The first two are speculation, and `Backs` says what it rests on
and where the interpreter goes on when it fails. `specialize_grounded` is that
every guard of a specialized graph is backed by the profiles it was made from.
-/

namespace TieredEngine

open Interpreter (Within pendingOf)

/-! ## Places behind pending operands -/

/-- Whether the expression tests a condition. -/
def Expr.isConditional : Expr → Bool
  | .ifThen .. | .ifElse .. | .whileLoop .. => true
  | _ => false

/-- The expression stands in the body behind `k` pending operands: any `k`
values are those of a context around it. -/
def Expr.Pends (body : Expr) (k : ℕ) (e : Expr) : Prop :=
  ∀ vs : List Value, vs.length = k → ∃ ss, Within body ss e ∧ pendingOf ss = vs

section

variable {body e o : Expr} {k i : ℕ}

theorem Expr.pends_self (body : Expr) : body.Pends 0 body := by
  intro vs hvs
  exact ⟨[], .here, (List.length_eq_zero_iff.1 hvs).symm⟩

/-- An operand waits behind those before it. -/
theorem Expr.Pends.operand (h : body.Pends k e) (ho : e.operands[i]? = some o) :
    body.Pends (k + i) o := by
  intro vs hvs
  obtain ⟨ss, hss, hp⟩ := h (vs.take k) (by simp [hvs])
  refine ⟨ss ++ [⟨e, i, vs.drop k⟩],
    hss.concat rfl (Interpreter.holds_operand ho (by simp [hvs])), ?_⟩
  rw [Interpreter.pendingOf_concat, hp, List.take_append_drop]

/-- A child that is no operand waits alone. -/
theorem Expr.Pends.part (h : body.Pends k e) (ho : e.children[i]? = some o)
    (hi : e.operands.length ≤ i) : body.Pends k o := by
  intro vs hvs
  obtain ⟨ss, hss, hp⟩ := h vs hvs
  refine ⟨ss ++ [⟨e, i, []⟩], hss.concat rfl (Interpreter.holds_body ho hi), ?_⟩
  rw [Interpreter.pendingOf_concat, hp, List.append_nil]

end

/-! ## Grounds -/

/-- What speculation may rest on. -/
structure Grounds where
  /-- The target whose entry may be guarded. -/
  root : TargetId
  routine : TargetId → Routine → Prop
  /-- The conditional has gone this way. -/
  seen : TargetId → ExprId → Bool → Prop
  /-- The parameter of the root has had this type. -/
  typed : ℕ → ValueType → Prop

/-- A guard with a check and a reason is backed: what it reads, if that is a
parameter, and the frame in which the interpreter goes on when it fails are
such that the grounds for it are there. The frame is described by a shape and
the number of its values. -/
inductive Grounds.Backs (G : Grounds) :
    GuardCheck → DeoptReason → Option NodeKind → FrameShape → ℕ → Prop
  /-- The entry guard of a parameter: the interpreter starts over. -/
  | entry {i type shape count} : shape.mode = .start → shape.target = G.root → G.typed i type →
    Backs G (.type type) .typeGuardFailure (some (.parameter i)) shape count
  | operand {type input shape count} : shape.mode = .beforeNode →
      Backs G (.type type) .typeGuardFailure input shape count
  /-- A guard in place of a conditional: the interpreter makes the test. -/
  | branch {expected input shape count r e k} : shape.mode = .beforeNode →
      G.routine shape.target r → e.id = shape.node → e.isConditional → r.body.Pends k e →
      (shape.Counts count → shape.stack.toNat = k + 1) → G.seen shape.target shape.node expected →
      Backs G (.condition expected) .unreachedBranch input shape count

theorem Grounds.Backs.mono {G G' : Grounds} {check : GuardCheck} {reason : DeoptReason}
    {input : Option NodeKind} {shape : FrameShape} {count : ℕ}
    (h : G.Backs check reason input shape count) (hroot : G'.root = G.root)
    (hroutine : ∀ u r, G.routine u r → G'.routine u r)
    (hseen : ∀ u c b, G.seen u c b → G'.seen u c b)
    (htyped : ∀ i type, G.typed i type → G'.typed i type) :
      G'.Backs check reason input shape count := by
  cases h with
  | entry hmode ht hi => exact .entry hmode (ht.trans hroot.symm) (htyped _ _ hi)
  | operand hmode => exact .operand hmode
  | branch hmode hr he hc hp hs hb =>
    exact .branch hmode (hroutine _ _ hr) he hc hp hs (hseen _ _ _ hb)

/-- What a guard reads matters only if it is a parameter. -/
theorem Grounds.Backs.input {G : Grounds} {check : GuardCheck} {reason : DeoptReason}
    {input input' : Option NodeKind} {shape : FrameShape} {count : ℕ}
    (h : G.Backs check reason input shape count)
    (hi : ∀ i, input = some (.parameter i) → input' = some (.parameter i)) :
    G.Backs check reason input' shape count := by
  cases h with
  | entry hmode ht htyped =>
    rw [hi _ rfl]
    exact .entry hmode ht htyped
  | operand hmode => exact .operand hmode
  | branch hmode hr he hc hp hs hb => exact .branch hmode hr he hc hp hs hb

namespace Graph

/-- A node that hands over does so on these grounds. A guard in place of a
conditional reads what is on top of the stack. -/
def Grounded (g : Graph) (G : Grounds) (n : Node) : Prop :=
  match n.kind with
  | .guard check reason => ∃ x s ns shape, n.inputs = [x] ∧ n.state = some s ∧ g.node? s = some ns ∧
      ns.kind = .frameState shape ∧ G.Backs check reason (g.kind? x) shape ns.inputs.length ∧
      ∀ expected, check = .condition expected → ns.inputs.getLast? = some x
  | .deoptimize reason => reason = .transferToInterpreter
  | _ => True

/-- Every node that hands over does so on these grounds. -/
def AllGrounded (g : Graph) (G : Grounds) : Prop := ∀ m n, g.node? m = some n → g.Grounded G n

theorem Grounded.of_other {g : Graph} {G : Grounds} {n : Node}
    (hg : ∀ check reason, n.kind ≠ .guard check reason)
    (hd : ∀ reason, n.kind ≠ .deoptimize reason) : g.Grounded G n := by
  unfold Grounded
  split
  · rename_i check reason hk
    exact absurd hk (hg check reason)
  · rename_i reason hk
    exact absurd hk (hd reason)
  · trivial

theorem Grounded.mono {g : Graph} {G G' : Grounds} {n : Node} (h : g.Grounded G n)
    (hroot : G'.root = G.root) (hroutine : ∀ u r, G.routine u r → G'.routine u r)
    (hseen : ∀ u c b, G.seen u c b → G'.seen u c b)
    (htyped : ∀ i type, G.typed i type → G'.typed i type) : g.Grounded G' n := by
  unfold Grounded at h ⊢
  split
  · rename_i check reason hk
    rw [hk] at h
    obtain ⟨x, s, ns, shape, h1, h2, h3, h4, h5, h6⟩ := h
    exact ⟨x, s, ns, shape, h1, h2, h3, h4, h5.mono hroot hroutine hseen htyped, h6⟩
  · rename_i reason hk
    rw [hk] at h
    exact h
  · trivial

/-- The graph grows, and only merges and phis get more edges. -/
structure Keeps (g g' : Graph) : Prop where
  size : g.nodes.size ≤ g'.nodes.size
  kind : ∀ x < g.nodes.size, g'.kind? x = g.kind? x
  node : ∀ x n, g.node? x = some n → n.kind.isMerge = false → n.kind ≠ .phi → g'.node? x = some n

variable {g g' g'' : Graph} {G : Grounds}

theorem Keeps.refl (g : Graph) : g.Keeps g := ⟨Nat.le_refl _, fun _ _ => rfl, fun _ _ h _ _ => h⟩

theorem Keeps.trans (h : g.Keeps g') (h' : g'.Keeps g'') : g.Keeps g'' :=
  ⟨h.size.trans h'.size, fun x hx => (h'.kind x (hx.trans_le h.size)).trans (h.kind x hx),
    fun x n hn hm hp => h'.node x n (h.node x n hn hm hp) hm hp⟩

theorem Keeps.of_nodes (h : g'.nodes = g.nodes) : g.Keeps g' :=
  ⟨h ▸ Nat.le_refl _, fun x _ => kind?_congr h x, fun x _ hn _ _ => (node?_congr h x).trans hn⟩

theorem Keeps.kind_of (h : g.Keeps g') {x : NodeId} {k : NodeKind} (hk : g.kind? x = some k) :
    g'.kind? x = some k := by
  obtain ⟨n, hn, -⟩ := kind?_eq_some.1 hk
  rw [h.kind x (lt_size_of_node? hn), hk]

theorem Grounded.kept {n : Node} (h : g.Grounded G n) (hk : g.Keeps g') : g'.Grounded G n := by
  unfold Grounded at h ⊢
  split
  · rename_i check reason hkind
    rw [hkind] at h
    obtain ⟨x, s, ns, shape, h1, h2, h3, h4, h5, h6⟩ := h
    exact ⟨x, s, ns, shape, h1, h2, hk.node s ns h3 (by rw [h4]; rfl) (by rw [h4]; simp), h4,
      h5.input fun _ => hk.kind_of, h6⟩
  · rename_i reason hkind
    rw [hkind] at h
    exact h
  · trivial

end Graph

/-- The plan has the routine of a target specialized with these decisions: the
root's with those of the plan, and that of an inlined call with those below
its site. -/
inductive Plan.Enters (plan : Plan) : TargetId → List PlanEntry → Prop
  | root : Enters plan plan.root plan.entries
  | inlined {u es e} : Enters plan u es → e ∈ es → e.isInlined → Enters plan e.target e.children

/-! ## Building steps -/

namespace Specialize

open TieredEngine.Graph

variable {α β : Type} {G : Grounds} {b : Building}

/-- At this point of the construction, the step keeps what is there and hands
over on these grounds only. -/
structure Adds (G : Grounds) (b : Building) (x : Build α) : Prop where
  grounded : ∀ r b', x.run b = .ok (r, b') → b.graph.Keeps b'.graph ∧
    ∀ y n, b.graph.nodes.size ≤ y → b'.graph.node? y = some n → b'.graph.Grounded G n

theorem Adds.of_nodes {x : Build α}
    (h : ∀ r b', x.run b = .ok (r, b') → b'.graph.nodes = b.graph.nodes) : Adds G b x := by
  refine ⟨fun r b' hrun => ?_⟩
  have hnodes := h r b' hrun
  refine ⟨.of_nodes hnodes, fun y n hy hn => ?_⟩
  rw [node?_congr hnodes] at hn
  exact absurd (lt_size_of_node? hn) (Nat.not_lt.2 hy)

theorem adds_pure (a : α) : Adds G b (pure a : Build α) := .of_nodes fun r b' h => by
  obtain ⟨-, rfl⟩ := run_pure h
  rfl

theorem adds_throw (e : CompileError) :
    Adds G b (throw e : Build α) := ⟨fun _ _ h => (run_throw h).elim⟩

theorem adds_get : Adds G b (get : Build Building) := .of_nodes fun r b' h => by
  cases h
  rfl

theorem adds_returns (f : List Arrival → List Arrival) :
    Adds G b (modify fun b => { b with returns := f b.returns } : Build Unit) :=
      .of_nodes fun r b' h => by
  cases h
  rfl

theorem Adds.bind {x : Build α} {f : α → Build β} (hx : Adds G b x)
    (hf : ∀ a b₁, x.run b = .ok (a, b₁) → b.graph.Keeps b₁.graph → Adds G b₁ (f a)) :
    Adds G b (x >>= f) := by
  refine ⟨fun r b' hrun => ?_⟩
  obtain ⟨a, b₁, h1, h2⟩ := run_bind hrun
  obtain ⟨hk₁, hnew₁⟩ := hx.grounded a b₁ h1
  obtain ⟨hk₂, hnew₂⟩ := (hf a b₁ h1 hk₁).grounded r b' h2
  refine ⟨hk₁.trans hk₂, fun y n hy hn => ?_⟩
  rcases Nat.lt_or_ge y b₁.graph.nodes.size with hlt | hge
  · by_cases hsteady : n.kind.isMerge = false ∧ n.kind ≠ .phi
    · have hkind : b₁.graph.kind? y = some n.kind := by
        rw [← hk₂.kind y hlt]
        exact kind?_eq_some.2 ⟨n, hn, rfl⟩
      obtain ⟨n₁, hn₁, hkn⟩ := kind?_eq_some.1 hkind
      have hsame := hk₂.node y n₁ hn₁ (hkn ▸ hsteady.1) (hkn ▸ hsteady.2)
      obtain rfl := Option.some.inj (hsame.symm.trans hn)
      exact (hnew₁ y n₁ hy hn₁).kept hk₂
    · refine .of_other (fun check reason hk => hsteady ?_) fun reason hk => hsteady ?_ <;>
        rw [hk] <;> simp [NodeKind.isMerge]
  · exact hnew₂ y n hge hn

/-- A step and then others that may be taken anywhere. -/
theorem Adds.next {x : Build α} {f : α → Build β} (hx : Adds G b x) (hf : ∀ a b, Adds G b (f a)) :
    Adds G b (x >>= f) :=
  hx.bind fun a b₁ _ _ => hf a b₁

theorem Adds.mapM {ι : Type} {f : ι → Build β} (hf : ∀ i b, Adds G b (f i)) :
    ∀ (is : List ι) (b : Building), Adds G b (is.mapM f)
  | [], b => by
    rw [List.mapM_nil]
    exact adds_pure _
  | i :: is, b => by
    rw [List.mapM_cons]
    exact (hf i b).next fun _ b => (Adds.mapM hf is b).next fun _ _ => adds_pure _

theorem keeps_push (b : Building) (n : Node) : b.graph.Keeps (b.push n).graph where
  size := by simp
  kind x hx := by
    rw [kind?, kind?, Building.node?_push, if_neg (Nat.ne_of_lt hx)]
  node x n' hn _ _ := Building.node?_push_of hn

theorem adds_addNode_of {n : Node} (h : (b.push n).graph.Grounded G n) : Adds G b (addNode n) := by
  refine ⟨fun r b' hrun => ?_⟩
  obtain ⟨-, rfl⟩ := run_addNode hrun
  refine ⟨keeps_push b n, fun y n' hy hn => ?_⟩
  rw [Building.node?_push] at hn
  split at hn
  · cases hn
    exact h
  · exact absurd (lt_size_of_node? hn) (Nat.not_lt.2 hy)

/-- A node that never hands over may be added anywhere. -/
theorem adds_addNode {n : Node} (hg : ∀ check reason, n.kind ≠ .guard check reason)
    (hd : ∀ reason, n.kind ≠ .deoptimize reason) :
    Adds G b (addNode n) := adds_addNode_of (.of_other hg hd)

theorem adds_constant (v : Value) : Adds G b (constant v) := by
  have hnew : Adds G b (addNode { kind := .constant v }) := adds_addNode (by simp) (by simp)
  refine ⟨fun r b' hrun => ?_⟩
  cases hrun
  obtain ⟨hk, hadd⟩ := hnew.grounded _ _ rfl
  dsimp only [Graph.constant]
  split
  · split
    · exact (adds_pure ()).grounded () b rfl
    · exact ⟨⟨hk.size, hk.kind, hk.node⟩, hadd⟩
  · exact ⟨⟨hk.size, hk.kind, hk.node⟩, hadd⟩

theorem adds_constantAt (id : NodeId) :
    Adds G b (constantAt id) := adds_get.next fun _ _ => adds_pure _

theorem adds_knownType (p : Path) (id : NodeId) :
    Adds G b (knownType p id) := adds_get.next fun _ _ => adds_pure _

theorem adds_frameState (c : Context) (node : ExprId) (mode : ResumeMode) (stack : List NodeId)
    (p : Path) :
    Adds G b (frameState c node mode stack p) := adds_addNode (by simp) (by simp)

/-- A guard whose frame is there and that is backed. -/
theorem adds_guardWith {s x : NodeId} {ns : Node} {shape : FrameShape} {check : GuardCheck}
    {reason : DeoptReason} {p : Path} (hs : b.graph.node? s = some ns)
    (hk : ns.kind = .frameState shape)
    (hb : G.Backs check reason (b.graph.kind? x) shape ns.inputs.length)
    (htop : ∀ expected, check = .condition expected → ns.inputs.getLast? = some x) :
    Adds G b (guardWith s x check reason p) := by
  refine .next (adds_addNode_of ?_) fun _ _ => adds_pure _
  exact ⟨x, s, ns, shape, rfl, rfl, Building.node?_push_of hs, hk,
    hb.input fun _ => Building.kind?_push_of, htop⟩

/-- A guard before an expression acts. -/
theorem adds_guardBefore {c : Context} {node : ExprId} {x : NodeId} {check : GuardCheck}
    {reason : DeoptReason} {stack : List NodeId} {p : Path}
    (hb : ∀ input, G.Backs check reason input
      (.ofLengths c.target node .beforeNode c.arguments.length p.locals.length stack.length)
      (c.arguments.length + p.locals.length + stack.length))
    (htop : ∀ expected, check = .condition expected → stack.getLast? = some x) :
    Adds G b (guardBefore c node x check reason stack p) := by
  refine (adds_frameState ..).bind fun s b₁ hrun _ => ?_
  obtain ⟨rfl, rfl⟩ := run_addNode hrun
  refine adds_guardWith (by rw [Building.node?_push, if_pos rfl]) rfl ?_ fun expected hcheck => ?_
  · rw [List.length_append, List.length_append]
    exact hb _
  · simp [List.getLast?_append, htop expected hcheck]

theorem adds_giveUp {c : Context} {node : ExprId} {stack : List NodeId} {p : Path} :
    Adds G b (giveUp c node stack p) := by
  refine (adds_frameState ..).next fun s b => .next (adds_addNode_of ?_) fun _ _ => adds_pure _
  exact rfl

theorem adds_ensureType {c : Context} {node : ExprId} {stack : List NodeId} {p : Path}
    (value : NodeId) (expected : ValueType) :
    Adds G b (ensureType c node value expected stack p) := by
  unfold ensureType
  refine (adds_knownType p value).next fun known b => ?_
  split
  · split
    · exact adds_pure _
    · exact adds_giveUp.next fun _ _ => adds_pure _
  · exact (adds_guardBefore (fun _ => .operand rfl) (by simp)).next fun _ _ => adds_pure _

theorem adds_fold {c : Context} {node : ExprId} {stack : List NodeId} {p : Path}
    (folded : Except GuestError Value) :
    Adds G b (fold c node folded stack p) := by
  unfold fold
  split
  · exact (adds_constant _).next fun _ _ => adds_pure _
  · exact adds_giveUp.next fun _ _ => adds_pure _

theorem adds_emitBinary {c : Context} {node : ExprId} {stack : List NodeId} {p : Path}
    (op : BinaryOp) (lhs rhs : NodeId) :
    Adds G b (emitBinary c node op lhs rhs stack p) := by
  have hemit : ∀ {p : Path} b, Adds G b
      (do return some ⟨← addNode { kind := .binary op, inputs := [lhs, rhs] }, p⟩ :
        Build (Option Arrival)) :=
    fun b => (adds_addNode (by simp) (by simp)).next fun _ _ => adds_pure _
  unfold emitBinary
  refine (adds_constantAt lhs).next fun x b => (adds_constantAt rhs).next fun y b => ?_
  split
  · exact adds_fold _
  · split
    · exact hemit b
    · refine (adds_ensureType ..).next fun o b => ?_
      split
      · refine (adds_ensureType ..).next fun o b => ?_
        split
        · exact hemit b
        · exact adds_pure _
      · exact adds_pure _

theorem adds_emitUnary {c : Context} {node : ExprId} {stack : List NodeId} {p : Path} (op : UnaryOp)
    (operand : NodeId) :
    Adds G b (emitUnary c node op operand stack p) := by
  unfold emitUnary
  refine (adds_constantAt operand).next fun x b => ?_
  split
  · exact adds_fold _
  · refine (adds_ensureType ..).next fun o b => ?_
    split
    · exact (adds_addNode (by simp) (by simp)).next fun _ _ => adds_pure _
    · exact adds_pure _

theorem adds_emitInvoke {c : Context} {node : ExprId} {stack : List NodeId} {p : Path}
    (target : TargetId) (arguments : List NodeId) :
    Adds G b (emitInvoke c node target arguments stack p) :=
  (adds_frameState ..).next fun _ _ =>
    (adds_addNode (by simp) (by simp)).next fun _ _ => adds_pure _

theorem adds_recordReturn (value : NodeId) (p : Path) : Adds G b (recordReturn value p) :=
  (adds_returns fun returns => returns ++ [⟨value, { p with locals := [] }⟩]).next
    fun _ _ => adds_pure _

theorem adds_joinValues (merge : NodeId) (inputs : List NodeId) :
    Adds G b (joinValues merge inputs) := by
  unfold joinValues
  split
  · exact adds_addNode (by simp) (by simp)
  · split
    · exact adds_pure _
    · exact adds_addNode (by simp) (by simp)

theorem adds_join (arrivals : List Arrival) : Adds G b (join arrivals) := by
  unfold join
  split
  · exact adds_pure _
  · exact adds_pure _
  · exact (adds_addNode (by simp) (by simp)).next fun _ _ => (adds_joinValues ..).next fun _ b =>
      (Adds.mapM (fun _ _ => adds_joinValues ..) _ b).next fun _ _ => adds_pure _

theorem adds_finishRoutine (completed : Option Arrival) : Adds G b (finishRoutine completed) :=
  adds_get.next fun _ _ => (adds_returns fun _ => []).next fun _ _ => adds_join _

theorem adds_split (condition : NodeId) (p : Path) : Adds G b (split condition p) :=
  (adds_addNode (by simp) (by simp)).next fun _ _ =>
    (adds_addNode (by simp) (by simp)).next fun _ _ =>
    (adds_addNode (by simp) (by simp)).next fun _ _ => adds_pure _

/-! ## Conditionals and loops -/

/-- The routine of a context is known, and so are the ways its conditionals
have gone. -/
structure Context.GroundsKnown (G : Grounds) (c : Context) (r : Routine) : Prop where
  routine : G.routine c.target r
  seen : ∀ node taken, (c.profile.branch node).oneSided? = some taken → G.seen c.target node taken

section

variable {c : Context} {r : Routine} {e : Expr} {stack : List NodeId} {p : Path}

theorem adds_branching (hc : c.GroundsKnown G r) (he : e.isConditional)
    (hp : r.body.Pends stack.length e) (condition : NodeId) :
    Adds G b (branching c e.id condition (stack ++ [condition]) p) := by
  unfold branching
  refine (adds_knownType p condition).next fun known b => ?_
  split
  · exact adds_giveUp.next fun _ _ => adds_pure _
  · refine (adds_constantAt condition).next fun v b => ?_
    split
    · exact adds_pure _
    · split
      · rename_i taken hone
        refine .next (adds_guardBefore (fun input => ?_) (by simp)) fun _ _ => adds_pure _
        refine .branch rfl hc.routine rfl he hp (fun hcounts => ?_) (hc.seen _ _ hone)
        rw [FrameShape.toNat_stack_ofLengths hcounts.fits, List.length_append,
          List.length_singleton]
      · exact adds_pure _

theorem adds_conditional {condition : NodeId} {onTrue onFalse : Path → Build (Option Arrival)}
    (hc : c.GroundsKnown G r) (he : e.isConditional) (hp : r.body.Pends stack.length e)
    (hT : ∀ p b, Adds G b (onTrue p)) (hF : ∀ p b, Adds G b (onFalse p)) :
    Adds G b (conditional c e.id condition stack p onTrue onFalse) := by
  unfold conditional
  refine (adds_branching hc he hp condition).next fun way b => ?_
  match way with
  | .ended => exact adds_pure _
  | .always true p => exact hT p b
  | .always false p => exact hF p b
  | .either =>
    exact (adds_split _ _).next fun _ b => (hT _ b).next fun _ b =>
      (hF _ b).next fun _ _ => adds_join _

/-- The header and the phis of a loop are there. -/
structure OpenLoop.Opened (l : OpenLoop) (g : Graph) : Prop where
  header : g.kind? l.header = some .loopBegin
  phis : ∀ phi ∈ l.phis, g.kind? phi = some .phi

theorem OpenLoop.Opened.kept {l : OpenLoop} {g g' : Graph} (h : l.Opened g) (hk : g.Keeps g') :
    l.Opened g' :=
  ⟨hk.kind_of h.header, fun phi hphi => hk.kind_of (h.phis phi hphi)⟩

theorem adds_openLoop (p : Path) : Adds G b (openLoop p) :=
  (adds_addNode (by simp) (by simp)).next fun _ b =>
    (Adds.mapM (fun _ _ => adds_addNode (by simp) (by simp)) _ b).next fun _ _ => adds_pure _

theorem opened_openLoop {l : OpenLoop} {p' : Path} {b' : Building}
    (h : (openLoop p).run b = .ok ((l, p'), b')) : l.Opened b'.graph := by
  obtain ⟨header, b₁, h1, h2⟩ := run_bind h
  obtain ⟨phis, b₂, h3, h4⟩ := run_bind h2
  obtain ⟨hl, rfl⟩ := run_pure h4
  cases hl
  obtain ⟨rfl, rfl⟩ := run_addNode h1
  refine run_mapM h3 (fun phis b₂ => (⟨b.graph.nodes.size, phis⟩ : OpenLoop).Opened b₂.graph)
    ⟨?_, by simp⟩ ?_
  · rw [kind?, Building.node?_push, if_pos rfl]
    rfl
  · intro v _ phis b₁ phi b₂ hopen hrun
    obtain ⟨rfl, rfl⟩ := run_addNode hrun
    have hkept :=
      hopen.kept (keeps_push b₁ { kind := .phi, inputs := [v], control := [b.graph.nodes.size] })
    refine ⟨hkept.header, fun phi hphi => ?_⟩
    rcases List.mem_append.1 hphi with hphi | hphi
    · exact hkept.phis phi hphi
    · obtain rfl := List.mem_singleton.1 hphi
      rw [kind?, Building.node?_push, if_pos rfl]
      rfl

/-- More edges at a merge or a phi. -/
theorem keeps_modify {g : Graph} {x : NodeId} {k : NodeKind} {f : Node → Node}
    (hf : ∀ n, (f n).kind = n.kind) (hx : g.kind? x = some k) (hk : k.isMerge ∨ k = .phi) :
    g.Keeps (g.modify x f) where
  size := by rw [size_modify]
  kind y _ := by
    rw [kind?, kind?, node?_modify]
    split
    · subst y
      cases g.node? x <;> simp [hf]
    · rfl
  node y n hn hm hp := by
    rw [node?_modify, if_neg ?_, hn]
    rintro rfl
    rw [kind?, hn] at hx
    cases hx
    rcases hk with hk | hk
    · rw [hm] at hk
      cases hk
    · exact hp hk

/-- Phis that get one more input each are kept. -/
theorem keeps_feed (pairs : List (NodeId × NodeId)) :
    ∀ g : Graph, (∀ pair ∈ pairs, g.kind? pair.1 = some .phi) →
    g.Keeps (pairs.foldl
        (fun g (phi, v) => g.modify phi fun n => { n with inputs := n.inputs ++ [v] }) g) ∧
      (pairs.foldl (fun g (phi, v) => g.modify phi fun n => { n with inputs := n.inputs ++ [v] })
          g).nodes.size = g.nodes.size := by
  induction pairs with
  | nil => exact fun g _ => ⟨.refl g, rfl⟩
  | cons pair pairs ih =>
    intro g hphis
    have hone := keeps_modify (f := fun n => { n with inputs := n.inputs ++ [pair.2] })
      (fun _ => rfl) (hphis pair List.mem_cons_self) (.inr rfl)
    obtain ⟨h1, h2⟩ :=
      ih _ fun pair hpair => hone.kind_of (hphis pair (List.mem_cons_of_mem _ hpair))
    exact ⟨hone.trans h1, h2.trans (size_modify ..)⟩

/-- The edge back is an edge at the header and at its phis, and no new node. -/
theorem keeps_closeLoop {l : OpenLoop} {body : Option Arrival} {u : Unit} {b' : Building}
    (hl : l.Opened b.graph) (hrun : (closeLoop l body).run b = .ok (u, b')) :
    b.graph.Keeps b'.graph ∧ b'.graph.nodes.size = b.graph.nodes.size := by
  cases body with
  | none =>
    cases hrun
    exact ⟨.refl _, rfl⟩
  | some a =>
    cases hrun
    have hhead := keeps_modify (f := fun n => { n with control := n.control ++ [a.path.control] })
      (fun _ => rfl) hl.header (.inl rfl)
    obtain ⟨hkept, hsize⟩ := keeps_feed (l.phis.zip a.path.locals) _ fun pair hpair =>
      hhead.kind_of (hl.phis pair.1 (List.of_mem_zip hpair).1)
    exact ⟨hhead.trans hkept, hsize.trans (size_modify ..)⟩

theorem adds_closeLoop {l : OpenLoop} (hl : l.Opened b.graph) (body : Option Arrival) :
    Adds G b (closeLoop l body) := by
  refine ⟨fun r b' hrun => ?_⟩
  obtain ⟨hkept, hsize⟩ := keeps_closeLoop hl hrun
  exact ⟨hkept, fun y n hy hn => absurd (lt_size_of_node? hn) (Nat.not_lt.2 (hsize ▸ hy))⟩

theorem adds_loopOn {l : OpenLoop} {condition : NodeId} {body : Path → Build (Option Arrival)}
    (hc : c.GroundsKnown G r) (he : e.isConditional) (hp : r.body.Pends stack.length e)
    (hl : l.Opened b.graph) (hB : ∀ p b, Adds G b (body p)) :
    Adds G b (loopOn c e.id l condition stack p body) := by
  have hnull : ∀ {p : Path} b,
      Adds G b (do return some ⟨← constant .null, p⟩ : Build (Option Arrival)) := fun b =>
    (adds_constant _).next fun _ _ => adds_pure _
  unfold loopOn
  refine (adds_branching hc he hp condition).bind fun way b₁ _ hk₁ => ?_
  match way with
  | .ended => exact adds_pure _
  | .always false p => exact hnull b₁
  | .always true p =>
    refine (hB p b₁).bind fun arrival b₂ _ hk₂ => ?_
    exact (adds_closeLoop (hl.kept (hk₁.trans hk₂)) arrival).next fun _ _ => adds_pure _
  | .either =>
    refine (adds_split _ _).bind fun sides b₂ _ hk₂ => (hB _ b₂).bind fun arrival b₃ _ hk₃ => ?_
    exact (adds_closeLoop (hl.kept ((hk₁.trans hk₂).trans hk₃)) arrival).next fun _ b => hnull b

/-! ## Expressions -/

/-- Inlined calls hand over on these grounds too. -/
def Context.Inlines (G : Grounds) (c : Context) : Prop :=
  ∀ id enter, c.entries.lookup id = some enter →
    ∀ describe arguments p b, (∀ b, Adds G b describe) → Adds G b (enter describe arguments p)

/-- A value, and on from there; without a value nothing follows. -/
theorem Adds.nextSome {x : Build (Option α)} {f : Option α → Build (Option β)} (hx : Adds G b x)
    (hnone : f none = pure none) (hf : ∀ a b, Adds G b (f (some a))) : Adds G b (x >>= f) := by
  refine hx.next fun o b => ?_
  cases o with
  | none =>
    rw [hnone]
    exact adds_pure _
  | some a => exact hf a b

theorem adds_evalBlock {es : List Expr} (he : ∀ e ∈ es, ∀ p b, Adds G b (eval c e stack p)) :
    ∀ last p b, Adds G b (evalBlock c es last stack p) := by
  induction es with
  | nil =>
    intro last p b
    rw [evalBlock]
    exact adds_pure _
  | cons e es ih =>
    intro last p b
    rw [evalBlock]
    refine (he e List.mem_cons_self p b).nextSome rfl fun a b => ?_
    exact ih (fun e' he' => he e' (List.mem_cons_of_mem _ he')) _ _ b

/-- Operands are specialized behind those before them. -/
theorem adds_evalAll {es : List Expr}
    (he : ∀ (i : ℕ) o, es[i]? = some o → ∀ stack' p b, stack'.length = stack.length + i →
    Adds G b (eval c o stack' p)) :
    ∀ (fs done : List Expr) (values : List NodeId) p b, es = done ++ fs →
      values.length = done.length → Adds G b (evalAll c fs values stack p) := by
  intro fs
  induction fs with
  | nil =>
    intro done values p b _ _
    rw [evalAll]
    exact adds_pure _
  | cons o fs ih =>
    intro done values p b hes hlen
    rw [evalAll]
    have ho : es[done.length]? = some o := by simp [hes]
    refine (he done.length o ho _ p b (by simp [hlen])).nextSome rfl fun a b => ?_
    exact ih (done ++ [o]) _ _ b (by simp [hes]) (by simp [hlen])

/-- Specializing an expression of the routine hands over on the grounds of its
context. -/
theorem adds_eval (hc : c.GroundsKnown G r) (hi : c.Inlines G) :
    ∀ e, ∀ stack p b, r.body.Pends stack.length e → Adds G b (eval c e stack p) := by
  refine Expr.induction_children fun e ih stack p b hp => ?_
  have hnull : ∀ (p : Path) b,
      Adds G b (do return some ⟨← constant .null, p⟩ : Build (Option Arrival)) := fun p b =>
    (adds_constant _).next fun _ _ => adds_pure _
  have hoperand : ∀ (i : ℕ) o, e.operands[i]? = some o →
      ∀ stack' p b, stack'.length = stack.length + i →
      Adds G b (eval c o stack' p) := fun i o ho stack' p b hlen =>
    ih o (e.operands_prefix.subset (List.mem_of_getElem? ho)) stack' p b (hlen ▸ hp.operand ho)
  have hbody : ∀ (i : ℕ) o, e.children[i]? = some o → e.operands.length ≤ i →
      ∀ p b, Adds G b (eval c o stack p) :=
    fun i o ho hle p b => ih o (List.mem_of_getElem? ho) stack p b (hp.part ho hle)
  cases e with
  | constant id v =>
    rw [eval]
    exact (adds_constant v).next fun _ _ => adds_pure _
  | argument id index =>
    rw [eval]
    split
    · exact adds_pure _
    · exact hnull p b
  | readLocal id slot =>
    rw [eval]
    split
    · exact adds_pure _
    · exact adds_throw _
  | writeLocal id slot o =>
    rw [eval]
    refine (hoperand 0 o rfl stack p b rfl).nextSome rfl fun a b => ?_
    dsimp only
    split
    · exact adds_pure _
    · exact adds_throw _
  | binary id op x y =>
    rw [eval]
    refine (hoperand 0 x rfl stack p b rfl).nextSome rfl fun a b => ?_
    exact (hoperand 1 y rfl _ _ b (by simp)).nextSome rfl fun _ _ => adds_emitBinary ..
  | unary id op o =>
    rw [eval]
    exact (hoperand 0 o rfl stack p b rfl).nextSome rfl fun _ _ => adds_emitUnary ..
  | block id parts =>
    rw [eval]
    refine (adds_constant .null).next fun last b => ?_
    refine adds_evalBlock (fun o ho => ?_) last p b
    obtain ⟨i, hlt⟩ := List.getElem?_of_mem ho
    exact hbody i o hlt (Nat.zero_le _)
  | ifThen id condition body =>
    rw [eval]
    refine (hoperand 0 condition rfl stack p b rfl).nextSome rfl fun a b => ?_
    exact adds_conditional (e := .ifThen id condition body) hc rfl hp
      (hbody 1 body rfl (Nat.le_refl _)) hnull
  | ifElse id condition body alternative =>
    rw [eval]
    refine (hoperand 0 condition rfl stack p b rfl).nextSome rfl fun a b => ?_
    exact adds_conditional (e := .ifElse id condition body alternative) hc rfl hp
      (hbody 1 body rfl (Nat.le_refl _)) (hbody 2 alternative rfl (by simp [Expr.operands]))
  | whileLoop id condition body =>
    rw [eval]
    refine (adds_openLoop p).bind fun l b₁ hopen _ => ?_
    refine (hoperand 0 condition rfl stack l.2 b₁ rfl).bind fun o b₂ _ hk => ?_
    cases o with
    | none => exact adds_pure _
    | some a =>
      exact adds_loopOn (e := .whileLoop id condition body) hc rfl hp
        ((opened_openLoop hopen).kept hk) (hbody 1 body rfl (Nat.le_refl _))
  | ret id o =>
    rw [eval]
    exact (hoperand 0 o rfl stack p b rfl).nextSome rfl fun _ _ => adds_recordReturn ..
  | call id target es =>
    rw [eval]
    refine (adds_evalAll hoperand es [] [] p b rfl rfl).nextSome rfl fun a b => ?_
    cases hl : c.entries.lookup id with
    | none => exact adds_emitInvoke ..
    | some enter => exact hi id enter hl _ _ _ b fun _ => adds_frameState ..

end

/-! ## Inlined routines -/

/-- Entering an inlined call is specializing the routine of its target. -/
theorem adds_entryOf {targets : Registry} {e : PlanEntry} {describe : Build NodeId}
    {arguments : List NodeId} {p : Path}
    (h : ∀ callee, targets[e.target]? = some callee → ∀ c : Context, c.target = e.target →
      c.profile = callee.profile →
      c.entries = entriesOf targets e.children → c.GroundsKnown G callee.routine ∧ c.Inlines G)
    (hd : Adds G b describe) : Adds G b (entryOf targets e describe arguments p) := by
  obtain ⟨site, target, decision, children⟩ := e
  rw [entryOf]
  cases hcallee : targets[target]? with
  | none => exact adds_throw _
  | some callee =>
    refine hd.next fun outer b => (adds_constant .null).next fun null b =>
      adds_get.next fun waiting b =>
      (adds_returns fun _ => []).next fun _ b => ?_
    obtain ⟨hknown, hinlines⟩ := h callee hcallee ⟨target, callee.routine.name, callee.profile,
      arguments, some outer, entriesOf targets children⟩ rfl rfl rfl
    refine (adds_eval hknown hinlines _ [] _ b (Expr.pends_self _)).next fun _ b =>
      (adds_finishRoutine _).next fun _ b => ?_
    exact (adds_returns fun _ => _).next fun _ _ => adds_pure _

/-- Whatever the plan has inlined, its grounds are the profiles of the targets
that it inlines. -/
theorem inlines_entriesOf {targets : Registry} {plan : Plan}
    (h : ∀ u es e callee, plan.Enters u es → e ∈ es → e.isInlined →
      targets[e.target]? = some callee → G.routine e.target callee.routine ∧
        ∀ node taken, (callee.profile.branch node).oneSided? = some taken →
          G.seen e.target node taken) (n : ℕ) :
    ∀ {u : TargetId} {es : List PlanEntry} {c : Context}, sizeOf es ≤ n → plan.Enters u es →
      c.entries = entriesOf targets es → c.Inlines G := by
  induction n with
  | zero =>
    intro u es c hn
    cases es <;> simp at hn
  | succ n ih =>
    intro u es c hn hplan hc id enter hl describe arguments p b hd
    rw [hc] at hl
    obtain ⟨e, he, rfl, hin, rfl⟩ := inlined_of_lookup hl
    refine adds_entryOf (fun callee hcallee c' htarget hprofile hentries => ?_) (hd b)
    obtain ⟨hroutine, hseen⟩ := h u es e callee hplan he hin hcallee
    refine ⟨⟨htarget ▸ hroutine, htarget ▸ hprofile ▸ hseen⟩, ih ?_ (hplan.inlined he hin) hentries⟩
    have hlt : sizeOf e.children < sizeOf e := by
      cases e
      simp only [PlanEntry.mk.sizeOf_spec]
      omega
    have := List.sizeOf_lt_of_mem he
    omega

/-! ## Whole routines -/

/-- The arguments of a context are the parameters of the graph. -/
def Context.Takes (c : Context) (g : Graph) : Prop :=
  ∀ i x, c.arguments[i]? = some x → g.kind? x = some (.parameter i)

theorem Context.Takes.kept {c : Context} {g g' : Graph} (h : c.Takes g) (hk : g.Keeps g') :
    c.Takes g' :=
  fun i x hx => hk.kind_of (h i x hx)

theorem kinds_parameters (G : Grounds) (is : List ℕ) : ∀ {b b' : Building} {ids : List NodeId},
    (is.mapM fun index => addNode { kind := .parameter index }).run b = .ok (ids, b') →
      List.Forall₂ (fun i id => b'.graph.kind? id = some (.parameter i)) is ids := by
  induction is with
  | nil =>
    intro b b' ids h
    obtain ⟨rfl, rfl⟩ := run_pure h
    exact .nil
  | cons i is ih =>
    intro b b' ids h
    rw [List.mapM_cons] at h
    obtain ⟨id, b₁, h1, h2⟩ := run_bind h
    obtain ⟨rfl, rfl⟩ := run_addNode h1
    obtain ⟨ids', b₂, h3, h4⟩ := run_bind h2
    obtain ⟨rfl, rfl⟩ := run_pure h4
    have hrest : Adds G (b.push { kind := .parameter i })
        (is.mapM fun index => addNode { kind := .parameter index }) :=
      .mapM (fun _ _ => adds_addNode (by simp) (by simp)) is _
    refine .cons ((hrest.grounded _ _ h3).1.kind_of ?_) (ih h3)
    rw [kind?, Building.node?_push, if_pos rfl]
    rfl

/-- Guards on parameters: their frame and the parameters stay where they are
while guards are added. -/
theorem adds_guards {c : Context} {s : NodeId} {ns : Node} {shape : FrameShape}
    (hk : ns.kind = .frameState shape) (hmode : shape.mode = .start)
    (htarget : shape.target = G.root) (types : List (ℕ × ValueType)) :
    ∀ (p : Path) (b : Building), (∀ t ∈ types, G.typed t.1 t.2) → b.graph.node? s = some ns →
      c.Takes b.graph →
      Adds G b (types.foldlM (fun p (index, type) => match c.arguments[index]? with
        | some parameter => guardWith s parameter (.type type) .typeGuardFailure p
        | none => pure p) p) := by
  induction types with
  | nil => exact fun _ _ _ _ _ => adds_pure _
  | cons t types ih =>
    intro p b ht hs hb
    rw [List.foldlM_cons]
    refine .bind ?_ fun p' b₁ _ hkeep => ih p' b₁ (fun t' ht' => ht t' (List.mem_cons_of_mem _ ht'))
      (hkeep.node s ns hs (by rw [hk]; rfl) (by simp [hk])) (hb.kept hkeep)
    dsimp only
    cases hx : c.arguments[t.1]? with
    | none => exact adds_pure _
    | some x =>
      refine adds_guardWith hs hk ?_ (by simp)
      rw [hb _ _ hx]
      exact .entry hmode htarget (ht t List.mem_cons_self)

theorem adds_guardEntry {c : Context} {r : Routine} {p : Path} (hroot : c.target = G.root)
    (htyped : ∀ i type, c.profile.argument i = .monomorphic type → G.typed i type)
    (hargs : c.Takes b.graph) :
    Adds G b (guardEntry c r p) := by
  have hspeculated : ∀ t ∈ speculated r c.profile, G.typed t.1 t.2 := by
    intro t ht
    obtain ⟨i, -, hi⟩ := List.mem_filterMap.1 ht
    obtain ⟨type, hsingle, rfl⟩ := Option.map_eq_some_iff.1 hi
    refine htyped i type ?_
    revert hsingle
    cases c.profile.argument i <;> simp [Feedback.single?]
  unfold guardEntry
  split
  · exact adds_pure _
  · refine (adds_frameState ..).bind fun s b₁ hrun hkeep => ?_
    obtain ⟨rfl, rfl⟩ := run_addNode hrun
    exact adds_guards rfl rfl hroot _ p _ hspeculated (by rw [Building.node?_push, if_pos rfl])
      (hargs.kept hkeep)

theorem adds_buildRoutine {target : TargetId} {t : CallTarget} {entries : List (ExprId × Entry)}
    (hroot : target = G.root)
    (h : ∀ c : Context, c.target = target → c.profile = t.profile → c.entries = entries →
        c.GroundsKnown G t.routine ∧ c.Inlines G)
    (htyped : ∀ i type, t.profile.argument i = .monomorphic type → G.typed i type) :
    Adds G b (buildRoutine target t entries) := by
  unfold buildRoutine
  refine (Adds.mapM (fun _ _ => adds_addNode (by simp) (by simp)) _ b).bind
    fun arguments b₁ hrun _ =>
    (adds_constant .null).bind fun null b₂ _ hkeep => ?_
  have hargs : ∀ i x, arguments[i]? = some x → b₁.graph.kind? x = some (.parameter i) := by
    intro i x hx
    have hkinds := kinds_parameters G _ hrun
    have hi := (List.getElem?_eq_some_iff.1 hx).1
    have h := (List.forall₂_iff_get.1 hkinds).2 i (hkinds.length_eq ▸ hi) hi
    rw [List.getElem?_eq_some_iff] at hx
    simpa [← hx.2] using h
  let c : Context := ⟨target, t.routine.name, t.profile, arguments, none, entries⟩
  obtain ⟨hknown, hinlines⟩ := h c rfl rfl rfl
  have htakes : c.Takes b₂.graph := fun i x hx => hkeep.kind_of (hargs i x hx)
  refine (adds_guardEntry (c := c) hroot htyped htakes).next fun p b => ?_
  refine (adds_eval hknown hinlines _ [] p b (Expr.pends_self _)).next fun o b =>
    (adds_finishRoutine o).next fun r b => ?_
  cases r with
  | none => exact adds_pure _
  | some a => exact (adds_addNode (by simp) (by simp)).next fun _ _ => adds_pure _

/-- The targets that a specialization meets: the one it is for, and those it
finds registered. -/
def Involves (targets : Registry) (id : TargetId) (t : CallTarget) (u : TargetId) (v : CallTarget) :
    Prop :=
  (u = id ∧ v = t) ∨ targets[u]? = some v

/-- The grounds that profiles give: the only type a parameter had, and the
only way a conditional went. -/
def grounds (targets : Registry) (id : TargetId) (t : CallTarget) : Grounds where
  root := id
  routine u r := ∃ v, Involves targets id t u v ∧ v.routine = r
  seen u node taken :=
    ∃ v, Involves targets id t u v ∧ (v.profile.branch node).oneSided? = some taken
  typed i type := t.profile.argument i = .monomorphic type

section

variable {targets : Registry} {id : TargetId} {t : CallTarget} {plan : Plan} {g : Graph}

/-- A graph rests on grounds that are those of the target's profile and of the
profiles of what the plan inlines. -/
theorem grounded_of_specialize (h : specialize targets id t plan = .ok g) (hroot : G.root = id)
    (hself : G.routine id t.routine ∧
        ∀ node taken, (t.profile.branch node).oneSided? = some taken → G.seen id node taken)
    (hinlined : ∀ u es e callee, plan.Enters u es → e ∈ es → e.isInlined →
      targets[e.target]? = some callee → G.routine e.target callee.routine ∧
        ∀ node taken, (callee.profile.branch node).oneSided? = some taken →
          G.seen e.target node taken)
    (htyped : ∀ i type, t.profile.argument i = .monomorphic type → G.typed i type) :
      g.AllGrounded G := by
  obtain ⟨⟨b, hrun, rfl⟩, -⟩ := run_of_specialize h
  have hadds : Adds G ⟨Graph.init t.routine.name, []⟩
      (buildRoutine id t (entriesOf targets plan.entries)) := by
    refine adds_buildRoutine hroot.symm (fun c htarget hprofile hentries => ?_) htyped
    refine ⟨⟨?_, ?_⟩, inlines_entriesOf hinlined _ (Nat.le_refl _) .root hentries⟩
    · rw [htarget]
      exact hself.1
    · rw [htarget, hprofile]
      exact hself.2
  obtain ⟨hkeep, hnew⟩ := hadds.grounded _ _ hrun
  intro m n hn
  cases m with
  | zero =>
    have hstart : b.graph.node? 0 = some { kind := .start } := hkeep.node 0 _ rfl rfl (by simp)
    obtain rfl := Option.some.inj (hstart.symm.trans hn)
    trivial
  | succ m => exact hnew _ n (by simp [Graph.init]) hn

/-- Every guard of a specialized graph rests on the profiles it was made
from. -/
theorem specialize_grounded (h : specialize targets id t plan = .ok g) :
    g.AllGrounded (grounds targets id t) := by
  have hknown : ∀ u v, Involves targets id t u v → (grounds targets id t).routine u v.routine ∧
      ∀ node taken, (v.profile.branch node).oneSided? = some taken →
        (grounds targets id t).seen u node taken :=
    fun u v hv => ⟨⟨v, hv, rfl⟩, fun node taken hone => ⟨v, hv, hone⟩⟩
  exact grounded_of_specialize h rfl (hknown id t (.inl ⟨rfl, rfl⟩))
    (fun _ _ e v _ _ _ hv => hknown e.target v (.inr hv)) fun i type hi => hi

end

end Specialize

end TieredEngine

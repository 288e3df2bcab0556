import TieredEngine.Proofs.Interpreter.Validation
import TieredEngine.Proofs.Specialize.Shape
import TieredEngine.Proofs.Specialize.Speculation
/-!
# The frames that a graph describes

Specialization keeps the pending operands in a list of its own, and puts its
length into every frame state. The interpreter counts the same operands along
the path to the frame's expression. `framed_of_run`: they agree in every frame
state that is built, whether anything ever hands it over or not, and the frame
states of inlined routines hang together as the plan has it. The lengths are
stored in words, so this holds where the words can hold them; `FitsWords` says
when they do.
-/

namespace TieredEngine

/-! ## Shapes of frames -/

/-- The shape is that of a frame which the routine can be picked up from, once
the result of a call is on the stack. -/
structure FrameShape.Describes (shape : FrameShape) (r : Routine) : Prop where
  node : shape.node < r.nodeCount
  call : shape.mode = .afterCall →
    ∃ target arguments, r.expr? shape.node = some (.call shape.node target arguments)
  locals : shape.locals.toNat = r.localCount
  stack : shape.stack.toNat = match shape.mode with
    | .start => 0
    | .beforeNode => r.held shape.node + r.operandCount shape.node
    | .afterCall => r.held shape.node

/-- No local slot is the last word, and a word can count the values of every
frame that the specialization of the routine describes. The arguments of an
inlined call are expressions of its caller, and the values on the stack are
those of expressions of the frame's routine. -/
structure Specialize.FitsWords (targets : Registry) (r : Routine) : Prop where
  slots : ∀ x ∈ withRegistered targets r, x.SlotsFit
  root : max r.parameters r.argumentCount + r.localCount + r.nodeCount ≤ 2 ^ 32
  inlined : ∀ caller ∈ withRegistered targets r, ∀ v ∈ targets,
    caller.nodeCount + v.routine.localCount + v.routine.nodeCount ≤ 2 ^ 32

/-- What a specialization is given: the registered targets, the target and
routine that it is for, and the plan. -/
structure Brief where
  targets : Registry
  id : TargetId
  routine : Routine
  plan : Plan

namespace Graph

/-- A frame state with this shape and this caller is as it should be. One
without a caller describes a frame of the root. One with a caller describes a
frame of a routine that is inlined at the caller's node, behind which the
caller waits. -/
inductive Chained (B : Brief) (g : Graph) (shape : FrameShape) : Option NodeId → Prop
  | root : shape.target = B.id → shape.Describes B.routine → Chained B g shape none
  | inlined {o no outer es e v} : g.node? o = some no → no.kind = .frameState outer →
      outer.mode = .afterCall → B.plan.Enters outer.target es → e ∈ es → e.isInlined →
      e.site = outer.node → e.target = shape.target → B.targets[shape.target]? = some v →
      shape.mode ≠ .start → shape.Describes v.routine → Chained B g shape (some o)

/-- A frame state is as it should be, unless its counts overflow, which they
do not where the brief fits words. What hands over names a frame state that
fits: a call the frame behind it, any other the frame before an expression or
the start. -/
def Framed (B : Brief) (g : Graph) (n : Node) : Prop :=
  match n.kind with
  | .frameState shape => (Specialize.FitsWords B.targets B.routine → n.inputs.length < 2 ^ 32) ∧
      (shape.Counts n.inputs.length → g.Chained B shape n.state)
  | .invoke .. =>
    ∃ s ns shape, n.state = some s ∧ g.node? s = some ns ∧ ns.kind = .frameState shape ∧
      shape.mode = .afterCall
  | .guard .. | .deoptimize _ =>
    ∃ s ns shape, n.state = some s ∧ g.node? s = some ns ∧ ns.kind = .frameState shape ∧
      shape.mode ≠ .afterCall
  | _ => True

variable {B : Brief} {g g' : Graph} {n : Node}

theorem Chained.kept {shape : FrameShape} {o : Option NodeId} (h : g.Chained B shape o)
    (hk : g.Keeps g') :
    g'.Chained B shape o := by
  cases h with
  | root ht hs => exact .root ht hs
  | inlined ho hko hm he hmem hin hsite htarget hv hstart hs =>
    exact .inlined (hk.node _ _ ho (by rw [hko]; rfl) (by simp [hko])) hko hm he hmem hin hsite
      htarget hv hstart hs

theorem Framed.kept (h : g.Framed B n) (hk : g.Keeps g') : g'.Framed B n := by
  have hframe : ∀ {s ns shape}, g.node? s = some ns → ns.kind = .frameState shape →
      g'.node? s = some ns := fun hs hks => hk.node _ _ hs (by rw [hks]; rfl) (by simp [hks])
  unfold Framed at h ⊢
  split <;> rename_i hkind <;> simp only [hkind] at h
  · exact ⟨h.1, fun hcounts => (h.2 hcounts).kept hk⟩
  · obtain ⟨s, ns, shape, h1, h2, h3, h4⟩ := h
    exact ⟨s, ns, shape, h1, hframe h2 h3, h3, h4⟩
  · obtain ⟨s, ns, shape, h1, h2, h3, h4⟩ := h
    exact ⟨s, ns, shape, h1, hframe h2 h3, h3, h4⟩
  · obtain ⟨s, ns, shape, h1, h2, h3, h4⟩ := h
    exact ⟨s, ns, shape, h1, hframe h2 h3, h3, h4⟩
  · trivial

/-- Most nodes have nothing to do with frames. -/
theorem framed_of_plain (hd : n.kind.canDeoptimize = false)
    (hf : ∀ shape, n.kind ≠ .frameState shape) : g.Framed B n := by
  unfold Framed
  split <;> rename_i hk <;> simp [hk, NodeKind.canDeoptimize] at hd hf ⊢

end Graph

/-! ## Frames of an expression -/

namespace Expr.Pends

variable {r : Routine} {k : ℕ} {body e : Expr}

/-- Where an expression waits behind `k` operands, resumption takes `k` values
on the way to it. -/
theorem found (h : r.body.Pends k e) :
    e.id < r.nodeCount ∧ r.expr? e.id = some e ∧ r.held e.id = k := by
  obtain ⟨ss, hw, hp⟩ := h (List.replicate k .null) List.length_replicate
  refine ⟨hw.node_lt, hw.expr?_eq, ?_⟩
  rw [hw.held_eq, hp, List.length_replicate]

/-- There is room in the body for the operands that wait. -/
theorem room (h : body.Pends k e) : k + e.nodeCount ≤ body.nodeCount := by
  obtain ⟨ss, hw, hp⟩ := h (List.replicate k .null) List.length_replicate
  have hle := hw.pending_add_nodeCount_le
  rwa [hp, List.length_replicate] at hle

theorem describes_before (h : r.body.Pends k e) {target : TargetId} {arguments : ℕ}
    (hfits : arguments + r.localCount + (k + e.operands.length) < 2 ^ 32) : FrameShape.Describes
    (.ofLengths target e.id .beforeNode arguments r.localCount (k + e.operands.length)) r := by
  obtain ⟨hlt, he, hk⟩ := h.found
  refine ⟨hlt, by simp, FrameShape.toNat_locals_ofLengths hfits, ?_⟩
  rw [FrameShape.toNat_stack_ofLengths hfits]
  simp [hk, Routine.operandCount, he]

theorem describes_after {site : ExprId} {callee : TargetId} {es : List Expr}
    (h : r.body.Pends k (.call site callee es)) {target : TargetId} {arguments : ℕ}
    (hfits : arguments + r.localCount + k < 2 ^ 32) :
    FrameShape.Describes (.ofLengths target site .afterCall arguments r.localCount k) r := by
  obtain ⟨hlt, he, hk⟩ := h.found
  refine ⟨hlt, fun _ => ⟨callee, es, he⟩, FrameShape.toNat_locals_ofLengths hfits, ?_⟩
  rw [FrameShape.toNat_stack_ofLengths hfits]
  exact hk.symm

end Expr.Pends

theorem Routine.describes_start (r : Routine) {target : TargetId} {arguments : ℕ}
    (hfits : arguments + r.localCount + 0 < 2 ^ 32) :
    FrameShape.Describes (.ofLengths target r.body.id .start arguments r.localCount 0) r :=
  ⟨(Expr.pends_self r.body).found.1, by simp, FrameShape.toNat_locals_ofLengths hfits,
    FrameShape.toNat_stack_ofLengths hfits⟩

/-! ## Building steps -/

namespace Specialize

open TieredEngine.Graph

variable {α β : Type} {B : Brief} {Φ : α → Graph → Prop} {Ψ : β → Graph → Prop} {b : Building}
    {x : Build α}

/-- At this point of the construction, the step keeps what is there, the
frames that it describes and uses are as they should be, and its result is of
this kind. -/
structure AddsFramed (B : Brief) (b : Building) (x : Build α) (Φ : α → Graph → Prop) : Prop where
  framed : ∀ r b', x.run b = .ok (r, b') → b.graph.Keeps b'.graph ∧ Φ r b'.graph ∧
    ∀ y n, b.graph.nodes.size ≤ y → b'.graph.node? y = some n → b'.graph.Framed B n

theorem AddsFramed.of_nodes
    (h : ∀ r b', x.run b = .ok (r, b') → b'.graph.nodes = b.graph.nodes ∧ Φ r b'.graph) :
    AddsFramed B b x Φ := by
  refine ⟨fun r b' hrun => ?_⟩
  obtain ⟨hnodes, hΦ⟩ := h r b' hrun
  refine ⟨.of_nodes hnodes, hΦ, fun y n hy hn => ?_⟩
  rw [node?_congr hnodes] at hn
  exact absurd (lt_size_of_node? hn) (Nat.not_lt.2 hy)

theorem addsFramed_pure {a : α} (h : Φ a b.graph) :
    AddsFramed B b (pure a : Build α) Φ := .of_nodes fun r b' hrun => by
  obtain ⟨rfl, rfl⟩ := run_pure hrun
  exact ⟨rfl, h⟩

theorem addsFramed_throw (e : CompileError) :
    AddsFramed B b (throw e : Build α) Φ := ⟨fun _ _ h => (run_throw h).elim⟩

theorem addsFramed_get :
    AddsFramed B b (get : Build Building) fun _ _ => True := .of_nodes fun r b' h => by
  cases h
  exact ⟨rfl, trivial⟩

theorem addsFramed_returns (f : List Arrival → List Arrival) :
    AddsFramed B b (modify fun b => { b with returns := f b.returns } : Build Unit) fun _ _ =>
      True := .of_nodes fun r b' h => by
  cases h
  exact ⟨rfl, trivial⟩

theorem AddsFramed.imp (h : AddsFramed B b x Φ) {Φ' : α → Graph → Prop}
    (hΦ : ∀ a g, b.graph.Keeps g → Φ a g → Φ' a g) :
    AddsFramed B b x Φ' := by
  refine ⟨fun r b' hrun => ?_⟩
  obtain ⟨hk, hr, hnew⟩ := h.framed r b' hrun
  exact ⟨hk, hΦ r _ hk hr, hnew⟩

theorem AddsFramed.bind {f : α → Build β} (hx : AddsFramed B b x Φ)
    (hf : ∀ a b₁, b.graph.Keeps b₁.graph → Φ a b₁.graph → AddsFramed B b₁ (f a) Ψ) :
    AddsFramed B b (x >>= f) Ψ := by
  refine ⟨fun r b' hrun => ?_⟩
  obtain ⟨a, b₁, h1, h2⟩ := run_bind hrun
  obtain ⟨hk₁, ha, hnew₁⟩ := hx.framed a b₁ h1
  obtain ⟨hk₂, hr, hnew₂⟩ := (hf a b₁ hk₁ ha).framed r b' h2
  refine ⟨hk₁.trans hk₂, hr, fun y n hy hn => ?_⟩
  rcases Nat.lt_or_ge y b₁.graph.nodes.size with hlt | hge
  · by_cases hsteady : n.kind.isMerge = false ∧ n.kind ≠ .phi
    · have hkind : b₁.graph.kind? y = some n.kind := by
        rw [← hk₂.kind y hlt]
        exact kind?_eq_some.2 ⟨n, hn, rfl⟩
      obtain ⟨n₁, hn₁, hkn⟩ := kind?_eq_some.1 hkind
      have hsame := hk₂.node y n₁ hn₁ (hkn ▸ hsteady.1) (hkn ▸ hsteady.2)
      obtain rfl := Option.some.inj (hsame.symm.trans hn)
      exact (hnew₁ y n₁ hy hn₁).kept hk₂
    · refine framed_of_plain ?_ fun shape hk => hsteady (by rw [hk]; simp [NodeKind.isMerge])
      revert hsteady
      cases n.kind <;> simp [NodeKind.isMerge, NodeKind.canDeoptimize]
  · exact hnew₂ y n hge hn

theorem AddsFramed.mapM {ι : Type} {f : ι → Build β}
    (hf : ∀ i b, AddsFramed B b (f i) fun _ _ => True) :
    ∀ (is : List ι) (b : Building), AddsFramed B b (is.mapM f) fun rs _ => rs.length = is.length
  | [], b => by
    rw [List.mapM_nil]
    exact addsFramed_pure rfl
  | i :: is, b => by
    rw [List.mapM_cons]
    refine (hf i b).bind fun _ b _ _ => (AddsFramed.mapM hf is b).bind fun _ _ _ hlen =>
      addsFramed_pure ?_
    rw [List.length_cons, List.length_cons, hlen]

theorem addsFramed_addNode_of {n : Node} (h : (b.push n).graph.Framed B n) :
    AddsFramed B b (addNode n) fun x g => g.node? x = some n := by
  refine ⟨fun r b' hrun => ?_⟩
  obtain ⟨rfl, rfl⟩ := run_addNode hrun
  refine ⟨keeps_push b n, by rw [Building.node?_push, if_pos rfl], fun y n' hy hn => ?_⟩
  rw [Building.node?_push] at hn
  split at hn
  · cases hn
    exact h
  · exact absurd (lt_size_of_node? hn) (Nat.not_lt.2 hy)

/-- A node that has nothing to do with frames may be added anywhere. -/
theorem addsFramed_addNode {n : Node} (hd : n.kind.canDeoptimize = false)
    (hf : ∀ shape, n.kind ≠ .frameState shape) :
    AddsFramed B b (addNode n) fun x g => g.node? x = some n :=
      addsFramed_addNode_of (framed_of_plain hd hf)

theorem addsFramed_constant (v : Value) : AddsFramed B b (constant v) fun _ _ => True := by
  have hnew : AddsFramed B b (addNode { kind := .constant v }) _ := addsFramed_addNode rfl (by simp)
  refine ⟨fun r b' hrun => ?_⟩
  cases hrun
  obtain ⟨hk, -, hadd⟩ := hnew.framed _ _ rfl
  dsimp only [Graph.constant]
  split
  · split
    · exact (addsFramed_pure (Φ := fun _ _ => True) trivial).framed () b rfl
    · exact ⟨⟨hk.size, hk.kind, hk.node⟩, trivial,
        fun y n hy hn => (hadd y n hy hn).kept (.of_nodes rfl)⟩
  · exact ⟨⟨hk.size, hk.kind, hk.node⟩, trivial,
      fun y n hy hn => (hadd y n hy hn).kept (.of_nodes rfl)⟩

theorem addsFramed_constantAt (x : NodeId) : AddsFramed B b (constantAt x) fun _ _ => True :=
  addsFramed_get.bind fun _ _ _ _ => addsFramed_pure trivial

theorem addsFramed_knownType (p : Path) (x : NodeId) :
    AddsFramed B b (knownType p x) fun _ _ => True :=
  addsFramed_get.bind fun _ _ _ _ => addsFramed_pure trivial

/-! ## Frames, guards and operators -/

/-- The arrival, if there is one, has this many local slots. -/
def Wide (slots : ℕ) (o : Option Arrival) (_ : Graph) : Prop :=
  ∀ a ∈ o, a.path.locals.length = slots

theorem wide_none {slots : ℕ} {g : Graph} : Wide slots none g := fun _ h => by cases h

theorem wide_some {slots : ℕ} {g : Graph} {v : NodeId} {p : Path} (h : p.locals.length = slots) :
    Wide slots (some ⟨v, p⟩) g := by
  intro a ha
  cases ha
  exact h

/-- The context may describe its frame at an expression, with so many values
on the stack: a word can count the values where the brief fits words, and
where one can the frame is as it should be. -/
structure Context.FrameChained (B : Brief) (c : Context) (slots : ℕ) (node : ExprId)
    (mode : ResumeMode) (stack : ℕ) (g : Graph) : Prop where
  fits : FitsWords B.targets B.routine → c.arguments.length + slots + stack < 2 ^ 32
  chained : c.arguments.length + slots + stack < 2 ^ 32 →
    g.Chained B (.ofLengths c.target node mode c.arguments.length slots stack) c.outer

theorem Context.FrameChained.kept {c : Context} {slots : ℕ} {node : ExprId} {mode : ResumeMode}
    {stack : ℕ} {g g' : Graph} (h : c.FrameChained B slots node mode stack g) (hk : g.Keeps g') :
    c.FrameChained B slots node mode stack g' :=
  ⟨h.fits, fun hfits => (h.chained hfits).kept hk⟩

section

variable {c : Context} {slots : ℕ} {node : ExprId} {mode : ResumeMode}
    {stack : List NodeId} {p : Path}

theorem addsFramed_frameState (hp : p.locals.length = slots)
    (h : c.FrameChained B slots node mode stack.length b.graph) :
    AddsFramed B b (frameState c node mode stack p) fun s g => ∃ ns, g.node? s = some ns ∧
      ns.kind =
        .frameState (.ofLengths c.target node mode c.arguments.length slots stack.length) := by
  subst hp
  refine (addsFramed_addNode_of ?_).imp fun s g _ hs => ⟨_, hs, rfl⟩
  have hlen : (c.arguments ++ p.locals ++ stack).length = c.arguments.length + p.locals.length +
      stack.length := by simp [Nat.add_assoc]
  refine ⟨fun hwords => hlen ▸ h.fits hwords, fun hcounts => ?_⟩
  exact (h.chained (hlen ▸ hcounts.fits)).kept (keeps_push b _)

theorem addsFramed_guardWith {s x : NodeId} {ns : Node} {shape : FrameShape} {check : GuardCheck}
    {reason : DeoptReason} (hp : p.locals.length = slots) (hs : b.graph.node? s = some ns)
    (hk : ns.kind = .frameState shape) (hm : shape.mode ≠ .afterCall) :
    AddsFramed B b (guardWith s x check reason p) fun p' _ => p'.locals.length = slots := by
  refine (addsFramed_addNode_of ?_).bind fun _ _ _ _ => addsFramed_pure hp
  exact ⟨s, ns, shape, rfl, Building.node?_push_of hs, hk, hm⟩

theorem addsFramed_guardBefore {x : NodeId} {check : GuardCheck} {reason : DeoptReason}
    (hp : p.locals.length = slots)
    (h : c.FrameChained B slots node .beforeNode stack.length b.graph) :
    AddsFramed B b (guardBefore c node x check reason stack p) fun p' _ =>
      p'.locals.length = slots :=
  (addsFramed_frameState hp h).bind fun _ _ _ ⟨_, hs, hk⟩ => addsFramed_guardWith hp hs hk (by simp)

theorem addsFramed_giveUp (hp : p.locals.length = slots)
    (h : c.FrameChained B slots node .beforeNode stack.length b.graph) :
    AddsFramed B b (giveUp c node stack p) fun _ _ => True := by
  refine (addsFramed_frameState hp h).bind fun s b _ ⟨ns, hs, hk⟩ =>
    (addsFramed_addNode_of ?_).bind fun _ _ _ _ => addsFramed_pure trivial
  exact ⟨s, ns, _, rfl, Building.node?_push_of hs, hk, by simp⟩

theorem addsFramed_ensureType (hp : p.locals.length = slots)
    (h : c.FrameChained B slots node .beforeNode stack.length b.graph) (value : NodeId)
    (expected : ValueType) :
    AddsFramed B b (ensureType c node value expected stack p) fun o _ => ∀ p' ∈ o,
      p'.locals.length = slots := by
  unfold ensureType
  refine (addsFramed_knownType p value).bind fun known b hk _ => ?_
  split
  · split
    · exact addsFramed_pure fun p' hp' => by cases hp'; exact hp
    · exact (addsFramed_giveUp hp (h.kept hk)).bind fun _ _ _ _ => addsFramed_pure fun _ hp' => by
        cases hp'
  · exact (addsFramed_guardBefore hp (h.kept hk)).bind fun _ _ _ hp₁ =>
      addsFramed_pure fun p' hp' => by cases hp'; exact hp₁

theorem addsFramed_fold (hp : p.locals.length = slots)
    (h : c.FrameChained B slots node .beforeNode stack.length b.graph)
    (folded : Except GuestError Value) :
    AddsFramed B b (fold c node folded stack p) (Wide slots) := by
  unfold fold
  split
  · exact (addsFramed_constant _).bind fun _ _ _ _ => addsFramed_pure (wide_some hp)
  · exact (addsFramed_giveUp hp h).bind fun _ _ _ _ => addsFramed_pure wide_none

/-- An operator is a node of its own. -/
theorem addsFramed_operator {n : Node} (hd : n.kind.canDeoptimize = false)
    (hf : ∀ shape, n.kind ≠ .frameState shape) (hp : p.locals.length = slots) :
    AddsFramed B b (do return some ⟨← addNode n, p⟩ : Build (Option Arrival)) (Wide slots) :=
  (addsFramed_addNode hd hf).bind fun _ _ _ _ => addsFramed_pure (wide_some hp)

theorem addsFramed_emitBinary (hp : p.locals.length = slots)
    (h : c.FrameChained B slots node .beforeNode (stack.length + 2) b.graph) (op : BinaryOp)
    (lhs rhs : NodeId) :
    AddsFramed B b (emitBinary c node op lhs rhs stack p) (Wide slots) := by
  have hfull : ∀ {g}, c.FrameChained B slots node .beforeNode (stack.length + 2) g →
      c.FrameChained B slots node .beforeNode (stack ++ [lhs, rhs]).length g := fun h => by
    simpa using h
  unfold emitBinary
  refine (addsFramed_constantAt lhs).bind fun x b hk _ =>
    (addsFramed_constantAt rhs).bind fun y b hk' _ => ?_
  have h := h.kept (hk.trans hk')
  split
  · exact addsFramed_fold hp (hfull h) _
  · split
    · exact addsFramed_operator rfl (by simp) hp
    · refine (addsFramed_ensureType hp (hfull h) lhs _).bind fun o b hk ho => ?_
      have h := h.kept hk
      split
      · rename_i p₁
        refine (addsFramed_ensureType (ho p₁ rfl) (hfull h) rhs _).bind fun o b _ ho => ?_
        split
        · exact addsFramed_operator rfl (by simp) (ho _ rfl)
        · exact addsFramed_pure wide_none
      · exact addsFramed_pure wide_none

theorem addsFramed_emitUnary (hp : p.locals.length = slots)
    (h : c.FrameChained B slots node .beforeNode (stack.length + 1) b.graph) (op : UnaryOp)
    (operand : NodeId) :
    AddsFramed B b (emitUnary c node op operand stack p) (Wide slots) := by
  have hfull : ∀ {g}, c.FrameChained B slots node .beforeNode (stack.length + 1) g →
      c.FrameChained B slots node .beforeNode (stack ++ [operand]).length g := fun h => by
    simpa using h
  unfold emitUnary
  refine (addsFramed_constantAt operand).bind fun x b hk _ => ?_
  have h := h.kept hk
  split
  · exact addsFramed_fold hp (hfull h) _
  · refine (addsFramed_ensureType hp (hfull h) operand _).bind fun o b _ ho => ?_
    split
    · exact addsFramed_operator rfl (by simp) (ho _ rfl)
    · exact addsFramed_pure wide_none

theorem addsFramed_emitInvoke (hp : p.locals.length = slots)
    (h : c.FrameChained B slots node .afterCall stack.length b.graph) (target : TargetId)
    (arguments : List NodeId) :
    AddsFramed B b (emitInvoke c node target arguments stack p) (Wide slots) := by
  refine (addsFramed_frameState hp h).bind fun s b _ ⟨ns, hs, hk⟩ =>
    (addsFramed_addNode_of ?_).bind fun _ _ _ _ => addsFramed_pure (wide_some hp)
  exact ⟨s, ns, _, rfl, Building.node?_push_of hs, hk, rfl⟩

theorem addsFramed_recordReturn (value : NodeId) (p : Path) :
    AddsFramed B b (recordReturn value p) (Wide slots) :=
  (addsFramed_returns fun returns => returns ++ [⟨value, { p with locals := [] }⟩]).bind
    fun _ _ _ _ => addsFramed_pure wide_none

/-! ## Joins -/

theorem addsFramed_joinValues (merge : NodeId) (inputs : List NodeId) :
    AddsFramed B b (joinValues merge inputs) fun _ _ => True := by
  have hadd : ∀ {inputs}, AddsFramed B b (addNode { kind := .phi, inputs, control := [merge] })
      fun _ _ => True := (addsFramed_addNode rfl (by simp)).imp fun _ _ _ _ => trivial
  unfold joinValues
  split
  · exact hadd
  · split
    · exact addsFramed_pure trivial
    · exact hadd

theorem addsFramed_join (arrivals : List Arrival) : AddsFramed B b (join arrivals) fun o g =>
    ∀ slots, (∀ a ∈ arrivals, a.path.locals.length = slots) → Wide slots o g := by
  unfold join
  split
  · exact addsFramed_pure fun _ _ => wide_none
  · exact addsFramed_pure fun _ h => wide_some (h _ List.mem_cons_self)
  · rename_i first rest _
    refine (addsFramed_addNode rfl (by simp)).bind fun _ b _ _ =>
      (addsFramed_joinValues ..).bind fun _ b _ _ => ?_
    refine (AddsFramed.mapM (fun _ _ => addsFramed_joinValues ..) _ b).bind fun locals _ _ hlen =>
      addsFramed_pure fun slots h => wide_some ?_
    rw [hlen, List.length_range]
    exact h first List.mem_cons_self

theorem addsFramed_finishRoutine (completed : Option Arrival) :
    AddsFramed B b (finishRoutine completed) fun _ _ => True :=
  addsFramed_get.bind fun _ _ _ _ => (addsFramed_returns fun _ => []).bind fun _ _ _ _ =>
    (addsFramed_join _).imp fun _ _ _ _ => trivial

theorem addsFramed_split (condition : NodeId) (hp : p.locals.length = slots) :
    AddsFramed B b (split condition p)
      fun sides _ => sides.1.locals.length = slots ∧ sides.2.locals.length = slots :=
  (addsFramed_addNode rfl (by simp)).bind fun _ _ _ _ =>
    (addsFramed_addNode rfl (by simp)).bind fun _ _ _ _ =>
    (addsFramed_addNode rfl (by simp)).bind fun _ _ _ _ => addsFramed_pure ⟨hp, hp⟩

/-! ## Conditionals and loops -/

theorem addsFramed_branching (hp : p.locals.length = slots)
    (h : c.FrameChained B slots node .beforeNode (stack.length + 1) b.graph) (condition : NodeId) :
    AddsFramed B b (branching c node condition (stack ++ [condition]) p)
      fun way _ => ∀ taken p', way = .always taken p' → p'.locals.length = slots := by
  have hfull : ∀ {g}, c.FrameChained B slots node .beforeNode (stack.length + 1) g →
      c.FrameChained B slots node .beforeNode (stack ++ [condition]).length g := fun h => by
    simpa using h
  unfold branching
  refine (addsFramed_knownType p condition).bind fun known b hk _ => ?_
  have h := h.kept hk
  split
  · exact (addsFramed_giveUp hp (hfull h)).bind fun _ _ _ _ => addsFramed_pure (by simp)
  · refine (addsFramed_constantAt condition).bind fun v b hk _ => ?_
    have h := h.kept hk
    split
    · exact addsFramed_pure fun taken p' hway => by cases hway; exact hp
    · split
      · exact (addsFramed_guardBefore hp (hfull h)).bind fun _ _ _ hp₁ =>
          addsFramed_pure fun taken p' hway => by cases hway; exact hp₁
      · exact addsFramed_pure (by simp)

theorem addsFramed_conditional {condition : NodeId} {onTrue onFalse : Path → Build (Option Arrival)}
    (hp : p.locals.length = slots)
    (h : c.FrameChained B slots node .beforeNode (stack.length + 1) b.graph)
    (hT : ∀ p b', b.graph.Keeps b'.graph → p.locals.length = slots →
        AddsFramed B b' (onTrue p) (Wide slots))
    (hF : ∀ p b', b.graph.Keeps b'.graph → p.locals.length = slots →
        AddsFramed B b' (onFalse p) (Wide slots)) :
    AddsFramed B b (conditional c node condition stack p onTrue onFalse) (Wide slots) := by
  unfold conditional
  refine (addsFramed_branching hp h condition).bind fun way b₁ hk₁ hway => ?_
  match way with
  | .ended => exact addsFramed_pure wide_none
  | .always true p => exact hT p b₁ hk₁ (hway _ _ rfl)
  | .always false p => exact hF p b₁ hk₁ (hway _ _ rfl)
  | .either =>
    refine (addsFramed_split condition hp).bind fun sides b₂ hk₂ hsides => ?_
    refine (hT _ b₂ (hk₁.trans hk₂) hsides.1).bind fun first b₃ hk₃ hfirst => ?_
    refine (hF _ b₃ ((hk₁.trans hk₂).trans hk₃) hsides.2).bind fun second b₄ _ hsecond => ?_
    refine (addsFramed_join _).imp fun o g _ ho => ho slots fun a ha => ?_
    rcases List.mem_append.1 ha with ha | ha
    · exact hfirst a (Option.mem_toList.1 ha)
    · exact hsecond a (Option.mem_toList.1 ha)

theorem addsFramed_openLoop (hp : p.locals.length = slots) :
    AddsFramed B b (openLoop p) fun l g => l.1.Opened g ∧ l.2.locals.length = slots := by
  have hwide : AddsFramed B b (openLoop p) fun l _ => l.2.locals.length = slots :=
    (addsFramed_addNode rfl (by simp)).bind fun _ b _ _ =>
      (AddsFramed.mapM (fun _ _ => (addsFramed_addNode rfl (by simp)).imp fun _ _ _ _ => trivial)
        _ b).bind fun _ _ _ hlen =>
        addsFramed_pure (hlen.trans hp)
  refine ⟨fun r b' hrun => ?_⟩
  obtain ⟨hk, hl, hnew⟩ := hwide.framed r b' hrun
  exact ⟨hk, ⟨opened_openLoop hrun, hl⟩, hnew⟩

theorem addsFramed_closeLoop {l : OpenLoop} (hl : l.Opened b.graph) (body : Option Arrival) :
    AddsFramed B b (closeLoop l body) fun _ _ => True := by
  refine ⟨fun r b' hrun => ?_⟩
  obtain ⟨hkept, hsize⟩ := keeps_closeLoop hl hrun
  exact ⟨hkept, trivial, fun y n hy hn => absurd (lt_size_of_node? hn) (Nat.not_lt.2 (hsize ▸ hy))⟩

theorem addsFramed_loopOn {l : OpenLoop} {condition : NodeId} {body : Path → Build (Option Arrival)}
    (hp : p.locals.length = slots)
    (h : c.FrameChained B slots node .beforeNode (stack.length + 1) b.graph) (hl : l.Opened b.graph)
    (hB : ∀ p b', b.graph.Keeps b'.graph → p.locals.length = slots →
        AddsFramed B b' (body p) (Wide slots)) :
    AddsFramed B b (loopOn c node l condition stack p body) (Wide slots) := by
  have hnull : ∀ {p : Path} {b : Building}, p.locals.length = slots → AddsFramed B b
      (do return some ⟨← constant .null, p⟩ : Build (Option Arrival)) (Wide slots) := fun hp =>
    (addsFramed_constant _).bind fun _ _ _ _ => addsFramed_pure (wide_some hp)
  unfold loopOn
  refine (addsFramed_branching hp h condition).bind fun way b₁ hk₁ hway => ?_
  match way with
  | .ended => exact addsFramed_pure wide_none
  | .always false p => exact hnull (hway _ _ rfl)
  | .always true p =>
    refine (hB p b₁ hk₁ (hway _ _ rfl)).bind fun arrival b₂ hk₂ _ => ?_
    exact (addsFramed_closeLoop (hl.kept (hk₁.trans hk₂)) arrival).bind fun _ _ _ _ =>
      addsFramed_pure wide_none
  | .either =>
    refine (addsFramed_split condition hp).bind fun sides b₂ hk₂ hsides => ?_
    refine (hB _ b₂ (hk₁.trans hk₂) hsides.1).bind fun arrival b₃ hk₃ _ => ?_
    exact (addsFramed_closeLoop (hl.kept ((hk₁.trans hk₂).trans hk₃)) arrival).bind fun _ _ _ _ =>
      hnull hsides.2

end

/-! ## Expressions -/

/-- The frames of the context's routine may be described with the context's
caller. -/
structure Context.FramesChained (B : Brief) (c : Context) (r : Routine) (g : Graph) : Prop where
  fits : FitsWords B.targets B.routine → c.arguments.length + r.localCount + r.nodeCount ≤ 2 ^ 32
  chained : ∀ shape, shape.target = c.target → (shape.mode = .start → c.outer = none) →
    shape.Describes r → g.Chained B shape c.outer

/-- The frame waits behind the call at a site of the context's routine. -/
def Context.IsWaitingFrame (c : Context) (site : ExprId) (s : NodeId) (g : Graph) : Prop :=
  ∃ ns shape, g.node? s = some ns ∧ ns.kind = .frameState shape ∧ shape.mode = .afterCall ∧
    shape.target = c.target ∧ shape.node = site

/-- Inlined calls describe their frames behind the frame that waits for them. -/
def Context.EntersFramed (B : Brief) (c : Context) : Prop :=
  ∀ site enter, c.entries.lookup site = some enter → ∀ describe arguments p b,
    (∃ caller ∈ withRegistered B.targets B.routine, arguments.length < caller.nodeCount) →
    AddsFramed B b describe (c.IsWaitingFrame site) →
    AddsFramed B b (enter describe arguments p) (Wide p.locals.length)

section

variable {c : Context} {r : Routine} {e : Expr} {stack : List NodeId} {g g' : Graph}

theorem Context.FramesChained.kept (h : c.FramesChained B r g) (hk : g.Keeps g') :
    c.FramesChained B r g' :=
  ⟨h.fits, fun shape htarget hmode hs => (h.chained shape htarget hmode hs).kept hk⟩

theorem Context.FramesChained.before (h : c.FramesChained B r g)
    (hp : r.body.Pends stack.length e) :
    c.FrameChained B r.localCount e.id .beforeNode (stack.length + e.operands.length) g := by
  refine ⟨fun hwords => ?_, fun hfits => h.chained _ rfl (by simp) (hp.describes_before hfits)⟩
  have hroom : stack.length + e.nodeCount ≤ r.nodeCount := hp.room
  have hoperands := e.length_operands_lt
  have := h.fits hwords
  omega

theorem Context.FramesChained.after {site : ExprId} {callee : TargetId} {es : List Expr}
    (h : c.FramesChained B r g) (hp : r.body.Pends stack.length (.call site callee es)) :
    c.FrameChained B r.localCount site .afterCall stack.length g := by
  refine ⟨fun hwords => ?_, fun hfits => h.chained _ rfl (by simp) (hp.describes_after hfits)⟩
  have hroom : stack.length + (Expr.call site callee es).nodeCount ≤ r.nodeCount := hp.room
  have hpos := (Expr.call site callee es).nodeCount_pos
  have := h.fits hwords
  omega

theorem Context.FramesChained.start (h : c.FramesChained B r g) (hroot : c.outer = none) :
    c.FrameChained B r.localCount r.body.id .start 0 g := by
  refine ⟨fun hwords => ?_, fun hfits => h.chained _ rfl (fun _ => hroot) (r.describes_start hfits)⟩
  have hpos : 0 < r.nodeCount := r.body.nodeCount_pos
  have := h.fits hwords
  omega

/-- A value, and on from there; without a value nothing follows. -/
theorem AddsFramed.nextSome {γ : Type} {x : Build (Option γ)} {f : Option γ → Build (Option β)}
    {P : γ → Prop} {Q : β → Prop} (hx : AddsFramed B b x fun o _ => ∀ a ∈ o, P a)
    (hnone : f none = pure none)
    (hf : ∀ a b', b.graph.Keeps b'.graph → P a →
      AddsFramed B b' (f (some a)) fun o _ => ∀ r ∈ o, Q r) :
    AddsFramed B b (x >>= f) fun o _ => ∀ r ∈ o, Q r := by
  refine hx.bind fun o b' hk ho => ?_
  cases o with
  | none =>
    rw [hnone]
    exact addsFramed_pure fun _ h => by cases h
  | some a => exact hf a b' hk (ho a rfl)

theorem addsFramed_evalBlock {es : List Expr} {slots : ℕ}
    (he : ∀ e ∈ es, ∀ p b, c.FramesChained B r b.graph → p.locals.length = slots →
      AddsFramed B b (eval c e stack p) (Wide slots)) :
    ∀ last p b, c.FramesChained B r b.graph → p.locals.length = slots →
      AddsFramed B b (evalBlock c es last stack p) (Wide slots) := by
  induction es with
  | nil =>
    intro last p b _ hp
    rw [evalBlock]
    exact addsFramed_pure (wide_some hp)
  | cons e es ih =>
    intro last p b hc hp
    rw [evalBlock]
    refine (he e List.mem_cons_self p b hc hp).nextSome rfl fun a b' hk ha => ?_
    exact ih (fun e' he' => he e' (List.mem_cons_of_mem _ he')) _ _ b' (hc.kept hk) ha

/-- Operands are specialized behind those before them. -/
theorem addsFramed_evalAll {es : List Expr} {slots : ℕ}
    (he : ∀ (i : ℕ) o, es[i]? = some o → ∀ stack' p b,
      stack'.length = stack.length + i → c.FramesChained B r b.graph → p.locals.length = slots →
      AddsFramed B b (eval c o stack' p) (Wide slots)) :
    ∀ (fs done : List Expr) (values : List NodeId) p b, es = done ++ fs →
      values.length = done.length → c.FramesChained B r b.graph → p.locals.length = slots →
        AddsFramed B b (evalAll c fs values stack p)
        fun o _ => ∀ a ∈ o, a.1.length = es.length ∧ a.2.locals.length = slots := by
  intro fs
  induction fs with
  | nil =>
    intro done values p b hes hlen _ hp
    rw [evalAll]
    exact addsFramed_pure fun a ha => by cases ha; exact ⟨by simp [hes, hlen], hp⟩
  | cons o fs ih =>
    intro done values p b hes hlen hc hp
    rw [evalAll]
    have ho : es[done.length]? = some o := by simp [hes]
    refine (he done.length o ho _ p b (by simp [hlen]) hc hp).nextSome rfl fun a b' hk ha => ?_
    exact ih (done ++ [o]) _ _ b' (by simp [hes]) (by simp [hlen]) (hc.kept hk) ha

/-- A call whose operands are done is entered or kept, and the frame that
waits for it is described. -/
theorem addsFramed_call (hr : r ∈ withRegistered B.targets B.routine) (hi : c.EntersFramed B)
    {site : ExprId} {target : TargetId} {es : List Expr} {arguments : List NodeId}
    (hpends : r.body.Pends stack.length (.call site target es))
    (hc : c.FramesChained B r b.graph) (hlen : arguments.length = es.length)
    (hp : p.locals.length = r.localCount) :
    AddsFramed B b
      (match c.entries.lookup site with
        | some enter => enter (frameState c site .afterCall stack p) arguments p
        | none => emitInvoke c site target arguments stack p) (Wide r.localCount) := by
  have hframe := hc.after hpends
  cases hl : c.entries.lookup site with
  | none => exact addsFramed_emitInvoke hp hframe ..
  | some enter =>
    have hfew : arguments.length < r.nodeCount := by
      have hroom : stack.length + (Expr.call site target es).nodeCount ≤ r.nodeCount :=
        hpends.room
      have hoperands : es.length < (Expr.call site target es).nodeCount :=
        (Expr.call site target es).length_operands_lt
      omega
    rw [← hp]
    refine hi site enter hl _ _ _ b ⟨r, hr, hfew⟩
      ((addsFramed_frameState hp hframe).imp fun s g _ hstate => ?_)
    obtain ⟨ns, hs, hk⟩ := hstate
    exact ⟨ns, _, hs, hk, rfl, rfl, rfl⟩

/-- Specializing an expression of the routine describes the frames of the
routine. -/
theorem addsFramed_eval (hr : r ∈ withRegistered B.targets B.routine) (hi : c.EntersFramed B) :
    ∀ e, ∀ stack p b, r.body.Pends stack.length e → c.FramesChained B r b.graph →
      p.locals.length = r.localCount → AddsFramed B b (eval c e stack p) (Wide r.localCount) := by
  refine Expr.induction_children fun e ih stack p b hpends hc hp => ?_
  have hnull : ∀ {p : Path} {b : Building}, p.locals.length = r.localCount →
      AddsFramed B b (do return some ⟨← constant .null, p⟩ : Build (Option Arrival))
      (Wide r.localCount) := fun hp =>
    (addsFramed_constant _).bind fun _ _ _ _ => addsFramed_pure (wide_some hp)
  have hoperand : ∀ (i : ℕ) o, e.operands[i]? = some o →
      ∀ stack' p b, stack'.length = stack.length + i →
      c.FramesChained B r b.graph → p.locals.length = r.localCount →
        AddsFramed B b (eval c o stack' p) (Wide r.localCount) :=
    fun i o ho stack' p b hlen =>
      ih o (e.operands_prefix.subset (List.mem_of_getElem? ho)) stack' p b
        (hlen ▸ hpends.operand ho)
  have hbody : ∀ (i : ℕ) o, e.children[i]? = some o → e.operands.length ≤ i →
      ∀ p b, c.FramesChained B r b.graph →
      p.locals.length = r.localCount → AddsFramed B b (eval c o stack p) (Wide r.localCount) :=
    fun i o ho hle p b => ih o (List.mem_of_getElem? ho) stack p b (hpends.part ho hle)
  cases e with
  | constant site v =>
    rw [eval]
    exact (addsFramed_constant v).bind fun _ _ _ _ => addsFramed_pure (wide_some hp)
  | argument site index =>
    rw [eval]
    split
    · exact addsFramed_pure (wide_some hp)
    · exact hnull hp
  | readLocal site slot =>
    rw [eval]
    split
    · exact addsFramed_pure (wide_some hp)
    · exact addsFramed_throw _
  | writeLocal site slot o =>
    rw [eval]
    refine (hoperand 0 o rfl stack p b rfl hc hp).nextSome rfl fun a b' _ ha => ?_
    dsimp only
    split
    · exact addsFramed_pure (wide_some (g := b'.graph) (by rw [List.length_set]; exact ha))
    · exact addsFramed_throw _
  | binary site op x y =>
    rw [eval]
    refine (hoperand 0 x rfl stack p b rfl hc hp).nextSome rfl fun a b₁ hk₁ ha => ?_
    refine (hoperand 1 y rfl _ _ b₁ (by simp) (hc.kept hk₁) ha).nextSome rfl fun a' b₂ hk₂ ha' => ?_
    exact addsFramed_emitBinary ha' ((hc.kept (hk₁.trans hk₂)).before hpends) ..
  | unary site op o =>
    rw [eval]
    refine (hoperand 0 o rfl stack p b rfl hc hp).nextSome rfl fun a b₁ hk₁ ha => ?_
    exact addsFramed_emitUnary ha ((hc.kept hk₁).before hpends) ..
  | block site parts =>
    rw [eval]
    refine (addsFramed_constant .null).bind fun last b hk _ => ?_
    refine addsFramed_evalBlock (fun o ho => ?_) last p b (hc.kept hk) hp
    obtain ⟨i, hlt⟩ := List.getElem?_of_mem ho
    exact hbody i o hlt (Nat.zero_le _)
  | ifThen site condition body =>
    rw [eval]
    refine (hoperand 0 condition rfl stack p b rfl hc hp).nextSome rfl fun a b₁ hk₁ ha => ?_
    exact addsFramed_conditional ha ((hc.kept hk₁).before hpends) (fun p b hk =>
      hbody 1 body rfl (Nat.le_refl _) p b (hc.kept (hk₁.trans hk))) fun p b _ => hnull
  | ifElse site condition body alternative =>
    rw [eval]
    refine (hoperand 0 condition rfl stack p b rfl hc hp).nextSome rfl fun a b₁ hk₁ ha => ?_
    exact addsFramed_conditional ha ((hc.kept hk₁).before hpends)
      (fun p b hk => hbody 1 body rfl (Nat.le_refl _) p b (hc.kept (hk₁.trans hk)))
      fun p b hk => hbody 2 alternative rfl (by simp [Expr.operands]) p b (hc.kept (hk₁.trans hk))
  | whileLoop site condition body =>
    rw [eval]
    refine (addsFramed_openLoop hp).bind fun l b₁ hk₁ hl => ?_
    refine (hoperand 0 condition rfl stack l.2 b₁ rfl (hc.kept hk₁) hl.2).nextSome rfl
      fun a b₂ hk₂ ha => ?_
    exact addsFramed_loopOn ha ((hc.kept (hk₁.trans hk₂)).before hpends) (hl.1.kept hk₂)
      fun p b hk => hbody 1 body rfl (Nat.le_refl _) p b (hc.kept ((hk₁.trans hk₂).trans hk))
  | ret site o =>
    rw [eval]
    exact (hoperand 0 o rfl stack p b rfl hc hp).nextSome rfl fun _ _ _ _ =>
      addsFramed_recordReturn ..
  | call site target es =>
    rw [eval]
    refine (addsFramed_evalAll hoperand es [] [] p b rfl rfl hc hp).nextSome rfl
      fun a b₁ hk₁ ha => ?_
    exact addsFramed_call hr hi hpends (hc.kept hk₁) ha.1 ha.2

end

/-! ## Inlined routines -/

/-- Entering an inlined call is specializing the routine of its target behind
the frame that waits. -/
theorem addsFramed_entryOf {c : Context} {es : List PlanEntry} {e : PlanEntry}
    {describe : Build NodeId} {arguments : List NodeId} {p : Path}
    (hplan : B.plan.Enters c.target es) (he : e ∈ es) (hin : e.isInlined)
    (hentered : ∀ c' : Context, c'.target = e.target → c'.entries = entriesOf B.targets e.children →
        c'.EntersFramed B)
    (hfew : ∃ caller ∈ withRegistered B.targets B.routine, arguments.length < caller.nodeCount)
    (hd : AddsFramed B b describe (c.IsWaitingFrame e.site)) : AddsFramed B b
      (entryOf B.targets e describe arguments p) (Wide p.locals.length) := by
  obtain ⟨site, target, decision, children⟩ := e
  rw [entryOf]
  cases hcallee : B.targets[target]? with
  | none => exact addsFramed_throw _
  | some callee =>
    refine hd.bind fun outer b₁ _ hwaits => (addsFramed_constant .null).bind fun null b₂ hk₂ _ =>
      addsFramed_get.bind fun waiting b₃ hk₃ _ =>
      (addsFramed_returns fun _ => []).bind fun _ b₄ hk₄ _ => ?_
    let c' : Context := ⟨target, callee.routine.name, callee.profile, arguments, some outer,
      entriesOf B.targets children⟩
    have hv : callee ∈ B.targets := Array.mem_of_getElem? hcallee
    have hframes : c'.FramesChained B callee.routine b₁.graph := by
      obtain ⟨ns, shape, hs, hk, hm, ht, hsite⟩ := hwaits
      obtain ⟨caller, hcaller, hlt⟩ := hfew
      refine ⟨fun hwords => ?_, fun inner htarget hmode hdescribes => ?_⟩
      · have hbound := hwords.inlined caller hcaller callee hv
        change arguments.length + _ + _ ≤ _
        omega
      refine .inlined hs hk hm (ht ▸ hplan) he hin hsite.symm htarget.symm (htarget ▸ hcallee)
        (fun h => ?_) hdescribes
      cases hmode h
    refine (addsFramed_eval (c := c') (mem_withRegistered hv) (hentered c' rfl rfl) _ [] _ b₄
      (Expr.pends_self _) (hframes.kept ((hk₂.trans hk₃).trans hk₄)) List.length_replicate).bind
      fun _ b _ _ => ?_
    refine (addsFramed_finishRoutine _).bind fun o b _ _ =>
      (addsFramed_returns fun _ => _).bind fun _ _ _ _ => addsFramed_pure fun a ha => ?_
    obtain ⟨a', -, rfl⟩ := Option.map_eq_some_iff.1 ha
    rfl

/-- Whatever the plan has inlined describes its frames. -/
theorem entersFramed_entriesOf (n : ℕ) :
    ∀ {es : List PlanEntry} {c : Context}, sizeOf es ≤ n → B.plan.Enters c.target es →
      c.entries = entriesOf B.targets es → c.EntersFramed B := by
  induction n with
  | zero =>
    intro es c hn
    cases es <;> simp at hn
  | succ n ih =>
    intro es c hn hplan hc site enter hl describe arguments p b hfew hd
    rw [hc] at hl
    obtain ⟨e, he, rfl, hin, rfl⟩ := inlined_of_lookup hl
    refine addsFramed_entryOf hplan he hin
      (fun c' htarget hentries => ih ?_ (htarget ▸ hplan.inlined he hin) hentries) hfew hd
    have hlt : sizeOf e.children < sizeOf e := by
      cases e
      simp only [PlanEntry.mk.sizeOf_spec]
      omega
    have := List.sizeOf_lt_of_mem he
    omega

/-! ## Whole routines -/

/-- Guards on parameters use one frame. -/
theorem addsFramed_guards {c : Context} {s : NodeId} {ns : Node} {shape : FrameShape} {slots : ℕ}
    (hk : ns.kind = .frameState shape) (hmode : shape.mode ≠ .afterCall)
    (types : List (ℕ × ValueType)) :
    ∀ (p : Path) (b : Building), b.graph.node? s = some ns → p.locals.length = slots →
      AddsFramed B b (types.foldlM (fun p (index, type) => match c.arguments[index]? with
        | some parameter => guardWith s parameter (.type type) .typeGuardFailure p
        | none => pure p) p) fun p' _ => p'.locals.length = slots := by
  induction types with
  | nil => exact fun _ _ _ hp => addsFramed_pure hp
  | cons t types ih =>
    intro p b hs hp
    rw [List.foldlM_cons]
    refine .bind (Φ := fun p' _ => p'.locals.length = slots) ?_ fun p' b₁ hkeep hp' =>
      ih p' b₁ (hkeep.node s ns hs (by rw [hk]; rfl) (by simp [hk])) hp'
    dsimp only
    cases c.arguments[t.1]? with
    | none => exact addsFramed_pure hp
    | some x => exact addsFramed_guardWith hp hs hk hmode

theorem addsFramed_guardEntry {c : Context} {r : Routine} {p : Path}
    (hc : c.FramesChained B r b.graph) (hroot : c.outer = none)
    (hp : p.locals.length = r.localCount) :
    AddsFramed B b (guardEntry c r p) fun p' _ => p'.locals.length = r.localCount := by
  unfold guardEntry
  split
  · exact addsFramed_pure hp
  · have hframe : c.FrameChained B r.localCount r.body.id .start
        ([] : List NodeId).length b.graph := hc.start hroot
    refine (addsFramed_frameState hp hframe).bind fun s b₁ _ ⟨ns, hs, hk⟩ => ?_
    exact addsFramed_guards hk (by simp) _ p b₁ hs hp

theorem addsFramed_buildRoutine {t : CallTarget} (ht : t.routine = B.routine)
    (hroot : B.plan.root = B.id) :
    AddsFramed B b (buildRoutine B.id t (entriesOf B.targets B.plan.entries)) fun _ _ => True := by
  unfold buildRoutine
  refine (AddsFramed.mapM (fun _ _ => (addsFramed_addNode rfl (by simp)).imp fun _ _ _ _ => trivial)
    _ b).bind fun arguments b₁ _ hlen =>
    (addsFramed_constant .null).bind fun null b₂ _ _ => ?_
  let c : Context :=
    ⟨B.id, t.routine.name, t.profile, arguments, none, entriesOf B.targets B.plan.entries⟩
  have hframes : ∀ g, c.FramesChained B t.routine g := by
    refine fun g => ⟨fun hwords => ?_, fun shape htarget _ hs => .root htarget (ht ▸ hs)⟩
    have hroot := hwords.root
    rw [← ht] at hroot
    rwa [hlen, List.length_range]
  have henters : B.plan.Enters B.id B.plan.entries := hroot ▸ .root
  have hentered : c.EntersFramed B := entersFramed_entriesOf _ (Nat.le_refl _) henters rfl
  refine (addsFramed_guardEntry (c := c) (hframes _) rfl List.length_replicate).bind
    fun p b₃ _ hp => ?_
  have hself : t.routine ∈ withRegistered B.targets B.routine := ht ▸ List.mem_cons_self
  refine (addsFramed_eval hself hentered _ [] p b₃ (Expr.pends_self _) (hframes _) hp).bind
    fun o b₄ _ _ => ?_
  refine (addsFramed_finishRoutine o).bind fun a b₅ _ _ => ?_
  cases a with
  | none => exact addsFramed_pure trivial
  | some a => exact (addsFramed_addNode rfl (by simp)).bind fun _ _ _ _ => addsFramed_pure trivial

/-- Every frame state that is built is as it should be, and so is the use of
it. -/
theorem framed_of_run {targets : Registry} {id : TargetId} {t : CallTarget} {plan : Plan}
    {b : Building} (hroot : plan.root = id)
    (h : (buildRoutine id t (entriesOf targets plan.entries)).run
      ⟨Graph.init t.routine.name, []⟩ = .ok ((), b)) :
    ∀ m n, b.graph.node? m = some n → b.graph.Framed ⟨targets, id, t.routine, plan⟩ n := by
  have hbuild := addsFramed_buildRoutine (B := ⟨targets, id, t.routine, plan⟩)
    (b := ⟨Graph.init t.routine.name, []⟩) (t := t) rfl hroot
  obtain ⟨hkeep, -, hnew⟩ := hbuild.framed _ _ h
  intro m n hn
  cases m with
  | zero =>
    have hstart : b.graph.node? 0 = some { kind := .start } := hkeep.node 0 _ rfl rfl (by simp)
    obtain rfl := Option.some.inj (hstart.symm.trans hn)
    trivial
  | succ m => exact hnew _ n (by simp [Graph.init]) hn

/-- Where the words can hold them, what is built counts its values exactly. -/
theorem framesCounted_of_run {targets : Registry} {id : TargetId} {t : CallTarget} {plan : Plan}
    {b : Building} (hroot : plan.root = id) (hwords : FitsWords targets t.routine)
    (h : (buildRoutine id t (entriesOf targets plan.entries)).run
        ⟨Graph.init t.routine.name, []⟩ = .ok ((), b)) (hs : Sound b.graph []) :
    b.graph.FramesCounted := by
  intro m n shape hn hk
  have hframed := framed_of_run hroot h m n hn
  rw [Graph.Framed, hk] at hframed
  exact (hs.narrowed m n hn shape hk).counts (hframed.1 hwords)

theorem root_eq_of_specialize {targets : Registry} {id : TargetId} {t : CallTarget} {plan : Plan}
    {g : Graph} (h : specialize targets id t plan = .ok g) : plan.root = id := by
  by_contra hne
  rw [specialize, if_pos hne] at h
  cases h

/-- Every frame state of a specialized graph is as it should be, and so is the
use of it. -/
theorem framed_of_specialize {targets : Registry} {id : TargetId} {t : CallTarget} {plan : Plan}
    {g : Graph} (h : specialize targets id t plan = .ok g) :
    ∀ m n, g.node? m = some n → g.Framed ⟨targets, id, t.routine, plan⟩ n := by
  obtain ⟨⟨b, hrun, rfl⟩, -⟩ := run_of_specialize h
  exact framed_of_run (root_eq_of_specialize h) hrun

end Specialize

end TieredEngine

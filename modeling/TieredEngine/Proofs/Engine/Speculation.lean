import TieredEngine.Proofs.Code.Readings
import TieredEngine.Proofs.Engine.Learning
/-!
# Speculation that failed

Code gives up when it meets a type or takes a side that had never been seen.
By then the type is in the feedback of the parameter, and the first thing the
resumed interpreter does is to count the side. So no later compilation makes
the same guard again: `speculation_fails_once`.
-/

namespace TieredEngine

open Relation (ReflTransGen)

/-! ## Guards -/

namespace Graph

variable {g : Graph} {m x : NodeId} {check : GuardCheck} {reason : DeoptReason} {shape : FrameShape}

/-- At `m` there is a guard of `x`, and `shape` is the frame in which the
interpreter goes on if it fails. -/
def GuardAt (g : Graph) (m : NodeId) (check : GuardCheck) (reason : DeoptReason) (x : NodeId)
    (shape : FrameShape) : Prop :=
  ∃ n s ns, g.node? m = some n ∧ n.kind = .guard check reason ∧ n.inputs[0]? = some x ∧
    n.state = some s ∧ g.node? s = some ns ∧ ns.kind = .frameState shape

/-- A guard of the type of a parameter, at which the interpreter starts over. -/
def EntryGuard (g : Graph) (m : NodeId) (i : ℕ) : Prop :=
  ∃ type reason x shape, g.GuardAt m (.type type) reason x shape ∧ g.kind? x = some (.parameter i) ∧
    shape.mode = .start

/-- A guard in place of the conditional `node` of a target. -/
def ConditionGuard (g : Graph) (m : NodeId) (target : TargetId) (node : ExprId) : Prop :=
  ∃ expected reason x shape, g.GuardAt m (.condition expected) reason x shape ∧
    shape.target = target ∧ shape.node = node

theorem AllGrounded.backs {G : Grounds} (h : g.AllGrounded G)
    (hg : g.GuardAt m check reason x shape) :
    ∃ count, G.Backs check reason (g.kind? x) shape count := by
  obtain ⟨n, s, ns, hn, hk, hx, hs, hns, hshape⟩ := hg
  have hgrounded := h m n hn
  simp only [Grounded, hk] at hgrounded
  obtain ⟨x', s', ns', shape', h1, h2, h3, h4, h5, -⟩ := hgrounded
  rw [h1] at hx
  cases hx
  cases hs.symm.trans h2
  cases hns.symm.trans h3
  cases hshape.symm.trans h4
  exact ⟨_, h5⟩

theorem AllGrounded.typed {G : Grounds} {i : ℕ} {type : ValueType} (h : g.AllGrounded G)
    (hg : g.GuardAt m (.type type) reason x shape) (hx : g.kind? x = some (.parameter i))
    (hs : shape.mode = .start) :
    G.typed i type := by
  obtain ⟨count, hb⟩ := h.backs hg
  rw [hx] at hb
  cases hb with
  | entry _ _ ht => exact ht
  | operand hmode => rw [hs] at hmode; cases hmode

theorem AllGrounded.seen {G : Grounds} {expected : Bool} (h : g.AllGrounded G)
    (hg : g.GuardAt m (.condition expected) reason x shape) :
    G.seen shape.target shape.node expected := by
  obtain ⟨count, hb⟩ := h.backs hg
  cases hb with
  | branch _ _ _ _ _ _ hseen => exact hseen

end Graph

/-! ## Resuming at a conditional -/

theorem Expr.length_operands {e : Expr} (he : e.isConditional) : e.operands.length = 1 := by
  cases e with
  | ifThen | ifElse | whileLoop => rfl
  | _ => cases he

/-- The ids of a routine are those below its size. -/
theorem Expr.Pends.id_lt {r : Routine} {e : Expr} {vs : List Value} (h : r.body.Pends vs.length e) :
    e.id < r.nodeCount := by
  obtain ⟨ss, hw, -⟩ := h vs rfl
  obtain ⟨j, -, hn, hle⟩ := hw.numbered r.numbered
  have hpos := e.nodeCount_pos
  have hid := hn.id_eq
  rw [Routine.nodeCount]
  grind

namespace Interpreter

variable {σ : Type}

/-- Resuming the frame starts with the test of the conditional it is suspended
at: from there, one step leads to a moment in the world `w'`, and what is left
then is what resuming does. -/
def StartsWithTest (host : Host σ) (r : Routine) (f : SuspendedFrame) (b : Bool) (w w' : σ) :
    Prop :=
  ∃ ss e a m, Within r.body ss e ∧ e.id = f.node ∧ e.isConditional ∧ a.world = w ∧ Step host
    (.ready ss e [.bool b] a) m ∧ m.activation.world = w' ∧ ∀ k, resume host k r f w = m.rest host k

/-- A conditional with its operand takes one step, in which it records its
outcome. -/
theorem step_conditional (host : Host σ) (ss : List Slot) {e : Expr} (he : e.isConditional)
    (b : Bool) (a : Activation σ) :
    ∃ m, Step host (.ready ss e [.bool b] a) m ∧
      m.activation.world = host.recordBranch e.id b a.world ∧
      ∀ k, Moment.rest host k (.ready ss e [.bool b] a) = m.rest host k := by
  have henter : ∀ (s : Slot) (o : Expr) (a' : Activation σ), s.index ≠ 0 →
      ∀ ss' id condition body a'', Moment.enter (ss ++ [s]) o a' ≠
        .enter (ss' ++ [⟨.whileLoop id condition body, 0, []⟩]) condition a'' := by
    intro s o a' hs ss' id condition body a'' heq
    have hslots := (List.append_inj' (Moment.enter.inj heq).1 rfl).2
    exact hs (congrArg Slot.index (List.singleton_inj.1 hslots))
  cases e with
  | ifThen id condition body =>
    cases b with
    | true => exact ⟨_, .thenTaken rfl, rfl, rest_of_step (.thenTaken rfl) (henter _ _ _ (by simp))⟩
    | false => exact ⟨_, .thenSkipped rfl, rfl, rest_of_step (.thenSkipped rfl) (by simp)⟩
  | ifElse id condition body alternative =>
    cases b with
    | true => exact ⟨_, .bodyTaken rfl, rfl, rest_of_step (.bodyTaken rfl) (henter _ _ _ (by simp))⟩
    | false =>
      exact ⟨_, .alternativeTaken rfl, rfl,
        rest_of_step (.alternativeTaken rfl) (henter _ _ _ (by simp))⟩
  | whileLoop id condition body =>
    cases b with
    | true => exact ⟨_, .loopTaken rfl, rfl, rest_of_step (.loopTaken rfl) (henter _ _ _ (by simp))⟩
    | false => exact ⟨_, .loopLeft rfl, rfl, rest_of_step (.loopLeft rfl) (by simp)⟩
  | _ => cases he

theorem startsWithTest {host : Host σ} {r : Routine} {f : SuspendedFrame} {e : Expr} {k : ℕ}
    {vs : List Value} {b : Bool} (hp : r.body.Pends k e) (he : e.isConditional)
    (hmode : f.mode = .beforeNode) (hnode : e.id = f.node) (hvs : vs.length = k)
    (hstack : f.stack = vs ++ [.bool b]) (w : σ) :
    StartsWithTest host r f b w (host.recordBranch f.node b w) := by
  obtain ⟨ss, hw, hpend⟩ := hp vs hvs
  let a : Activation σ := ⟨(Frame.fresh f.arguments r.localCount).restoreLocals f.locals, w⟩
  obtain ⟨m, hstep, hworld, hrest⟩ := step_conditional host ss he b a
  refine ⟨ss, e, a, m, hw, hnode, he, rfl, hstep, hnode ▸ hworld, fun k => ?_⟩
  rw [← hrest]
  unfold resume
  rw [hmode]
  dsimp only
  rw [← hnode, hw.path?_eq]
  dsimp only
  rw [hstack, ← hpend, resumeAlong_eq_fill host k _ hw r.numbered,
    enterBefore_operands host k e (by rw [Expr.length_operands he]; rfl)]
  rfl

end Interpreter

/-! ## Where code gives up -/

/-- The innermost frame of a chain is made of the inputs of its first frame
state. -/
theorem FramesAt.innermost {g : Graph} {arguments : List Value} {ρ : Bindings} {s : NodeId}
    {f : SuspendedFrame} {callers : List SuspendedFrame}
    (h : FramesAt g arguments ρ s (f :: callers)) :
    ∃ n shape vs, g.node? s = some n ∧ n.kind = .frameState shape ∧ shape.Counts n.inputs.length ∧
      List.Forall₂ (Denotes g arguments ρ) n.inputs vs ∧ f = shape.fill vs := by
  cases h with
  | last hn hk hl _ hv => exact ⟨_, _, _, hn, hk, hl, hv, rfl⟩
  | more hn hk hl _ hv _ => exact ⟨_, _, _, hn, hk, hl, hv, rfl⟩

theorem getLast?_of_forall₂ {α β : Type} {R : α → β → Prop} {xs : List α} {ys : List β}
    (h : List.Forall₂ R xs ys) {x : α} (hx : xs.getLast? = some x) :
    ∃ y, ys.getLast? = some y ∧ R x y := by
  induction h with
  | nil => cases hx
  | cons h hrest ih =>
    cases hrest with
    | nil =>
      cases hx
      exact ⟨_, rfl, h⟩
    | cons _ _ =>
      rw [List.getLast?_cons_cons] at hx
      rw [List.getLast?_cons_cons]
      exact ih hx

/-- The stack of a filled frame ends with the last value. -/
theorem FrameShape.Counts.stack_fill {shape : FrameShape} {vs : List Value} {v : Value} {k : ℕ}
    (h : shape.Counts vs.length) (hs : shape.stack.toNat = k + 1) (hv : vs.getLast? = some v) :
    ∃ ws, (shape.fill vs).stack = ws ++ [v] ∧ ws.length = k := by
  have htotal := h.total
  have hlen : (shape.fill vs).stack.length = k + 1 := h.length_stack.trans hs
  have hlast : (shape.fill vs).stack.getLast? = some v := by
    rw [fill, List.getLast?_drop, if_neg, hv]
    rw [h.stackStart_eq]
    omega
  refine ⟨(shape.fill vs).stack.dropLast, (List.dropLast_append_getLast? v hlast).symm, ?_⟩
  rw [List.length_dropLast, hlen, Nat.add_sub_cancel]

namespace Code

variable {σ : Type} {host : Host σ} {c : Code} {arguments : List Value} {w w' : σ} {m : NodeId}
    {reason : DeoptReason} {snapshot : Snapshot} {G : Grounds}

/-- Code that gives up at the entry guard of a parameter was called with
another type than it is made for. -/
theorem GivesUpAt.entry (h : c.GivesUpAt host arguments w m reason snapshot w')
    (hg : c.graph.AllGrounded G) {i : ℕ} (hi : c.graph.EntryGuard m i) :
    ∃ type, G.typed i type ∧ type ≠ ((arguments[i]?).getD .null).type := by
  obtain ⟨type, reason', x, shape, hguard, hx, hmode⟩ := hi
  refine ⟨type, hg.typed hguard hx hmode, ?_⟩
  obtain ⟨n, -, -, hn, hk, hin, -⟩ := hguard
  rcases h.effects with ⟨-, target, site, hinvoke⟩ | ⟨ρ, previous, heffects⟩
  · rw [Graph.kind?_eq_some.2 ⟨n, hn, hk⟩] at hinvoke
    cases hinvoke
  cases heffects with
  | deoptimize hn' hk' =>
    cases hn.symm.trans hn'
    cases hk.symm.trans hk'
  | violated hn' hk' hin' hd hv =>
    cases hn.symm.trans hn'
    cases hk.symm.trans hk'
    cases hin.symm.trans hin'
    obtain ⟨nx, hnx, hkx⟩ := Graph.kind?_eq_some.1 hx
    rw [← (Denotes.parameter hnx hkx).unique hd] at hv
    rintro rfl
    simp [GuardCheck.holds, ValueType.admits] at hv

/-- Code that gives up on a speculation does so at a guard, and hands over the
frame of that guard. -/
theorem GivesUpAt.failedGuard (h : c.GivesUpAt host arguments w m reason snapshot w')
    (hg : c.graph.AllGrounded G) (hvalid : reason ≠ .invalidated)
    (hspec : reason ≠ .transferToInterpreter) :
    ∃ ρ check x v shape inputs vs, c.graph.GuardAt m check reason x shape ∧
      Denotes c.graph arguments ρ x v ∧
      check.holds v = false ∧ G.Backs check reason (c.graph.kind? x) shape inputs.length ∧
      (∀ expected, check = .condition expected → inputs.getLast? = some x) ∧
        shape.Counts inputs.length ∧
      List.Forall₂ (Denotes c.graph arguments ρ) inputs vs ∧
        snapshot.innermost = shape.fill vs := by
  rcases h.effects with ⟨hr, -⟩ | ⟨ρ, previous, heffects⟩
  · exact absurd hr hvalid
  cases heffects with
  | deoptimize hn hk =>
    have hgrounded := hg m _ hn
    simp only [Graph.Grounded, hk] at hgrounded
    exact absurd hgrounded hspec
  | violated hn hk hin hd hv hs hf =>
    have hgrounded := hg m _ hn
    simp only [Graph.Grounded, hk] at hgrounded
    obtain ⟨x, s, ns, shape, h1, h2, h3, h4, h5, h6⟩ := hgrounded
    have hguard : c.graph.GuardAt m _ _ x shape := ⟨_, s, ns, hn, hk, by rw [h1]; rfl, h2, h3, h4⟩
    cases hs.symm.trans h2
    rw [h1] at hin
    cases hin
    obtain ⟨ns', shape', vs, hns', hshape', hcounts, hvs, hframe⟩ := hf.innermost
    cases h3.symm.trans hns'
    cases h4.symm.trans hshape'
    exact ⟨ρ, _, _, _, shape, _, vs, hguard, hd, hv, h5, h6, hcounts, hvs, hframe⟩

/-- Code that gives up on a type and has the interpreter start over does so at
an entry guard. -/
theorem GivesUpAt.entryGuard (h : c.GivesUpAt host arguments w m .typeGuardFailure snapshot w')
    (hg : c.graph.AllGrounded G) (hmode : snapshot.innermost.mode = .start) :
    ∃ i, c.graph.EntryGuard m i := by
  obtain ⟨ρ, check, x, v, shape, inputs, vs, hguard, -, -, hbacks, -, -, -, hframe⟩ :=
    h.failedGuard hg (by simp) (by simp)
  have hstart : shape.mode = .start := by rw [← hmode, hframe, FrameShape.fill]
  generalize hx : c.graph.kind? x = input at hbacks
  cases hbacks with
  | @entry i type => exact ⟨i, type, _, x, shape, hguard, hx, hstart⟩
  | operand hbefore =>
    rw [hstart] at hbefore
    cases hbefore

/-- Code that gives up at a side that had never been taken does so before the
test of a conditional. -/
theorem GivesUpAt.unreached (h : c.GivesUpAt host arguments w m .unreachedBranch snapshot w')
    (hg : c.graph.AllGrounded G) :
    ∃ r e vs v expected, G.routine snapshot.innermost.target r ∧ r.body.Pends vs.length e ∧
      e.isConditional ∧ e.id = snapshot.innermost.node ∧ snapshot.innermost.mode = .beforeNode ∧
        snapshot.innermost.stack = vs ++ [v] ∧
      v ≠ .bool expected ∧ G.seen snapshot.innermost.target snapshot.innermost.node expected := by
  obtain ⟨ρ, check, x, v, shape, inputs, vs, -, hd, hv, hbacks, htop, hcounts, hvs, hframe⟩ :=
    h.failedGuard hg (by simp) (by simp)
  cases hbacks with
  | @branch expected _ _ _ r e k hmode hr he hcond hp hstack hseen =>
    obtain ⟨v', hlast, hd'⟩ := getLast?_of_forall₂ hvs (htop expected rfl)
    cases hd.unique hd'
    obtain ⟨ws, hws, hlws⟩ := (hvs.length_eq ▸ hcounts).stack_fill (hstack hcounts) hlast
    rw [hframe]
    refine ⟨r, e, ws, v, expected, hr, hlws ▸ hp, hcond, he, hmode, hws, ?_, hseen⟩
    simpa [GuardCheck.holds] using hv

end Code

/-! ## Sessions -/

namespace Engine

open Specialize

variable {e : Engine} {s : State} {id : TargetId} {t : CallTarget}

/-- From `s` on, the feedback of the parameter stays at the top, and no
specialization of the target guards its entry. -/
def NeverGuardsEntry (e : Engine) (s : State) (id : TargetId) (i : ℕ) : Prop :=
  ∀ s', ReflTransGen (Change e) s s' → ∃ t, s'.targets[id]? = some t ∧
    t.profile.argument i = .polymorphic ∧
    ∀ plan g m, specialize s'.targets id t plan = .ok g → ¬ g.EntryGuard m i

/-- From `s` on, as long as no counter runs over, the conditional has gone
both ways, and no specialization of any target has a guard in its place. -/
def NeverGuardsBranch (e : Engine) (s : State) (target : TargetId) (node : ExprId) : Prop :=
  ∀ s', ReflTransGen (Tallies e) s s' →
    (∃ v, s'.targets[target]? = some v ∧ (v.profile.branch node).taken ≠ 0 ∧
        (v.profile.branch node).notTaken ≠ 0) ∧
    ∀ (id : TargetId) (t : CallTarget) plan g m, s'.targets[id]? = some t →
      specialize s'.targets id t plan = .ok g →
      ¬ g.ConditionGuard m target node

theorem neverGuardsEntry (ht : s.targets[id]? = some t) {i : ℕ}
    (hi : t.profile.argument i = .polymorphic) :
    NeverGuardsEntry e s id i := by
  intro s' hs'
  obtain ⟨t', ht', -, hlearns⟩ := learns_of_changes hs' ht
  refine ⟨t', ht', hlearns.polymorphic hi, fun plan g m hg => ?_⟩
  rintro ⟨type, reason, x, shape, hguard, hx, hmode⟩
  have htyped : t'.profile.argument i = .monomorphic type :=
    (specialize_grounded hg).typed hguard hx hmode
  rw [hlearns.polymorphic hi] at htyped
  cases htyped

theorem neverGuardsBranch {target : TargetId} {node : ExprId} {v : CallTarget}
    (hv : s.targets[target]? = some v) (hside : ∀ b, (v.profile.branch node).side b ≠ 0) :
    NeverGuardsBranch e s target node := by
  intro s' hs'
  obtain ⟨v', hv', -⟩ := learns_of_changes (changes_of_history hs') hv
  have hside' : ∀ b, (v'.profile.branch node).side b ≠ 0 := by
    intro b hz
    have hle := countsUp_of_history hs' target v v' node b hv hv'
    rw [hz] at hle
    exact hside b (UInt64.le_zero_iff.1 hle)
  refine ⟨⟨v', hv', hside' true, hside' false⟩, fun id t plan g m ht hg => ?_⟩
  rintro ⟨expected, reason, x, shape, hguard, rfl, rfl⟩
  obtain ⟨u, hu, hone⟩ := (specialize_grounded hg).seen hguard
  have hu' : s'.targets[shape.target]? = some u := by
    rcases hu with ⟨heq, rfl⟩ | hu
    · rw [heq]
      exact ht
    · exact hu
  cases hv'.symm.trans hu'
  exact hside' _ (BranchCounts.oneSided?_eq_some hone).2

/-- Recording a side of a conditional that has gone the other way. -/
theorem neverGuardsBranch_recordBranch {target : TargetId} {node : ExprId} {v : CallTarget}
    {b : Bool} (hv : s.targets[target]? = some v) (hnode : node < v.profile.branches.size)
    (hother : (v.profile.branch node).side (!b) ≠ 0)
    (hup : CountsUp s (s.modifyProfile target fun p => p.recordBranch node b)) :
    NeverGuardsBranch e (s.modifyProfile target fun p => p.recordBranch node b) target node := by
  have hv' : (s.modifyProfile target fun p => p.recordBranch node b).targets[target]? =
      some { v with profile := v.profile.recordBranch node b } := by
    rw [State.modifyProfile, State.getElem?_modifyTarget, if_pos rfl, hv]
    rfl
  refine neverGuardsBranch hv' fun b' => ?_
  have hle := hup target v _ node b' hv hv'
  dsimp only at hle ⊢
  rw [Profile.branch_recordBranch, if_pos ⟨rfl, hnode⟩, BranchCounts.side_record] at hle ⊢
  split
  · rename_i heq
    rw [if_pos heq] at hle
    intro hz
    rw [hz] at hle
    rw [UInt64.le_zero_iff.1 hle] at hz
    cases hz
  · rename_i hne
    have : b' = !b := by
      cases b <;> cases b' <;> simp_all
    rw [this]
    exact hother

/-- The state in which frames are handed over: the target has taken note that
its code gave up, and the engine remembers it. -/
def handedOver (e : Engine) (s : State) (id : TargetId) (position : ℕ) (reason : DeoptReason)
    (snapshot : Snapshot) : State :=
  (s.modifyTarget id fun t => t.recordDeopt position reason e.options.maxDeopts).remember
    ⟨id, reason, snapshot.innermost.node, snapshot.depth⟩

/-- What an invocation does whose code gives up. -/
theorem invokeWith_of_givesUp {bound : ℕ} {call : Dispatch} {position : ℕ} {code : Code}
    {arguments : List Value} {reason : DeoptReason} {snapshot : Snapshot} {s₁ : State}
    (ht : s.targets[id]? = some t) (hcode : t.currentCode = some (position, code))
    (hrun : code.run (codeHost call id position) bound arguments
      (s.modifyProfile id fun p => p.recordArguments arguments) =
      .done (.deoptimized reason snapshot) s₁) :
    e.invokeWith bound call id arguments s =
      resumeFrames call bound snapshot.innermost snapshot.callers
        (handedOver e s₁ id position reason snapshot) := by
  rw [invokeWith_compiled bound arguments ht hcode, runCode, Comp.bind_done hrun]
  rfl

theorem profile_recordDeopt (t : CallTarget) (position : ℕ) (reason : DeoptReason)
    (maxDeopts : UInt32) :
    (t.recordDeopt position reason maxDeopts).profile = t.profile := by
  by_cases hr : reason = .invalidated
  · rw [CallTarget.recordDeopt, if_pos hr]
  · rw [CallTarget.recordDeopt_eq hr]
    rfl

theorem tallies_recordArguments (s : State) (id : TargetId) (arguments : List Value) :
    Tallies e s (s.modifyProfile id fun p => p.recordArguments arguments) := by
  refine ⟨.arguments id arguments, countsUp_modifyTarget fun t node b _ => ?_⟩
  dsimp only
  rw [Profile.branch_recordArguments]
  exact UInt64.le_refl _

/-- Handing frames over changes no profile. -/
theorem history_handedOver {position : ℕ} {reason : DeoptReason} (snapshot : Snapshot)
    (hv : ∀ t, s.targets[id]? = some t → reason ≠ .invalidated → t.codeValid position) :
    ReflTransGen (Tallies e) s (handedOver e s id position reason snapshot) := by
  refine .tail (.single ⟨.deoptimized id position reason hv, ?_⟩)
    ⟨.remembered _, fun id t t' node b ht ht' => ?_⟩
  · refine countsUp_modifyTarget fun t node b _ => ?_
    rw [profile_recordDeopt]
    exact UInt64.le_refl _
  · cases ht.symm.trans ht'
    exact UInt64.le_refl _

/-- A recording counts, unless the counter is at its end. -/
theorem tallies_recordBranch {target : TargetId} {node : ExprId} {b : Bool}
    (h : ∀ v, s.targets[target]? = some v → (v.profile.branch node).side b ≠ -1) :
    Tallies e s (s.modifyProfile target fun p => p.recordBranch node b) := by
  have hsucc : ∀ n : UInt64, n ≠ -1 → n ≤ n + 1 := by
    intro n hn
    have hlt := n.toNat_lt
    have hne : n.toNat ≠ (-1 : UInt64).toNat := fun heq => hn (UInt64.toNat_inj.1 heq)
    have hone : (-1 : UInt64).toNat = 2 ^ 64 - 1 := rfl
    rw [UInt64.le_iff_toNat_le, UInt64.toNat_add, UInt64.toNat_one]
    omega
  refine ⟨.branch target node b, countsUp_modifyTarget fun t other b' ht => ?_⟩
  dsimp only
  rw [Profile.branch_recordBranch]
  split
  · rename_i hnode
    rw [BranchCounts.side_record]
    split
    · rename_i hb
      exact hsucc _ (hb ▸ hnode.1 ▸ h t ht)
    · exact UInt64.le_refl _
  · exact UInt64.le_refl _

/-- A failed speculation is not made again. Take an invocation in a session,
in which code gives up at some node. If that is the entry guard of a
parameter, its feedback is at the top from then on, and the target's entry is
never guarded for it again. If a side of a conditional had never been taken,
and the condition is a truth value, then the resumed interpreter first makes
the test; from then on the conditional has gone both ways, and no code of any
target has a guard in its place again. Branch counters are words: the second
part is about sessions in which none runs over. -/
theorem speculation_fails_once {e : Engine} (hb : e.compiler.backend.Faithful) {s : State}
    (hs : ReflTransGen (Tallies e) {} s) {id : TargetId} {t : CallTarget}
    (ht : s.targets[id]? = some t) {position : ℕ} {code : Code}
    (hcode : t.currentCode = some (position, code)) {bound room : ℕ} {arguments : List Value}
    {reason : DeoptReason} {snapshot : Snapshot} {s₁ : State}
    (hrun : code.run (codeHost (e.callWithin bound room) id position) bound arguments
      (s.modifyProfile id fun p => p.recordArguments arguments) =
        .done (.deoptimized reason snapshot) s₁) :
    ∃ m, code.GivesUpAt (codeHost (e.callWithin bound room) id position) arguments
        (s.modifyProfile id fun p => p.recordArguments arguments) m reason snapshot s₁ ∧
      e.invokeWith bound (e.callWithin bound room) id arguments s =
        resumeFrames (e.callWithin bound room) bound snapshot.innermost snapshot.callers
          (handedOver e s₁ id position reason snapshot) ∧
      (∀ i, code.graph.EntryGuard m i → NeverGuardsEntry e s₁ id i) ∧
      (reason = .unreachedBranch → ∀ b, snapshot.innermost.stack.getLast? = some (.bool b) →
        ReflTransGen (Tallies e) (s.modifyProfile id fun p => p.recordArguments arguments) s₁ →
        ∃ v s₂ s₃, s₂ = handedOver e s₁ id position reason snapshot ∧
          s₂.targets[snapshot.innermost.target]? = some v ∧
          s₃ = s₂.modifyProfile snapshot.innermost.target
            (fun p => p.recordBranch snapshot.innermost.node b) ∧
          Interpreter.StartsWithTest (interpreterHost
              (e.callWithin bound room) snapshot.innermost.target) v.routine
            snapshot.innermost b s₂ s₃ ∧
          (CountsUp s₂ s₃ →
            NeverGuardsBranch e s₃ snapshot.innermost.target snapshot.innermost.node)) := by
  have hbacked := backed_of_history hb hs
  obtain ⟨-, hvalid, inst, hinst, rfl⟩ := codeValid_of_currentCode hcode
  have hgrounded := hbacked.codes id t ht inst (List.mem_of_getElem? hinst)
  obtain ⟨m, hgives⟩ := Code.givesUpAt_of_run hrun
  have ht₀ : (s.modifyProfile id fun p => p.recordArguments arguments).targets[id]? =
      some { t with profile := t.profile.recordArguments arguments } := by
    rw [State.modifyProfile, State.getElem?_modifyTarget, if_pos rfl, ht]
    rfl
  obtain ⟨hchanges, hvalid₁⟩ := valid_of_run (callWithin_changes bound room) ht₀ hvalid hrun
  refine ⟨m, hgives, invokeWith_of_givesUp ht hcode hrun, fun i hi s' hs' => ?_, ?_⟩
  · obtain ⟨type, ⟨t', ht', hcovers⟩, hne⟩ := hgives.entry hgrounded hi
    cases ht.symm.trans ht'
    refine neverGuardsEntry ht₀ ?_ s' (hchanges.trans hs')
    rw [Profile.argument_recordArguments]
    split
    · split
      · exact hcovers.merge_of_ne hne
      · rfl
    · rfl
  · rintro rfl b hlast hhistory
    have hhistory₂ := (hhistory.head (tallies_recordArguments s id arguments)).trans
      (history_handedOver snapshot hvalid₁)
    -- the conditional is one of a registered routine, and has gone the other
    -- way
    obtain ⟨r, x, vs, w, expected, ⟨v, hv, rfl⟩, hp, hcond, hid, hmode, hstack, hne, v', hv',
        hseen⟩ := hgives.unreached (grounded_of_history hhistory₂ hgrounded)
    cases hv.symm.trans hv'
    have hw : w = .bool b := by simpa [hstack] using hlast
    subst hw
    have hother : expected = !b := by
      cases b <;> cases expected <;> simp_all
    have hnode : snapshot.innermost.node < v.profile.branches.size := by
      rw [(backed_of_history hb (hs.trans hhistory₂)).sized _ v hv, ← hid]
      exact hp.id_lt
    refine ⟨v, _, _, rfl, hv, rfl, Interpreter.startsWithTest hp hcond hmode hid rfl hstack _,
      fun hup => ?_⟩
    exact neverGuardsBranch_recordBranch hv hnode (hother ▸ hseen) hup

/-- A routine that gives one if its argument is true. -/
def chosen : Routine := .ofBody "chosen" 1 (.ifThen 0 (.argument 0 0) (.constant 0 (.int 1)))

/-- It is registered and has run on true, once. -/
def chosenOnce : State :=
  ((State.register {} chosen).1.modifyProfile 0 fun p =>
    p.recordArguments [.bool true]).modifyProfile 0 fun p =>
    p.recordBranch 0 true

/-- The target of that state. -/
def chosenTarget : CallTarget :=
  { CallTarget.ofRoutine chosen with
    profile := ((Profile.empty 1 3).recordArguments [.bool true]).recordBranch 0 true }

theorem history_chosenOnce (e : Engine) : ReflTransGen (Tallies e) {} chosenOnce := by
  have hregistered : Tallies e {} (State.register {} chosen).1 :=
    ⟨.registered chosen, fun id t t' node b ht => by simp at ht⟩
  refine (ReflTransGen.single hregistered).tail
    (tallies_recordArguments _ 0 [.bool true]) |>.tail ?_
  refine tallies_recordBranch fun v hv => ?_
  let recorded : CallTarget :=
    { CallTarget.ofRoutine chosen with profile := (Profile.empty 1 3).recordArguments [.bool true] }
  obtain rfl := Option.some.inj (show some recorded = some v from hv)
  decide

/-- The code that is made of it then gives up when its argument is false, and
when it is a number. The first time the conditional goes the other way, and
never again is a guard put in its place; the second time the type is another,
and never again is the entry guarded. -/
theorem chosen_side_fails_once :
    ∃ (e : Engine) (s : State) (t : CallTarget) (code : Code), ReflTransGen (Tallies e) {} s ∧
      s.targets[0]? = some t ∧ t.currentCode = some (0, code) ∧
      (∃ s₁ snapshot, code.run (codeHost (e.callWithin 8 0) 0 0) 8 [.bool false]
          (s.modifyProfile 0 fun p => p.recordArguments [.bool false]) =
            .done (.deoptimized .unreachedBranch snapshot) s₁ ∧
        NeverGuardsBranch e
          ((handedOver e s₁ 0 0 .unreachedBranch snapshot).modifyProfile 0 fun p =>
            p.recordBranch 0 false) 0 0) ∧
      ∃ s₁ snapshot, code.run (codeHost (e.callWithin 8 0) 0 0) 8 [.int 1]
          (s.modifyProfile 0 fun p => p.recordArguments [.int 1]) =
            .done (.deoptimized .typeGuardFailure snapshot) s₁ ∧
        NeverGuardsEntry e s₁ 0 0 := by
  let e : Engine := .ofOptions {}
  let compiled (code : Code) : State := chosenOnce.modifyTarget 0 fun t => t.install code
  let run (code : Code) (v : Value) := code.run (codeHost (e.callWithin 8 0) 0 0) 8 [v]
    ((compiled code).modifyProfile 0 fun p => p.recordArguments [v])
  have hruns : (match e.compiler.compile 8 chosenOnce.targets 0 chosenTarget {} with
      | .done code _ => match run code (.bool false), run code (.int 1) with
        | .done (.deoptimized reason snapshot) _, .done (.deoptimized reason' snapshot') _ =>
          decide (reason = .unreachedBranch ∧
            snapshot.innermost = ⟨0, 0, .beforeNode, [.bool false], [], [.bool false]⟩ ∧
            reason' = .typeGuardFailure ∧ snapshot'.innermost.mode = .start)
        | _, _ => false
      | _ => false) = true := by
    decide +kernel
  split at hruns
  case h_2 => cases hruns
  rename_i code stats hcode
  split at hruns
  case h_2 => cases hruns
  rename_i reason snapshot s₁ reason' snapshot' s₂ hside htype
  obtain ⟨rfl, hframe, rfl, hmode⟩ := of_decide_eq_true hruns
  simp only [run] at hside htype
  have hs : ReflTransGen (Tallies e) {} (compiled code) := (history_chosenOnce e).tail
    ⟨.installed 0 (show chosenOnce.targets[0]? = some chosenTarget from rfl) rfl rfl hcode,
      countsUp_modifyTarget fun t node b _ => UInt64.le_refl _⟩
  -- there is no room for calls, so a run leaves the state as it is
  have hworld : ((compiled code).modifyProfile 0 fun p => p.recordArguments [.bool false]) = s₁ :=
    Code.run_along (R := Eq) (fun _ _ => Comp.along_leave _) 8 _ s₁ (by rw [hside]; rfl)
  refine ⟨e, compiled code, chosenTarget.install code, code, hs, rfl, rfl,
    ⟨s₁, snapshot, hside, ?_⟩, s₂, snapshot', htype, ?_⟩
  · obtain ⟨m, -, -, -, hbranch⟩ := speculation_fails_once Backend.faithful_direct hs
      (t := chosenTarget.install code) rfl rfl hside
    obtain ⟨v, -, -, rfl, hv, rfl, -, hnever⟩ :=
      hbranch rfl false (by rw [hframe]; rfl) (hworld ▸ .refl)
    rw [hframe] at hv hnever
    refine hnever (tallies_recordBranch (e := e) fun v hv => ?_).2
    subst hworld
    change ((State.modifyProfile _ 0 _).modifyTarget 0 _).targets[0]? = some v at hv
    rw [State.getElem?_modifyTarget, if_pos rfl] at hv
    obtain ⟨u, hu, rfl⟩ := Option.map_eq_some_iff.1 hv
    let met : CallTarget :=
      { chosenTarget.install code with
        profile := chosenTarget.profile.recordArguments [.bool false] }
    obtain rfl := Option.some.inj (show some met = some u from hu)
    rw [profile_recordDeopt]
    show (chosenTarget.profile.recordArguments [.bool false] |>.branch 0).side false ≠ -1
    decide
  · obtain ⟨m, hgives, -, hentry, -⟩ := speculation_fails_once Backend.faithful_direct hs
      (t := chosenTarget.install code) rfl rfl htype
    have hgrounded := Compiler.grounded_of_compile Backend.faithful_direct hcode
    obtain ⟨i, hi⟩ := hgives.entryGuard hgrounded hmode
    obtain ⟨type, htyped, -⟩ := hgives.entry hgrounded hi
    cases i with
    | zero => exact hentry 0 hi
    | succ i => cases htyped

end Engine

end TieredEngine

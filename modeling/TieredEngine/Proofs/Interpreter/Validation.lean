import TieredEngine.Proofs.Interpreter.Resumption
/-!
# What resumption asks of a frame

A suspended frame fits a routine if its node is one of the routine's
expressions, a call if it is to be picked up behind a call, and its stack has
exactly the values that the expressions around the node hold back and those
that the node itself takes. `resume_validates`: a frame that does not fit is
turned away before the host sees anything, and one that fits is never turned
away, so a complaint about the stack then comes from a call.
-/

namespace TieredEngine

/-- How many values the expressions of a path hold back: for each of them, the
operands before the next one. -/
def heldAlong : List Expr → Nat
  | e :: next :: path =>
    (e.operands.findIdx? (fun o => o.id = next.id)).getD 0 + heldAlong (next :: path)
  | _ => 0

/-- How many values wait on the stack while an expression of a routine is
under way. -/
def Routine.held (r : Routine) (node : ExprId) : Nat := heldAlong ((r.path? node).getD [])

/-- How many operands an expression of a routine has. -/
def Routine.operandCount (r : Routine) (node : ExprId) : Nat :=
  ((r.expr? node).map (·.operands.length)).getD 0

/-- The size of the stack that a frame needs to be picked up. -/
def Routine.stackSize (r : Routine) (node : ExprId) : ResumeMode → Nat
  | .start => 0
  | .beforeNode => r.held node + r.operandCount node
  | .afterCall => r.held node + 1

/-- The frame is one that the routine can be picked up from. -/
structure SuspendedFrame.Fits (f : SuspendedFrame) (r : Routine) : Prop where
  node : f.node < r.nodeCount
  call : f.mode = .afterCall →
    ∃ target arguments, r.expr? f.node = some (.call f.node target arguments)
  stack : f.stack.length = r.stackSize f.node f.mode

/-- The fault says that a frame does not fit its routine. -/
def InternalFault.isMisfit : InternalFault → Bool
  | .resumePointMissing .. | .notACall _ | .operandUnderflow _ | .extraOperands .. | .brokenPath _
  | .missingOperand .. => true
  | _ => false

theorem BinaryOp.kind_of_apply {op : BinaryOp} {x y : Value} {e : GuestError}
    (h : op.apply x y = .error e) :
    e.kind = .typeError := by
  unfold BinaryOp.apply at h
  split at h
  · cases h
  · split at h <;> cases h
    rfl

theorem UnaryOp.kind_of_apply {op : UnaryOp} {x : Value} {e : GuestError}
    (h : op.apply x = .error e) :
    e.kind = .typeError := by
  unfold UnaryOp.apply at h
  split at h <;> cases h
  rfl

theorem Value.kind_of_condition {v : Value} {e : GuestError} (h : v.condition = .error e) :
    e.kind = .typeError := by
  unfold Value.condition at h
  split at h <;> cases h
  rfl

namespace Interpreter

/-! ## The context of an expression -/

/-- Every expression of a body has a context. -/
theorem exists_within {e n : Expr} (h : n ∈ e.preorder) : ∃ ss, Within e ss n := by
  induction e using Expr.induction_children with
  | step e ih =>
    rw [Expr.preorder_eq] at h
    rcases List.mem_cons.1 h with rfl | h
    · exact ⟨[], .here⟩
    · obtain ⟨c, hc, hn⟩ := Expr.mem_preorderAll.1 h
      obtain ⟨ss, hw⟩ := ih c hc hn
      obtain ⟨i, hi⟩ := List.mem_iff_getElem?.1 hc
      by_cases ho : i < e.operands.length
      · have ho' : e.operands[i]? = some c := by rw [Expr.getElem?_operands ho, hi]
        exact ⟨_, .under (holds_operand ho' (List.length_replicate (a := Value.null))) hw⟩
      · exact ⟨_, .under (holds_body hi (Nat.le_of_not_lt ho)) hw⟩

theorem exists_within_of_lt {r : Routine} {node : ExprId} (h : node < r.nodeCount) :
    ∃ ss n, Within r.body ss n ∧ n.id = node := by
  obtain ⟨e, he⟩ := r.numbered
  have hmem : node ∈ r.body.preorder.map Expr.id := by
    rw [he, Expr.preorder_number_ids, List.mem_range'_1]
    rw [Routine.nodeCount, he, Expr.nodeCount_number] at h
    grind
  obtain ⟨n, hn, hid⟩ := List.mem_map.1 hmem
  obtain ⟨ss, hw⟩ := exists_within hn
  exact ⟨ss, n, hw, hid⟩

theorem Within.node_lt {r : Routine} {ss : List Slot} {n : Expr} (h : Within r.body ss n) :
    n.id < r.nodeCount := by
  obtain ⟨j, -, hn, hle⟩ := h.numbered (r.numbered : r.body.NumberedFrom 0)
  have hpos := n.nodeCount_pos
  have := hn.id_eq
  rw [Routine.nodeCount]
  grind

theorem Within.expr?_eq {r : Routine} {ss : List Slot} {n : Expr} (h : Within r.body ss n) :
    r.expr? n.id = some n := by
  rw [Routine.expr?, h.path?_eq]
  simp

theorem pendingOf_cons (s : Slot) (ss : List Slot) :
    pendingOf (s :: ss) = s.pending ++ pendingOf ss := rfl

/-- The values that wait around an expression are those of other expressions. -/
theorem Within.pending_add_nodeCount_le {e n : Expr} {ss : List Slot} (h : Within e ss n) :
    (pendingOf ss).length + n.nodeCount ≤ e.nodeCount := by
  induction h with
  | here => exact Nat.le_of_eq (Nat.zero_add _)
  | @under s c ss n hs _ ih =>
    have hchild := Expr.add_nodeCount_le hs.1
    have hpending : s.pending.length ≤ s.index := by
      rw [hs.2]
      split <;> omega
    rw [pendingOf_cons, List.length_append, Expr.nodeCount_eq s.parent]
    omega

/-- A path starts with the body it descends. -/
theorem Within.path_head {e n : Expr} {ss : List Slot} (h : Within e ss n) :
    ∃ path, ss.map Slot.parent ++ [n] = e :: path := by
  cases h with
  | here => exact ⟨[], rfl⟩
  | under => exact ⟨_, rfl⟩

/-- The positions along a path count the values that its context holds. -/
theorem Within.heldAlong_eq {e n : Expr} {ss : List Slot} (h : Within e ss n) {k : Nat}
    (hk : e.NumberedFrom k) :
    heldAlong (ss.map Slot.parent ++ [n]) = (pendingOf ss).length := by
  induction h generalizing k with
  | here => rfl
  | @under s c ss n h1 h2 ih =>
    obtain ⟨j, -, hc, -⟩ := hk.child h1.1
    obtain ⟨path, hpath⟩ := h2.path_head
    have ih := ih hc
    rw [hpath] at ih
    rw [List.map_cons, List.cons_append, hpath, heldAlong, ih, Expr.findIdx?_operands
      hk.children_nodup h1.1, pendingOf_cons, List.length_append, h1.2, Slot.isOperand]
    by_cases ho : s.index < s.parent.operands.length <;> simp [ho]

theorem Within.held_eq {r : Routine} {ss : List Slot} {n : Expr} (h : Within r.body ss n) :
    r.held n.id = (pendingOf ss).length := by
  rw [Routine.held, h.path?_eq, Option.getD_some]
  exact h.heldAlong_eq r.numbered

/-! ## Turning a frame away -/

section

variable {σ : Type}

theorem fault_bind {α β : Type} (f : InternalFault) (k : α → Eval σ β) :
    (fault f >>= k) = fault f := rfl

theorem fill_fault (host : Host σ) (bound : Nat) (ss : List Slot) (f : InternalFault) :
    fill host bound ss (fault f) = fault f := by
  induction ss with
  | nil => rfl
  | cons s ss ih => rw [fill, ih, fault_bind]

theorem takeOperands_of_length_lt (node : ExprId) {n : Nat} {stack : List Value}
    (h : stack.length < n) :
    takeOperands node n stack = (fault (.operandUnderflow node) : Eval σ _) := by
  induction n generalizing stack with
  | zero => omega
  | succ n ih =>
    cases stack with
    | nil => rfl
    | cons v stack =>
      rw [takeOperands, ih (by simpa using h)]
      rfl

/-- How the last expression of a path is picked up. -/
def enterAt (host : Host σ) (bound : Nat) : ResumeMode → Expr → List Value → Eval σ Value
  | .afterCall => enterAfterCall
  | _ => enterBefore host bound

theorem resume_eq_along (host : Host σ) (bound : Nat) {r : Routine} {f : SuspendedFrame}
    {ss : List Slot} {n : Expr} (hm : f.mode ≠ .start) (hw : Within r.body ss n)
    (hn : n.id = f.node) :
    resume host bound r f =
      conclude (resumeAlong host bound (enterAt host bound f.mode)
          (ss.map Slot.parent ++ [n]) f.stack)
        ((Frame.fresh f.arguments r.localCount).restoreLocals f.locals) := by
  rw [resume, ← hn, hw.path?_eq]
  cases hf : f.mode with
  | start => exact absurd hf hm
  | beforeNode => rfl
  | afterCall => rfl

end

/-- A list that is long enough, cut in two. -/
theorem exists_append_of_le {n : Nat} {stack : List Value} (h : n ≤ stack.length) :
    ∃ vs rest, vs.length = n ∧ stack = vs ++ rest :=
  ⟨stack.take n, stack.drop n, by simpa using h, by simp⟩

/-- A way down from a body either lacks values, and is left at once, or finds
the values of a context. -/
theorem descend {e n : Expr} {ss : List Slot} (h : Within e ss n) {k : Nat} (hk : e.NumberedFrom k)
    (stack : List Value) :
    (stack.length < (pendingOf ss).length ∧
      ∃ node, ∀ (σ : Type) (host : Host σ) (bound : Nat) enter,
      resumeAlong host bound enter (ss.map Slot.parent ++ [n]) stack =
        fault (.operandUnderflow node)) ∨
    ∃ ss' rest, Within e ss' n ∧ ss'.map Slot.parent = ss.map Slot.parent ∧
      stack = pendingOf ss' ++ rest := by
  induction h generalizing k stack with
  | here => exact .inr ⟨[], stack, .here, rfl, rfl⟩
  | @under s c ss n h1 h2 ih =>
    obtain ⟨j, -, hc, -⟩ := hk.child h1.1
    obtain ⟨path, hpath⟩ := h2.path_head
    rw [pendingOf_cons, List.length_append, List.map_cons, List.cons_append, hpath]
    by_cases hs : stack.length < s.pending.length
    · -- only an operand waits behind values
      have ho : s.isOperand := by
        by_contra ho
        have := h1.2
        rw [if_neg ho] at this
        omega
      have hp : s.pending.length = s.index := by rw [h1.2, if_pos ho]
      have hf := Expr.findIdx?_operands hk.children_nodup h1.1
      rw [if_pos (by simpa [Slot.isOperand] using ho)] at hf
      refine .inl ⟨by omega, s.parent.id, fun σ host bound enter => ?_⟩
      rw [resumeAlong_operand host bound _ hf, takeOperands_of_length_lt _ (by omega), fault_bind]
    · obtain ⟨vs, rest, hvs, rfl⟩ := exists_append_of_le (Nat.le_of_not_lt hs)
      have h1' : Slot.Holds { s with pending := vs } c := ⟨h1.1, hvs.trans h1.2⟩
      rcases ih hc rest with ⟨hlt, node, hfault⟩ | ⟨ss', rest', hw, hmap, rfl⟩
      · refine .inl ⟨by rw [List.length_append]; omega, node, fun σ host bound enter => ?_⟩
        rw [resumeAlong_cons host bound _ h1' hk.children_nodup, ← hpath, hfault, fault_bind]
      · exact .inr ⟨{ s with pending := vs } :: ss', rest',
          .under h1' hw, by simp [hmap], by simp [pendingOf_cons]⟩

/-- How many values an expression takes when it is picked up. -/
def takes (e : Expr) : ResumeMode → Nat
  | .afterCall => 1
  | _ => e.operands.length

theorem takeOperands_misfit (node : ExprId) {n : Nat} {stack : List Value} (h : stack.length ≠ n) :
    ∃ f : InternalFault, f.isMisfit ∧ ∀ (σ α : Type) (k : List Value → Eval σ α),
      (do let (values, rest) ← takeOperands node n stack; expectEmpty node rest; k values) =
        fault f := by
  by_cases hlt : stack.length < n
  · refine ⟨.operandUnderflow node, rfl, fun σ α k => ?_⟩
    rw [takeOperands_of_length_lt node hlt, fault_bind]
  · obtain ⟨vs, rest, rfl, rfl⟩ := exists_append_of_le (Nat.le_of_not_lt hlt)
    have hrest : rest.isEmpty = false := by
      cases rest with
      | nil => exact absurd (by simp) h
      | cons => rfl
    refine ⟨.extraOperands rest.length node, rfl, fun σ α k => ?_⟩
    rw [takeOperands_append, pure_bind]
    simp only [expectEmpty, hrest, Bool.false_eq_true, if_false, fault_bind]

theorem enterAt_misfit {mode : ResumeMode} {e : Expr} {stack : List Value}
    (h : (mode = .afterCall ∧ ∀ target arguments, e ≠ .call e.id target arguments) ∨
      stack.length ≠ takes e mode) :
    ∃ f : InternalFault, f.isMisfit ∧ ∀ (σ : Type) (host : Host σ) (bound : Nat),
      enterAt host bound mode e stack = fault f := by
  by_cases hm : mode = .afterCall
  · subst hm
    by_cases hc : ∃ target arguments, e = .call e.id target arguments
    · obtain ⟨target, arguments, hc⟩ := hc
      have hl : stack.length ≠ 1 := h.resolve_left fun h => h.2 target arguments hc
      obtain ⟨f, hf, heq⟩ := takeOperands_misfit e.id hl
      refine ⟨f, hf, fun σ host bound => ?_⟩
      rw [hc]
      exact heq σ Value fun values => operand e.id values 0
    · refine ⟨.notACall e.id, rfl, fun σ host bound => ?_⟩
      cases e with
      | call id target arguments => exact absurd ⟨target, arguments, rfl⟩ hc
      | _ => rfl
  · have hl : stack.length ≠ e.operands.length := by
      have := h.resolve_left fun h => hm h.1
      cases mode with
      | afterCall => exact absurd rfl hm
      | _ => exact this
    obtain ⟨f, hf, heq⟩ := takeOperands_misfit e.id hl
    refine ⟨f, hf, fun σ host bound => ?_⟩
    cases mode with
    | afterCall => exact absurd rfl hm
    | _ => exact heq σ Value (act host bound e)

/-- A frame that does not fit is turned away with a complaint about it,
whoever the host is. -/
theorem resume_of_not_fits {r : Routine} {f : SuspendedFrame} (hm : f.mode ≠ .start)
    (h : ¬ f.Fits r) :
    ∃ fault : InternalFault, fault.isMisfit ∧
      ∀ (σ : Type) (host : Host σ) (bound : Nat) (world : σ),
      resume host bound r f world = .stop (.internal fault) world := by
  by_cases hlt : f.node < r.nodeCount
  · obtain ⟨ss, n, hw, hn⟩ := exists_within_of_lt hlt
    rcases descend hw r.numbered f.stack with ⟨-, node, hfault⟩ | ⟨ss', rest, hw', -, hstack⟩
    · refine ⟨.operandUnderflow node, rfl, fun σ host bound world => ?_⟩
      rw [resume_eq_along host bound hm hw hn, hfault]
      rfl
    · -- the way down has what it takes, so the node itself is what the frame does not fit
      have hbad : (f.mode = .afterCall ∧ ∀ target arguments, n ≠ .call n.id target arguments) ∨
          rest.length ≠ takes n f.mode := by
        by_contra hgood
        push Not at hgood
        obtain ⟨hcall, hlen⟩ := hgood
        refine h ⟨hlt, fun hmode => ?_, ?_⟩
        · obtain ⟨target, arguments, hc⟩ := hcall hmode
          exact ⟨target, arguments, by rw [← hn, hw'.expr?_eq, ← hc]⟩
        · rw [hstack, List.length_append, hlen, ← hw'.held_eq, hn]
          cases hmode : f.mode with
          | start => exact absurd hmode hm
          | beforeNode => simp [takes, Routine.stackSize, Routine.operandCount, ← hn, hw'.expr?_eq]
          | afterCall => rfl
      obtain ⟨fault', hf, heq⟩ := enterAt_misfit hbad
      refine ⟨fault', hf, fun σ host bound world => ?_⟩
      rw [resume_eq_along host bound hm hw' hn, hstack,
        resumeAlong_eq_fill host bound _ hw' r.numbered, heq, fill_fault]
      rfl
  · refine ⟨.resumePointMissing f.node r.name, rfl, fun σ host bound world => ?_⟩
    have hp : r.path? f.node = none := if_neg hlt
    cases hmode : f.mode with
    | start => exact absurd hmode hm
    | _ => simp only [resume, hmode, hp]; rfl

/-! ## Picking a frame up -/

variable {σ : Type} {host : Host σ} {bound : Nat}

/-- No step of a run complains about a frame: the complaint is one that a call
gave. -/
theorem Ends.call_of_misfit {m : Moment σ} {fault : InternalFault} {world : σ}
    (h : Ends host m (.stop (.internal fault) world)) (hf : fault.isMisfit) :
    ∃ target arguments before,
      host.call target arguments before = .stop (.internal fault) world := by
  cases h with
  | readLocal => cases hf
  | writeLocal => cases hf
  | binary h => cases BinaryOp.kind_of_apply h
  | unary h => cases UnaryOp.kind_of_apply h
  | ifThen h => cases Value.kind_of_condition h
  | ifElse h => cases Value.kind_of_condition h
  | whileLoop h => cases Value.kind_of_condition h
  | call h => exact ⟨_, _, _, h⟩

/-- A restored frame has the slots it had when it was fresh. -/
theorem length_locals_restored (arguments : List Value) (n : Nat) (locals : List Value) :
    ((Frame.fresh arguments n).restoreLocals locals).locals.length = n := by
  simp only [Frame.fresh, Frame.restoreLocals, List.length_append, List.length_take,
    List.length_drop, List.length_replicate]
  omega

/-- A frame that fits is at a moment of the routine, with the routine's local
slots, or at an expression that takes no operands. -/
theorem resume_of_fits {r : Routine} {f : SuspendedFrame} (hm : f.mode ≠ .start) (h : f.Fits r)
    (world : σ) :
    (∃ m : Moment σ, m.Inside r.body ∧ m.activation.frame.locals.length = r.localCount ∧
      m.activation.world = world ∧ resume host bound r f world = m.rest host bound) ∨
      resume host bound r f world = .stop (.internal (.takesNoOperands f.node)) world := by
  obtain ⟨ss, n, hw, hn⟩ := exists_within_of_lt h.node
  have hstack := h.stack
  rw [← hn] at hstack
  rcases descend hw r.numbered f.stack with ⟨hlt, -⟩ | ⟨ss', rest, hw', -, hrest⟩
  · rw [← hw.held_eq] at hlt
    cases hmode : f.mode with
    | start => exact absurd hmode hm
    | beforeNode => rw [hmode, Routine.stackSize] at hstack; omega
    | afterCall => rw [hmode, Routine.stackSize] at hstack; omega
  · let a : Activation σ := ⟨(Frame.fresh f.arguments r.localCount).restoreLocals f.locals, world⟩
    have hlocals : a.frame.locals.length = r.localCount :=
      length_locals_restored f.arguments r.localCount f.locals
    have hfill : resume host bound r f world =
        conclude (fill host bound ss' (enterAt host bound f.mode n rest)) a.frame a.world := by
      rw [resume_eq_along host bound hm hw' hn, hrest,
        resumeAlong_eq_fill host bound _ hw' r.numbered]
    rw [hrest, List.length_append, ← hw'.held_eq] at hstack
    cases hmode : f.mode with
    | start => exact absurd hmode hm
    | beforeNode =>
      have hlen : rest.length = n.operands.length := by
        rw [hmode, Routine.stackSize, Routine.operandCount, hw'.expr?_eq, Option.map_some,
          Option.getD_some] at hstack
        omega
      rw [hmode, show enterAt host bound .beforeNode n rest = act host bound n rest from
        enterBefore_operands host bound n hlen] at hfill
      by_cases hne : n.operands ≠ [] ∨ ∃ id target, n = .call id target []
      · exact .inl ⟨.ready ss' n rest a, ⟨hw', hlen, hne⟩, hlocals, rfl, hfill⟩
      · right
        have hact : act host bound n rest = fault (.takesNoOperands n.id) := by
          cases n <;> simp [Expr.operands, Expr.children] at hne <;> rfl
        rw [hfill, hact, fill_fault, hn]
        rfl
    | afterCall =>
      obtain ⟨target, arguments, hc⟩ := h.call hmode
      rw [← hn, hw'.expr?_eq, Option.some.injEq] at hc
      obtain ⟨v, rfl⟩ : ∃ v, rest = [v] := by
        rw [hmode, Routine.stackSize] at hstack
        exact List.length_eq_one_iff.1 (by omega)
      rw [hmode, hc] at hfill
      exact .inl ⟨.back ss' n v a, ⟨hw', _, _, _, hc⟩, hlocals, rfl, hfill⟩

/-- Once a frame fits, nothing but a call complains about a frame. -/
theorem call_of_resume_misfit {r : Routine} {f : SuspendedFrame} (hm : f.mode ≠ .start)
    (h : f.Fits r) {world world' : σ} {fault : InternalFault}
    (hr : resume host bound r f world = .stop (.internal fault) world') (hf : fault.isMisfit) :
    ∃ target arguments before,
      host.call target arguments before = .stop (.internal fault) world' := by
  have hfits : (∃ m : Moment σ, m.Inside r.body ∧ _ ∧ _ ∧
      resume host bound r f world = m.rest host bound) ∨ _ := resume_of_fits hm h world
  rcases hfits with ⟨m, hin, -, -, hm⟩ | hnone
  · obtain ⟨m', -, he⟩ := (rest_iff_runs hin (by simp)).1 ⟨bound, hm ▸ hr⟩
    exact he.call_of_misfit hf
  · rw [hnone] at hr
    cases hr
    cases hf

/-- Resuming the frame never complains about the frame itself. -/
def Accepts (r : Routine) (f : SuspendedFrame) : Prop :=
  ∀ (σ : Type) (host : Host σ) (bound : Nat) (world world' : σ) (fault : InternalFault),
    resume host bound r f world = .stop (.internal fault) world' → fault.isMisfit →
      ∃ target arguments before, host.call target arguments before = .stop (.internal fault) world'

/-- A frame from which the routine starts over has nothing to be checked. -/
theorem accepts_of_start {r : Routine} {f : SuspendedFrame} (hm : f.mode = .start) :
    Accepts r f := by
  intro σ host bound world world' fault hr hf
  simp only [resume, hm] at hr
  obtain ⟨m', -, he⟩ := (execute_iff_runs host r f.arguments world (by simp)).1 ⟨bound, hr⟩
  exact he.call_of_misfit hf

theorem accepts_of_fits {r : Routine} {f : SuspendedFrame} (hm : f.mode ≠ .start) (h : f.Fits r) :
    Accepts r f :=
  fun _ _ _ _ _ _ hr hf => call_of_resume_misfit hm h hr hf

/-- Resumption validates a frame before anything happens. If the frame does
not fit (its node is none of the routine, or is no call though the frame waits
behind one, or its stack has not exactly the size that the path to the node
asks for), resumption fails with the same internal fault for every host and
leaves the host's state as it was, so it has made no call and no record.
Otherwise a fault about the frame is never resumption's own: a call gave it. -/
theorem resume_validates (r : Routine) (f : SuspendedFrame) (hm : f.mode ≠ .start) :
    (¬ f.Fits r → ∃ fault : InternalFault, fault.isMisfit ∧
      ∀ (σ : Type) (host : Host σ) (bound : Nat) (world : σ),
        resume host bound r f world = .stop (.internal fault) world) ∧
    (f.Fits r →
      ∀ (σ : Type) (host : Host σ) (bound : Nat) (world world' : σ) (fault : InternalFault),
      resume host bound r f world = .stop (.internal fault) world' → fault.isMisfit →
        ∃ target arguments before,
          host.call target arguments before = .stop (.internal fault) world') :=
  ⟨resume_of_not_fits hm, fun hfit _ _ _ _ _ _ hr hf => call_of_resume_misfit hm hfit hr hf⟩

/-- Behind the call in `1 + f()` two values are due: with one the frame is
turned away, with both it is picked up. -/
theorem resume_validates_after_call :
    (∃ fault : InternalFault, fault.isMisfit ∧
      ∀ (σ : Type) (host : Host σ) (bound : Nat) (world : σ),
      resume host bound (.ofBody "sum" 0 (.binary 0 .add (.constant 0 (.int 1)) (.call 0 7 [])))
        ⟨3, 2, .afterCall, [], [], [.int 1]⟩ world = .stop (.internal fault) world) ∧
    ∀ (σ : Type) (host : Host σ) (bound : Nat) (world world' : σ) (fault : InternalFault),
      resume host bound (.ofBody "sum" 0 (.binary 0 .add (.constant 0 (.int 1)) (.call 0 7 [])))
        ⟨3, 2, .afterCall, [], [], [.int 1, .int 2]⟩ world = .stop (.internal fault) world' →
          fault.isMisfit →
        ∃ target arguments before,
          host.call target arguments before = .stop (.internal fault) world' := by
  refine ⟨(resume_validates _ _ (by decide)).1 fun h => ?_, (resume_validates _ _ (by decide)).2 ?_⟩
  · exact absurd h.stack (by decide)
  · exact ⟨by decide, fun _ => ⟨7, [], rfl⟩, rfl⟩

end Interpreter

end TieredEngine

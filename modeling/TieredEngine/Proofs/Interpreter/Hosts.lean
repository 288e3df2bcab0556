import TieredEngine.Proofs.Interpreter.Context
/-!
# Interpretation on related hosts

Interpretation asks its host for calls and records only, and its frame for
local slots and for the arguments that the routine reads. So if the calls of
one host refine those of another, everything the interpreter does refines too:
`eval_refines`, `act_refines`, `fill_refines`, `execute_refines`,
`resume_refines`. The bound of the refined side is any bound that is large
enough, so each of these also says that raising the bound keeps a finished
answer.
-/

namespace TieredEngine

open Filter

variable {σ τ : Type}

/-- The calls and records of `h` refine those of the bounded hosts `h'`. -/
structure Host.Refines (ignored : GuestError → Prop) (rel : σ → τ → Prop) (h : Host σ)
    (h' : ℕ → Host τ) :
    Prop where
  call : ∀ target arguments,
    Comp.Refines ignored rel (h.call target arguments) fun b => (h' b).call target arguments
  record : ∀ id taken s t, rel s t →
    ∃ t', rel (h.recordBranch id taken s) t' ∧ ∀ b, (h' b).recordBranch id taken t = t'

/-- Every host refines itself. -/
theorem Host.Refines.refl (h : Host σ) : h.Refines (fun _ => False) Eq fun _ => h where
  call target arguments s t hst := by
    subst hst
    cases hc : h.call target arguments s with
    | done v w => exact .done rfl (.of_forall fun _ => hc)
    | stop e w => exact .stop rfl (.of_forall fun _ => hc)
    | exhausted => exact .exhausted
  record id taken s t hst := by subst hst; exact ⟨_, rfl, fun _ => rfl⟩

namespace Interpreter

/-- The exits nobody asks about, given the guest errors nobody asks about. -/
def Exit.Ignored (ignored : GuestError → Prop) : Exit → Prop
  | .failed e => ignored e
  | .returned _ => False

/-- Two activations whose locals are the same, and the arguments too as far as
they are read. -/
structure Activation.Agree (reads : UInt64 → Prop) (rel : σ → τ → Prop) (a : Activation σ)
    (a' : Activation τ) :
    Prop where
  locals : a.frame.locals = a'.frame.locals
  argument : ∀ i, reads i → a.frame.argument i = a'.frame.argument i
  world : rel a.world a'.world

/-- Every argument that the expression reads is among `reads`. -/
def Reads (reads : UInt64 → Prop) (e : Expr) : Prop :=
  ∀ x ∈ e.preorder, ∀ i, x.argument? = some i → reads i

theorem Reads.child {reads : UInt64 → Prop} {e c : Expr} (h : Reads reads e) (hc : c ∈ e.children) :
    Reads reads c :=
  fun x hx i hi => h x (Expr.preorder_subset_of_mem_children hc hx) i hi

section

variable {ignored : GuestError → Prop} {reads : UInt64 → Prop} {rel : σ → τ → Prop} {h : Host σ}
    {h' : ℕ → Host τ}

/-- Refinement of evaluation inside related activations. -/
abbrev EvalRefines {α : Type} (ignored : GuestError → Prop) (reads : UInt64 → Prop)
    (rel : σ → τ → Prop) (x : Eval σ α) (y : ℕ → Eval τ α) : Prop :=
  Comp.Refines (Exit.Ignored ignored) (Activation.Agree reads rel) x y

/-! ## Effects -/

theorem fault_refines {α : Type} (f : InternalFault) :
    EvalRefines ignored reads rel (fault f : Eval σ α) fun _ => (fault f : Eval τ α) :=
  Comp.refines_leave _

theorem lift_refines {α : Type} (x : Except GuestError α) :
    EvalRefines ignored reads rel (lift x : Eval σ α) fun _ => (lift x : Eval τ α) :=
  Comp.refines_ofExcept _

theorem operand_refines (node : ExprId) (values : List Value) (index : Nat) :
    EvalRefines ignored reads rel (operand node values index : Eval σ Value)
      fun _ => (operand node values index : Eval τ Value) := by
  unfold operand
  split
  · exact Comp.refines_pure _
  · exact fault_refines _

theorem dispatch_refines (hh : h.Refines ignored rel h') (target : TargetId)
    (arguments : List Value) :
    EvalRefines ignored reads rel (dispatch h target arguments) fun b =>
      dispatch (h' b) target arguments := by
  intro a a' ha
  have hc := hh.call target arguments a.world a'.world ha.world
  unfold dispatch
  generalize h.call target arguments a.world = o at hc
  cases hc with
  | exhausted => exact .exhausted
  | ignored hi => exact .ignored hi
  | @done v w w' y hr hy =>
    exact .done (t := { a' with world := w' }) ⟨ha.locals, ha.argument, hr⟩
      (by filter_upwards [hy] with b hb; rw [hb])
  | @stop e w w' y hr hy =>
    exact .stop (t := { a' with world := w' }) ⟨ha.locals, ha.argument, hr⟩
      (by filter_upwards [hy] with b hb; rw [hb])

theorem test_refines (hh : h.Refines ignored rel h') (id : ExprId) (v : Value) :
    EvalRefines ignored reads rel (test h id v) fun b => test (h' b) id v := by
  refine Comp.refines_bind (lift_refines _) fun taken => ?_
  intro a a' ha
  obtain ⟨w, hw, he⟩ := hh.record id taken _ _ ha.world
  refine .done (t := { a' with world := w }) ⟨ha.locals, ha.argument, hw⟩ (.of_forall fun b => ?_)
  show Outcome.done taken { a' with world := (h' b).recordBranch id taken a'.world } = _
  rw [he b]

theorem readLocal_refines (slot : Nat) :
    EvalRefines ignored reads rel (readLocal slot : Eval σ Value) fun _ =>
      (readLocal slot : Eval τ Value) := by
  intro a a' ha
  cases hl : a'.frame.locals[slot]? with
  | some v =>
    rw [show readLocal slot a = .done v a by simp only [readLocal, ha.locals, hl]]
    exact .done ha (.of_forall fun _ => by simp only [readLocal, hl])
  | none =>
    rw [show readLocal slot a = .stop (.failed (.internal (.localOutOfRange slot))) a by
      simp only [readLocal, ha.locals, hl]]
    exact .stop ha (.of_forall fun _ => by simp only [readLocal, hl])

theorem writeLocal_refines (slot : Nat) (v : Value) :
    EvalRefines ignored reads rel (writeLocal slot v : Eval σ Value)
      fun _ => (writeLocal slot v : Eval τ Value) := by
  intro a a' ha
  by_cases hl : slot < a'.frame.locals.length
  · simp only [writeLocal, ha.locals, if_pos hl]
    have hset : Activation.Agree reads rel
        { a with frame := { a.frame with locals := a'.frame.locals.set slot v } }
        { a' with frame := { a'.frame with locals := a'.frame.locals.set slot v } } :=
      ⟨rfl, ha.argument, ha.world⟩
    exact .done hset (.of_forall fun _ => rfl)
  · simp only [writeLocal, ha.locals, if_neg hl]
    exact .stop ha (.of_forall fun _ => rfl)

theorem argument_refines {index : UInt64} (hi : reads index) :
    EvalRefines ignored reads rel (do return (← Comp.state).frame.argument index : Eval σ Value)
      fun _ => (do return (← Comp.state).frame.argument index : Eval τ Value) :=
  fun a a' ha => .done ha (.of_forall fun _ => by
    show Outcome.done (a'.frame.argument index) a' = Outcome.done (a.frame.argument index) a'
    rw [ha.argument index hi])

/-! ## Loops -/

/-- A loop that ends within `n` tests ends the same way within any larger
number of them. -/
theorem repeatWhile_refines {condition : Eval σ Bool} {body : Eval σ Value}
    {condition' : ℕ → Eval τ Bool} {body' : ℕ → Eval τ Value}
    (hc : EvalRefines ignored reads rel condition condition')
    (hb : EvalRefines ignored reads rel body body') (n : Nat) :
    ∀ m : ℕ → ℕ, (∀ᶠ b in atTop, n ≤ m b) →
      EvalRefines ignored reads rel (repeatWhile condition body n)
        fun b => repeatWhile (condition' b) (body' b) (m b) := by
  induction n with
  | zero => exact fun _ _ _ _ _ => .exhausted
  | succ n ih =>
    intro m hm a a' ha
    have hpred : ∀ᶠ b in atTop, m b = (m b - 1) + 1 := by filter_upwards [hm] with b hb; omega
    have hrest := ih (fun b => m b - 1) (by filter_upwards [hm] with b hb; omega)
    have hca := hc a a' ha
    rw [repeatWhile]
    generalize condition a = o at hca
    cases hca with
    | exhausted => exact .exhausted
    | ignored hi => exact .ignored hi
    | stop hr hy =>
      exact .stop hr (by filter_upwards [hy, hpred] with b h1 h2; rw [h2, repeatWhile, h1])
    | @done taken a₁ a₁' y hr hy =>
      cases taken with
      | false =>
        exact .done hr (by filter_upwards [hy, hpred] with b h1 h2; rw [h2, repeatWhile, h1])
      | true =>
        have hba := hb a₁ a₁' hr
        dsimp only
        generalize body a₁ = o at hba
        cases hba with
        | exhausted => exact .exhausted
        | ignored hi => exact .ignored hi
        | stop hr' hy' =>
          exact .stop hr' (by
            filter_upwards [hy, hy', hpred] with b h1 h2 h3
            rw [h3, repeatWhile, h1]; dsimp only; rw [h2])
        | done hr' hy' =>
          refine (hrest _ _ hr').congr ?_
          filter_upwards [hy, hy', hpred] with b h1 h2 h3
          rw [h3, repeatWhile, h1]
          dsimp only
          rw [h2]
          simp

/-! ## Evaluation -/

theorem evalAll_refines_of {k : Nat} {es : List Expr}
    (he : ∀ e ∈ es, EvalRefines ignored reads rel (eval h k e) fun b => eval (h' b) b e) :
    EvalRefines ignored reads rel (evalAll h k es) fun b => evalAll (h' b) b es := by
  induction es with
  | nil => exact Comp.refines_pure _
  | cons e es ih =>
    simp only [evalAll]
    refine Comp.refines_bind (he e List.mem_cons_self) fun v => ?_
    exact Comp.refines_bind (ih fun e he' => he e (List.mem_cons_of_mem _ he')) fun vs =>
      Comp.refines_pure _

theorem evalBlock_refines_of {k : Nat} {es : List Expr}
    (he : ∀ e ∈ es, EvalRefines ignored reads rel (eval h k e) fun b => eval (h' b) b e)
    (last : Value) :
    EvalRefines ignored reads rel (evalBlock h k es last) fun b => evalBlock (h' b) b es last := by
  induction es generalizing last with
  | nil => exact Comp.refines_pure _
  | cons e es ih =>
    simp only [evalBlock]
    exact Comp.refines_bind (he e List.mem_cons_self) fun v =>
      ih (fun e he' => he e (List.mem_cons_of_mem _ he')) v

theorem eval_refines (hh : h.Refines ignored rel h') (k : Nat) {e : Expr} (hr : Reads reads e) :
    EvalRefines ignored reads rel (eval h k e) fun b => eval (h' b) b e := by
  induction e using Expr.induction_children with
  | step e ih =>
    replace ih := fun c hc => ih c hc (hr.child hc)
    cases e with
    | constant id v => simp only [eval]; exact Comp.refines_pure _
    | argument id index =>
      simp only [eval]
      exact argument_refines (hr _ (Expr.self_mem_preorder _) index rfl)
    | readLocal id slot => simp only [eval]; exact readLocal_refines slot.toNat
    | writeLocal id slot value =>
      simp only [eval]
      exact Comp.refines_bind (ih value (by simp [Expr.children])) fun v =>
        writeLocal_refines slot.toNat v
    | binary id op lhs rhs =>
      simp only [eval]
      exact Comp.refines_bind (ih lhs (by simp [Expr.children])) fun a =>
        Comp.refines_bind (ih rhs (by simp [Expr.children])) fun b => lift_refines _
    | unary id op x =>
      simp only [eval]
      exact Comp.refines_bind (ih x (by simp [Expr.children])) fun a => lift_refines _
    | block id parts =>
      simp only [eval]
      exact evalBlock_refines_of ih _
    | ifThen id condition body =>
      simp only [eval]
      refine Comp.refines_bind (ih condition (by simp [Expr.children])) fun v =>
        Comp.refines_bind (test_refines hh id v) fun taken => ?_
      cases taken with
      | true => exact ih body (by simp [Expr.children])
      | false => exact Comp.refines_pure _
    | ifElse id condition body alternative =>
      simp only [eval]
      refine Comp.refines_bind (ih condition (by simp [Expr.children])) fun v =>
        Comp.refines_bind (test_refines hh id v) fun taken => ?_
      cases taken with
      | true => exact ih body (by simp [Expr.children])
      | false => exact ih alternative (by simp [Expr.children])
    | whileLoop id condition body =>
      simp only [eval]
      exact repeatWhile_refines
        (Comp.refines_bind (ih condition (by simp [Expr.children])) fun v => test_refines hh id v)
        (ih body (by simp [Expr.children])) k _ (eventually_ge_atTop k)
    | ret id value =>
      simp only [eval]
      exact Comp.refines_bind (ih value (by simp [Expr.children])) fun v => Comp.refines_leave _
    | call id target arguments =>
      simp only [eval]
      exact Comp.refines_bind (evalAll_refines_of ih) fun vs => dispatch_refines hh target vs

theorem evalAll_refines (hh : h.Refines ignored rel h') (k : Nat) {es : List Expr}
    (hr : ∀ e ∈ es, Reads reads e) :
    EvalRefines ignored reads rel (evalAll h k es) fun b => evalAll (h' b) b es :=
  evalAll_refines_of fun e he => eval_refines hh k (hr e he)

theorem runLoop_refines (hh : h.Refines ignored rel h') (k : Nat) (id : ExprId)
    {condition body : Expr} (hc : Reads reads condition) (hb : Reads reads body) :
    EvalRefines ignored reads rel (runLoop h k id condition body) fun b =>
      runLoop (h' b) b id condition body :=
  repeatWhile_refines (Comp.refines_bind (eval_refines hh k hc) fun v => test_refines hh id v)
    (eval_refines hh k hb) k _ (eventually_ge_atTop k)

theorem act_refines (hh : h.Refines ignored rel h') (k : Nat) {e : Expr} (hr : Reads reads e)
    (values : List Value) :
    EvalRefines ignored reads rel (act h k e values) fun b => act (h' b) b e values := by
  have hch := fun c hc => eval_refines hh k (hr.child (c := c) hc)
  cases e with
  | constant id v => simp only [act]; exact fault_refines _
  | argument id index => simp only [act]; exact fault_refines _
  | readLocal id slot => simp only [act]; exact fault_refines _
  | block id parts => simp only [act]; exact fault_refines _
  | writeLocal id slot value =>
    simp only [act]
    exact Comp.refines_bind (operand_refines _ _ _) fun v => writeLocal_refines slot.toNat v
  | binary id op lhs rhs =>
    simp only [act]
    exact Comp.refines_bind (operand_refines _ _ _) fun a =>
      Comp.refines_bind (operand_refines _ _ _) fun b => lift_refines _
  | unary id op x =>
    simp only [act]
    exact Comp.refines_bind (operand_refines _ _ _) fun a => lift_refines _
  | ifThen id condition body =>
    simp only [act]
    refine Comp.refines_bind (operand_refines _ _ _) fun v =>
      Comp.refines_bind (test_refines hh id v) fun taken => ?_
    cases taken with
    | true => exact hch body (by simp [Expr.children])
    | false => exact Comp.refines_pure _
  | ifElse id condition body alternative =>
    simp only [act]
    refine Comp.refines_bind (operand_refines _ _ _) fun v =>
      Comp.refines_bind (test_refines hh id v) fun taken => ?_
    cases taken with
    | true => exact hch body (by simp [Expr.children])
    | false => exact hch alternative (by simp [Expr.children])
  | whileLoop id condition body =>
    simp only [act]
    refine Comp.refines_bind (operand_refines _ _ _) fun v =>
      Comp.refines_bind (test_refines hh id v) fun taken => ?_
    cases taken with
    | true =>
      exact Comp.refines_bind (hch body (by simp [Expr.children])) fun _ =>
        runLoop_refines hh k id (hr.child (by simp [Expr.children]))
          (hr.child (by simp [Expr.children]))
    | false => exact Comp.refines_pure _
  | ret id value =>
    simp only [act]
    exact Comp.refines_bind (operand_refines _ _ _) fun v => Comp.refines_leave _
  | call id target arguments => simp only [act]; exact dispatch_refines hh target values

/-! ## Contexts -/

theorem Slot.resume_refines (hh : h.Refines ignored rel h') (k : Nat) {s : Slot}
    (hr : Reads reads s.parent) (v : Value) :
    EvalRefines ignored reads rel (s.resume h k v) fun b => s.resume (h' b) b v := by
  unfold Slot.resume
  split
  · exact Comp.refines_bind (evalAll_refines hh k fun e he => hr.child
      (s.parent.operands_subset (List.mem_of_mem_drop he))) fun later => act_refines hh k hr _
  · cases hp : s.parent <;> rw [hp] at hr
    case block id parts =>
      exact evalBlock_refines_of
        (fun e he => eval_refines hh k (hr.child (List.mem_of_mem_drop he))) v
    case whileLoop id condition body =>
      exact runLoop_refines hh k id (hr.child (by simp [Expr.children]))
        (hr.child (by simp [Expr.children]))
    all_goals exact Comp.refines_pure _

theorem fill_refines (hh : h.Refines ignored rel h') (k : Nat) {ss : List Slot}
    (hr : ∀ s ∈ ss, Reads reads s.parent) {x : Eval σ Value} {y : ℕ → Eval τ Value}
    (hx : EvalRefines ignored reads rel x y) :
    EvalRefines ignored reads rel (fill h k ss x) fun b => fill (h' b) b ss (y b) := by
  induction ss with
  | nil => exact hx
  | cons s ss ih =>
    exact Comp.refines_bind (ih fun s hs => hr s (List.mem_cons_of_mem _ hs)) fun v =>
      Slot.resume_refines hh k (hr s List.mem_cons_self) v

/-! ## Whole activations -/

theorem conclude_refines {x : Eval σ Value} {y : ℕ → Eval τ Value}
    (hx : EvalRefines ignored reads rel x y) {f f' : Frame} (hl : f.locals = f'.locals)
    (ha : ∀ i, reads i → f.argument i = f'.argument i) :
    Comp.Refines ignored rel (conclude x f) fun b => conclude (y b) f' := by
  intro w w' hw
  have h := hx ⟨f, w⟩ ⟨f', w'⟩ ⟨hl, ha, hw⟩
  unfold conclude
  generalize x ⟨f, w⟩ = o at h
  cases h with
  | exhausted => exact .exhausted
  | @ignored e s y hi =>
    cases e with
    | returned v => exact hi.elim
    | failed e => exact .ignored hi
  | done hr hy => exact .done hr.world (by filter_upwards [hy] with b hb; rw [hb])
  | @stop e s t y hr hy =>
    cases e with
    | returned v => exact .done hr.world (by filter_upwards [hy] with b hb; rw [hb])
    | failed e => exact .stop hr.world (by filter_upwards [hy] with b hb; rw [hb])

theorem execute_refines (hh : h.Refines ignored rel h') (k : Nat) {r : Routine}
    (hr : Reads reads r.body) {arguments arguments' : List Value}
    (ha : ∀ i, reads i → (atWord? arguments i).getD .null = (atWord? arguments' i).getD .null) :
    Comp.Refines ignored rel (execute h k r arguments) fun b => execute (h' b) b r arguments' :=
  conclude_refines (eval_refines hh k hr) rfl ha

theorem takeOperands_refines (node : ExprId) (n : Nat) (stack : List Value) :
    EvalRefines ignored reads rel (takeOperands node n stack : Eval σ _)
      fun _ => (takeOperands node n stack : Eval τ _) := by
  induction n generalizing stack with
  | zero => exact Comp.refines_pure _
  | succ n ih =>
    cases stack with
    | nil => exact fault_refines _
    | cons v stack =>
      simp only [takeOperands]
      exact Comp.refines_bind (ih stack) fun _ => Comp.refines_pure _

theorem expectEmpty_refines (node : ExprId) (stack : List Value) :
    EvalRefines ignored reads rel (expectEmpty node stack : Eval σ _)
      fun _ => (expectEmpty node stack : Eval τ _) := by
  unfold expectEmpty
  split
  · exact Comp.refines_pure _
  · exact fault_refines _

end

section

variable {ignored : GuestError → Prop} {rel : σ → τ → Prop} {h : Host σ} {h' : ℕ → Host τ}

theorem reads_all (e : Expr) : Reads (fun _ => True) e := fun _ _ _ _ => trivial

theorem enterBefore_refines (hh : h.Refines ignored rel h') (k : Nat) (e : Expr)
    (stack : List Value) :
    EvalRefines ignored (fun _ => True) rel (enterBefore h k e stack) fun b =>
      enterBefore (h' b) b e stack :=
  Comp.refines_bind (takeOperands_refines _ _ _) fun _ =>
    Comp.refines_bind (expectEmpty_refines _ _) fun _ => act_refines hh k (reads_all e) _

theorem enterAfterCall_refines (e : Expr) (stack : List Value) :
    EvalRefines ignored (fun _ => True) rel (enterAfterCall e stack : Eval σ Value)
      fun _ => (enterAfterCall e stack : Eval τ Value) := by
  cases e
  case call =>
    exact Comp.refines_bind (takeOperands_refines _ _ _) fun _ =>
      Comp.refines_bind (expectEmpty_refines _ _) fun _ => operand_refines _ _ _
  all_goals exact fault_refines _

theorem resumeAlong_refines (hh : h.Refines ignored rel h') (k : Nat)
    {enter : Expr → List Value → Eval σ Value} {enter' : ℕ → Expr → List Value → Eval τ Value}
    (he : ∀ e stack,
        EvalRefines ignored (fun _ => True) rel (enter e stack) fun b => enter' b e stack)
    (path : List Expr) (stack : List Value) :
    EvalRefines ignored (fun _ => True) rel (resumeAlong h k enter path stack)
      fun b => resumeAlong (h' b) b (enter' b) path stack := by
  induction path generalizing stack with
  | nil => exact fault_refines _
  | cons e path ih =>
    cases path with
    | nil => exact he e stack
    | cons next path =>
      cases hf : e.operands.findIdx? (fun o => o.id = next.id) with
      | some position =>
        simp only [resumeAlong_operand _ _ _ hf]
        exact Comp.refines_bind (takeOperands_refines _ _ _) fun _ =>
          Comp.refines_bind (ih _) fun v =>
          Comp.refines_bind (evalAll_refines hh k fun e _ => reads_all e) fun _ =>
            act_refines hh k (reads_all e) _
      | none =>
        cases e <;> simp only [resumeAlong, hf]
        case block id parts =>
          split
          · exact Comp.refines_bind (ih _) fun v =>
              evalBlock_refines_of (fun e _ => eval_refines hh k (reads_all e)) v
          · exact fault_refines _
        case ifThen => exact ih _
        case ifElse => exact ih _
        case whileLoop id condition body =>
          exact Comp.refines_bind (ih _) fun _ =>
            runLoop_refines hh k id (reads_all _) (reads_all _)
        all_goals exact fault_refines _

theorem resume_refines (hh : h.Refines ignored rel h') (k : Nat) (r : Routine)
    (s : SuspendedFrame) :
    Comp.Refines ignored rel (resume h k r s) fun b => resume (h' b) b r s := by
  unfold resume
  cases s.mode with
  | start => exact execute_refines hh k (reads_all r.body) fun _ _ => rfl
  | beforeNode =>
    dsimp only
    split
    · exact conclude_refines (resumeAlong_refines hh k (enterBefore_refines hh k) _ _) rfl
        fun _ _ => rfl
    · exact Comp.refines_leave _
  | afterCall =>
    dsimp only
    split
    · exact conclude_refines (resumeAlong_refines hh k enterAfterCall_refines _ _) rfl
        fun _ _ => rfl
    · exact Comp.refines_leave _

end

end Interpreter

end TieredEngine

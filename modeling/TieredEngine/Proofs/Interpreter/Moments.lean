import Mathlib.Logic.Relation
import TieredEngine.Proofs.Interpreter.Hosts
/-!
# Moments of a run

A run of a routine as a sequence of moments, each with its whole context: an
expression is about to be evaluated, it has all its operands and is about to
act, a call has just returned, or a value goes to the slot that waits for it.
`Step` leads from one moment to the next and `Ends` says how a run ends;
neither has a bound.

`rest_iff_of_steps`: what is left of the run, as a bounded computation, stays
the same along the steps. `eval_gets`: the steps from an expression lead to
what evaluating it gives, so no moment of a run is missing.
-/

namespace TieredEngine

namespace Interpreter

open Filter (atTop eventually_ge_atTop)
open Relation (ReflTransGen)

variable {σ : Type}

/-- A point in a run of a routine. -/
inductive Moment (σ : Type) where
  /-- The expression is about to be evaluated. -/
  | enter (context : List Slot) (e : Expr) (a : Activation σ)
  /-- The expression has evaluated all its operands and is about to act. -/
  | ready (context : List Slot) (e : Expr) (values : List Value) (a : Activation σ)
  /-- The call has just returned. -/
  | back (context : List Slot) (e : Expr) (v : Value) (a : Activation σ)
  /-- The innermost slot gets a value. -/
  | value (context : List Slot) (v : Value) (a : Activation σ)

/-- The activation in which the outcome of a conditional has been recorded. -/
def noted (host : Host σ) (id : ExprId) (taken : Bool) (a : Activation σ) : Activation σ :=
  { a with world := host.recordBranch id taken a.world }

/-- The activation in which a local slot has been written. -/
def written (slot : Nat) (v : Value) (a : Activation σ) : Activation σ :=
  { a with frame := { a.frame with locals := a.frame.locals.set slot v } }

/-- One step of a run. -/
inductive Step (host : Host σ) : Moment σ → Moment σ → Prop
  | constant {ss id v a} : Step host (.enter ss (.constant id v) a) (.value ss v a)
  | argument {ss id index a} :
    Step host (.enter ss (.argument id index) a) (.value ss (a.frame.argument index) a)
  | readLocal {ss id slot v a} : a.frame.locals[slot.toNat]? = some v →
    Step host (.enter ss (.readLocal id slot) a) (.value ss v a)
  | firstOperand {ss e o os a} : e.operands = o :: os →
    Step host (.enter ss e a) (.enter (ss ++ [⟨e, 0, []⟩]) o a)
  | noArguments {ss id target a} :
    Step host (.enter ss (.call id target []) a) (.ready ss (.call id target []) [] a)
  | noParts {ss id a} : Step host (.enter ss (.block id []) a) (.value ss .null a)
  | firstPart {ss id p ps a} : Step host (.enter ss (.block id (p :: ps)) a)
      (.enter (ss ++ [⟨.block id (p :: ps), 0, []⟩]) p a)
  | nextOperand {ss s o v a} : s.parent.operands[s.index + 1]? = some o → Step host
      (.value (ss ++ [s]) v a) (.enter (ss ++ [⟨s.parent, s.index + 1, s.pending ++ [v]⟩]) o a)
  | lastOperand {ss s v a} : s.index + 1 = s.parent.operands.length →
    Step host (.value (ss ++ [s]) v a) (.ready ss s.parent (s.pending ++ [v]) a)
  | nextPart {ss id parts i p v a} : parts[i + 1]? = some p →
      Step host (.value (ss ++ [⟨.block id parts, i, []⟩]) v a)
      (.enter (ss ++ [⟨.block id parts, i + 1, []⟩]) p a)
  | lastPart {ss id parts i v a} : i + 1 = parts.length →
    Step host (.value (ss ++ [⟨.block id parts, i, []⟩]) v a) (.value ss v a)
  | bodyDone {ss id condition body i v a} :
    Step host (.value (ss ++ [⟨.ifThen id condition body, i + 1, []⟩]) v a) (.value ss v a)
  | sideDone {ss id condition body alternative i v a} : Step host
      (.value (ss ++ [⟨.ifElse id condition body alternative, i + 1, []⟩]) v a) (.value ss v a)
  | again {ss id condition body i v a} :
    Step host (.value (ss ++ [⟨.whileLoop id condition body, i + 1, []⟩]) v a)
      (.enter (ss ++ [⟨.whileLoop id condition body, 0, []⟩]) condition a)
  | writeLocal {ss id slot x v a} : slot.toNat < a.frame.locals.length →
    Step host (.ready ss (.writeLocal id slot x) [v] a) (.value ss v (written slot.toNat v a))
  | binary {ss id op l r x y v a} : op.apply x y = .ok v →
    Step host (.ready ss (.binary id op l r) [x, y] a) (.value ss v a)
  | unary {ss id op o x v a} : op.apply x = .ok v →
    Step host (.ready ss (.unary id op o) [x] a) (.value ss v a)
  | thenTaken {ss id condition body v a} : v.condition = .ok true →
    Step host (.ready ss (.ifThen id condition body) [v] a)
      (.enter (ss ++ [⟨.ifThen id condition body, 1, []⟩]) body (noted host id true a))
  | thenSkipped {ss id condition body v a} : v.condition = .ok false → Step host
      (.ready ss (.ifThen id condition body) [v] a) (.value ss .null (noted host id false a))
  | bodyTaken {ss id condition body alternative v a} : v.condition = .ok true →
    Step host (.ready ss (.ifElse id condition body alternative) [v] a)
      (.enter (ss ++ [⟨.ifElse id condition body alternative, 1, []⟩]) body (noted host id true a))
  | alternativeTaken {ss id condition body alternative v a} : v.condition = .ok false →
    Step host (.ready ss (.ifElse id condition body alternative) [v] a)
      (.enter (ss ++ [⟨.ifElse id condition body alternative, 2, []⟩]) alternative
          (noted host id false a))
  | loopTaken {ss id condition body v a} : v.condition = .ok true →
    Step host (.ready ss (.whileLoop id condition body) [v] a)
      (.enter (ss ++ [⟨.whileLoop id condition body, 1, []⟩]) body (noted host id true a))
  | loopLeft {ss id condition body v a} : v.condition = .ok false → Step host
      (.ready ss (.whileLoop id condition body) [v] a) (.value ss .null (noted host id false a))
  | call {ss id target es vs v w a} : host.call target vs a.world = .done v w → Step host
      (.ready ss (.call id target es) vs a) (.back ss (.call id target es) v { a with world := w })
  | returned {ss e v a} : Step host (.back ss e v a) (.value ss v a)

/-- How a run ends that cannot go on: with a value, or with a guest error. -/
inductive Ends (host : Host σ) : Moment σ → Outcome GuestError σ Value → Prop
  | finished {v a} : Ends host (.value [] v a) (.done v a.world)
  | returned {ss id x v a} : Ends host (.ready ss (.ret id x) [v] a) (.done v a.world)
  | readLocal {ss id slot a} : a.frame.locals[slot.toNat]? = none → Ends host
      (.enter ss (.readLocal id slot) a) (.stop (.internal (.localOutOfRange slot.toNat)) a.world)
  | writeLocal {ss id slot x v a} : ¬ slot.toNat < a.frame.locals.length →
      Ends host (.ready ss (.writeLocal id slot x) [v] a)
      (.stop (.internal (.localOutOfRange slot.toNat)) a.world)
  | binary {ss id op l r x y e a} : op.apply x y = .error e →
    Ends host (.ready ss (.binary id op l r) [x, y] a) (.stop e a.world)
  | unary {ss id op o x e a} : op.apply x = .error e →
    Ends host (.ready ss (.unary id op o) [x] a) (.stop e a.world)
  | ifThen {ss id condition body v e a} : v.condition = .error e →
    Ends host (.ready ss (.ifThen id condition body) [v] a) (.stop e a.world)
  | ifElse {ss id condition body alternative v e a} : v.condition = .error e →
    Ends host (.ready ss (.ifElse id condition body alternative) [v] a) (.stop e a.world)
  | whileLoop {ss id condition body v e a} : v.condition = .error e →
    Ends host (.ready ss (.whileLoop id condition body) [v] a) (.stop e a.world)
  | call {ss id target es vs e w a} : host.call target vs a.world = .stop e w →
    Ends host (.ready ss (.call id target es) vs a) (.stop e w)

/-- The run from a moment ends with an outcome. -/
def Runs (host : Host σ) (m : Moment σ) (o : Outcome GuestError σ Value) : Prop :=
  ∃ m', ReflTransGen (Step host) m m' ∧ Ends host m' o

theorem Runs.step {host : Host σ} {m m' : Moment σ} {o : Outcome GuestError σ Value}
    (h : Step host m m') (hr : Runs host m' o) : Runs host m o := by
  obtain ⟨n, hn, he⟩ := hr
  exact ⟨n, .head h hn, he⟩

/-- What is left at a moment, as a computation inside the activation. -/
def Moment.todo (host : Host σ) (bound : Nat) : Moment σ → Eval σ Value
  | .enter ss e _ => fill host bound ss (eval host bound e)
  | .ready ss e vs _ => fill host bound ss (act host bound e vs)
  | .back ss _ v _ => fill host bound ss (pure v)
  | .value ss v _ => fill host bound ss (pure v)

/-- The activation at a moment. -/
def Moment.activation : Moment σ → Activation σ
  | .enter _ _ a | .ready _ _ _ a | .back _ _ _ a | .value _ _ a => a

/-- What is left of the run at a moment. -/
def Moment.rest (host : Host σ) (bound : Nat) (m : Moment σ) : Outcome GuestError σ Value :=
  conclude (m.todo host bound) m.activation.frame m.activation.world

/-! ## Acting, case by case -/

section Acting

variable (host : Host σ) (bound : Nat) {a : Activation σ} {id : ExprId} {v x y : Value}

theorem test_ok {taken : Bool} (h : v.condition = .ok taken) :
    test host id v a = .done taken (noted host id taken a) := by
  rw [test, h]; rfl

theorem test_error {e : GuestError} (h : v.condition = .error e) :
    test host id v a = .stop (.failed e) a := by
  rw [test, h]; rfl

theorem writeLocal_ok {slot : Nat} (h : slot < a.frame.locals.length) :
    writeLocal slot v a = .done v (written slot v a) := if_pos h

theorem writeLocal_error {slot : Nat} (h : ¬ slot < a.frame.locals.length) :
    writeLocal slot v a = .stop (.failed (.internal (.localOutOfRange slot))) a := if_neg h

/-- An expression that is no loop evaluates its operands and acts. -/
theorem eval_eq_act {e : Expr} (h : e.operands ≠ [] ∨ ∃ id target, e = .call id target [])
    (hw : ∀ id condition body, e ≠ .whileLoop id condition body) :
    eval host bound e = evalAll host bound e.operands >>= act host bound e := by
  cases e with
  | constant => simp [Expr.operands, Expr.children] at h
  | argument => simp [Expr.operands, Expr.children] at h
  | readLocal => simp [Expr.operands, Expr.children] at h
  | block => simp [Expr.operands] at h
  | whileLoop id condition body => exact absurd rfl (hw id condition body)
  | call => simp only [eval, Expr.operands, Expr.children]; rfl
  | _ => simp [eval, act, operand, Expr.operands, Expr.children, evalAll]

theorem act_binary (op : BinaryOp) (l r : Expr) :
    act host bound (.binary id op l r) [x, y] = lift (op.apply x y) := by
  simp [act, operand]

theorem act_unary (op : UnaryOp) (o : Expr) :
    act host bound (.unary id op o) [x] = lift (op.apply x) := by
  simp [act, operand]

theorem act_ifThen (condition body : Expr) :
    act host bound (.ifThen id condition body) [v] = (do
      if ← test host id v then eval host bound body else pure .null) := by
  simp [act, operand]

theorem act_ifElse (condition body alternative : Expr) :
    act host bound (.ifElse id condition body alternative) [v] = (do
      if ← test host id v then eval host bound body else eval host bound alternative) := by
  simp [act, operand]

theorem act_while (condition body : Expr) :
    act host bound (.whileLoop id condition body) [v] = (do
      if ← test host id v then
        let _ ← eval host bound body
        runLoop host bound id condition body
      else pure .null) := by
  simp [act, operand]

/-- One turn of a loop is its condition, the test, and the body with the turns
that are left. -/
theorem repeatWhile_succ (condition : Eval σ Bool) (body : Eval σ Value) (n : Nat) :
    repeatWhile condition body (n + 1) = (do
      if ← condition then
        let _ ← body
        repeatWhile condition body n
      else pure .null : Eval σ Value) := by
  funext a
  rw [repeatWhile, Comp.bind_apply]
  cases condition a with
  | done taken a =>
    cases taken with
    | false => rfl
    | true =>
      show _ = Comp.bind body (fun _ => repeatWhile condition body n) a
      unfold Comp.bind
      dsimp only
      cases body a <;> rfl
  | stop e a => rfl
  | exhausted => rfl

theorem resume_ifThen (condition body : Expr) (i : Nat) :
    Slot.resume host bound
      ⟨.ifThen id condition body, i + 1, []⟩ = (pure : Value → Eval σ Value) := by
  funext v
  simp [Slot.resume, Slot.isOperand, Expr.operands]

theorem resume_ifElse (condition body alternative : Expr) (i : Nat) :
    Slot.resume host bound
      ⟨.ifElse id condition body alternative, i + 1, []⟩ = (pure : Value → Eval σ Value) := by
  funext v
  simp [Slot.resume, Slot.isOperand, Expr.operands]

theorem resume_whileLoop (condition body : Expr) (i : Nat) :
    Slot.resume host bound ⟨.whileLoop id condition body, i + 1, []⟩ =
      fun _ => runLoop host bound id condition body := by
  funext v
  simp [Slot.resume, Slot.isOperand, Expr.operands]

theorem resume_block (parts : List Expr) (i : Nat) :
    Slot.resume host bound ⟨.block id parts, i, []⟩ = evalBlock host bound
      (parts.drop (i + 1)) := by
  funext v
  simp [Slot.resume, Slot.isOperand, Expr.operands]

/-- A loop entered through its condition makes one test more than its bound. -/
theorem condition_then_loop (condition body : Expr) :
    eval host bound condition >>= Slot.resume host bound ⟨.whileLoop id condition body, 0, []⟩ =
      repeatWhile (do test host id (← eval host bound condition)) (eval host bound body)
        (bound + 1) := by
  rw [repeatWhile_succ, bind_assoc]
  congr 1

end Acting

/-! ## Steps keep what is left -/

theorem reads_all_slots (ss : List Slot) :
    ∀ s ∈ ss, Reads (fun _ => True) s.parent := fun s _ => reads_all s.parent

theorem conclude_settles {x : Eval σ Value} {y : ℕ → Eval σ Value}
    (h : EvalRefines (fun _ => False) (fun _ => True) Eq x y) {f : Frame} {w : σ}
    (hx : conclude x f w ≠ .exhausted) : ∀ᶠ b in atTop, conclude (y b) f w = conclude x f w :=
  (conclude_refines h rfl (fun _ _ => rfl) w w rfl).settles hx

theorem conclude_fill_congr {host : Host σ} {bound : Nat} {ss : List Slot} {x y : Eval σ Value}
    {a a' : Activation σ} (h : x a = y a') :
    conclude (fill host bound ss x) a.frame a.world =
      conclude (fill host bound ss y) a'.frame a'.world := by
  have : ∀ ss : List Slot, fill host bound ss x a = fill host bound ss y a' := by
    intro ss
    induction ss with
    | nil => exact h
    | cons s ss ih => rw [fill, fill, Comp.bind_apply, ih]; rfl
  unfold conclude
  rw [show (⟨a.frame, a.world⟩ : Activation σ) = a from rfl,
    show (⟨a'.frame, a'.world⟩ : Activation σ) = a' from rfl, this ss]

theorem resume_operand {host : Host σ} {bound : Nat} {s : Slot}
    (h : s.index < s.parent.operands.length) (v : Value) :
    s.resume host bound v = (do
      let later ← evalAll host bound (s.parent.operands.drop (s.index + 1))
      act host bound s.parent (s.pending ++ v :: later)) :=
  if_pos (by simpa [Slot.isOperand] using h)

theorem drop_operands {e o : Expr} {i : Nat} (h : e.operands[i]? = some o) :
    e.operands.drop i = o :: e.operands.drop (i + 1) := by
  obtain ⟨hi, rfl⟩ := List.getElem?_eq_some_iff.1 h
  exact List.drop_eq_getElem_cons hi

/-- Entering the first operand of an expression that is no loop changes
nothing. -/
theorem eval_eq_firstOperand (host : Host σ) (bound : Nat) {e o : Expr} {os : List Expr}
    (h : e.operands = o :: os) (hw : ∀ id condition body, e ≠ .whileLoop id condition body) :
    eval host bound e = eval host bound o >>= Slot.resume host bound ⟨e, 0, []⟩ := by
  rw [eval_eq_act host bound (.inl (by simp [h])) hw, h, evalAll, bind_assoc]
  congr 1
  funext v
  rw [resume_operand (by simp [h])]
  simp [h]

theorem exists_conclude_iff {x y : ℕ → Eval σ Value}
    (hxy : ∀ k, EvalRefines (fun _ => False) (fun _ => True) Eq (x k) y)
    (hyx : ∀ k, EvalRefines (fun _ => False) (fun _ => True) Eq (y k) x) {f : Frame} {w : σ}
    {o : Outcome GuestError σ Value} (ho : o ≠ .exhausted) :
    (∃ k, conclude (x k) f w = o) ↔ ∃ k, conclude (y k) f w = o := by
  constructor
  · rintro ⟨k, rfl⟩
    exact (conclude_settles (hxy k) ho).exists
  · rintro ⟨k, rfl⟩
    exact (conclude_settles (hyx k) ho).exists

/-- A loop starts with its condition, whichever of the two the bound counts. -/
theorem exists_loop_iff (host : Host σ) (ss : List Slot) (id : ExprId) (condition body : Expr)
    {f : Frame} {w : σ} {o : Outcome GuestError σ Value} (ho : o ≠ .exhausted) :
    (∃ k, conclude (fill host k ss (runLoop host k id condition body)) f w = o) ↔
      ∃ k, conclude (fill host k ss
        (eval host k condition >>= Slot.resume host k ⟨.whileLoop id condition body, 0, []⟩))
          f w = o := by
  have hh := Host.Refines.refl host
  have hloop : ∀ k n, ∀ m : ℕ → ℕ, (∀ᶠ b in atTop, n ≤ m b) →
      EvalRefines (fun _ => False) (fun _ => True) Eq
      (repeatWhile (do test host id (← eval host k condition)) (eval host k body) n) fun b =>
      repeatWhile (do test host id (← eval host b condition)) (eval host b body) (m b) := fun k n =>
    repeatWhile_refines (Comp.refines_bind (eval_refines hh k (reads_all _)) fun v =>
      test_refines hh id v) (eval_refines hh k (reads_all _)) n
  simp only [condition_then_loop]
  refine exists_conclude_iff (fun k => ?_) (fun k => ?_) ho
  · refine fill_refines hh k (reads_all_slots ss) (hloop k k _ ?_)
    filter_upwards [eventually_ge_atTop k] with b hb
    omega
  · exact fill_refines hh k (reads_all_slots ss) (hloop k (k + 1) _ (eventually_ge_atTop (k + 1)))

/-- A step that starts no turn of a loop changes nothing of what is left. -/
theorem rest_of_step {host : Host σ} {m m' : Moment σ} (h : Step host m m')
    (hm : ∀ ss id condition body a,
      m' ≠ .enter (ss ++ [⟨.whileLoop id condition body, 0, []⟩]) condition a) (k : Nat) :
    m.rest host k = m'.rest host k := by
  cases h with
  | @firstOperand ss e o os a he =>
    have hw : ∀ id condition body, e ≠ .whileLoop id condition body := by
      rintro id condition body rfl
      obtain ⟨rfl, rfl⟩ : condition = o ∧ [] = os := by simpa [Expr.operands] using he
      exact hm _ _ _ _ _ rfl
    simp only [Moment.rest, Moment.todo, Moment.activation, fill_concat]
    rw [eval_eq_firstOperand host k he hw]
  | again => exact absurd rfl (hm _ _ _ _ _)
  | constant => exact conclude_fill_congr rfl
  | argument => exact conclude_fill_congr rfl
  | readLocal hl =>
    exact conclude_fill_congr (by simp only [eval, readLocal, Moment.activation, hl]; rfl)
  | noArguments => simp [Moment.rest, Moment.todo, Moment.activation, eval, act, evalAll]
  | noParts => exact conclude_fill_congr rfl
  | firstPart =>
    simp only [Moment.rest, Moment.todo, Moment.activation, fill_concat, eval, evalBlock,
      resume_block]
    rfl
  | @nextOperand ss s o v a ho =>
    have hi : s.index + 1 < s.parent.operands.length := (List.getElem?_eq_some_iff.1 ho).1
    simp only [Moment.rest, Moment.todo, Moment.activation, fill_concat, pure_bind]
    rw [resume_operand (Nat.lt_of_succ_lt hi), drop_operands ho, evalAll]
    simp only [bind_assoc, pure_bind]
    congr 3
    funext v'
    rw [resume_operand hi]
    simp
  | @lastOperand ss s v a hi =>
    simp only [Moment.rest, Moment.todo, Moment.activation, fill_concat, pure_bind]
    rw [resume_operand (by omega), hi, List.drop_length, evalAll, pure_bind]
  | @nextPart ss id parts i p v a hp =>
    obtain ⟨hi, rfl⟩ := List.getElem?_eq_some_iff.1 hp
    simp only [Moment.rest, Moment.todo, Moment.activation, fill_concat, pure_bind, resume_block]
    rw [List.drop_eq_getElem_cons hi, evalBlock]
  | @lastPart ss id parts i v a hi =>
    simp only [Moment.rest, Moment.todo, Moment.activation, fill_concat, pure_bind, resume_block,
      hi, List.drop_length, evalBlock]
  | bodyDone =>
    simp only [Moment.rest, Moment.todo, Moment.activation, fill_concat, resume_ifThen, bind_pure]
  | sideDone =>
    simp only [Moment.rest, Moment.todo, Moment.activation, fill_concat, resume_ifElse, bind_pure]
  | writeLocal hl => exact conclude_fill_congr (writeLocal_ok hl)
  | binary ho => exact conclude_fill_congr (by simp only [act_binary, ho]; rfl)
  | unary ho => exact conclude_fill_congr (by simp only [act_unary, ho]; rfl)
  | call hc => exact conclude_fill_congr (by simp only [act, dispatch, Moment.activation, hc]; rfl)
  | returned => rfl
  | thenTaken hv =>
    simp only [Moment.rest, Moment.todo, fill_concat, resume_ifThen, bind_pure]
    exact conclude_fill_congr (by rw [act_ifThen, Comp.bind_done (test_ok host hv)]; rfl)
  | thenSkipped hv =>
    exact conclude_fill_congr (by rw [act_ifThen, Comp.bind_done (test_ok host hv)]; rfl)
  | bodyTaken hv =>
    simp only [Moment.rest, Moment.todo, fill_concat, resume_ifElse, bind_pure]
    exact conclude_fill_congr (by rw [act_ifElse, Comp.bind_done (test_ok host hv)]; rfl)
  | alternativeTaken hv =>
    simp only [Moment.rest, Moment.todo, fill_concat, resume_ifElse, bind_pure]
    exact conclude_fill_congr (by rw [act_ifElse, Comp.bind_done (test_ok host hv)]; rfl)
  | loopTaken hv =>
    simp only [Moment.rest, Moment.todo, fill_concat, resume_whileLoop]
    exact conclude_fill_congr (by rw [act_while, Comp.bind_done (test_ok host hv)]; rfl)
  | loopLeft hv =>
    exact conclude_fill_congr (by rw [act_while, Comp.bind_done (test_ok host hv)]; rfl)

/-- What starts a turn of a loop: the loop itself, or its body when it is
done. -/
theorem rest_before_condition {host : Host σ} {m : Moment σ} {ss : List Slot} {id : ExprId}
    {condition body : Expr} {a : Activation σ}
    (h : Step host m (.enter (ss ++ [⟨.whileLoop id condition body, 0, []⟩]) condition a))
    (k : Nat) : m.rest host k =
    conclude (fill host k ss (runLoop host k id condition body)) a.frame a.world := by
  generalize hm : Moment.enter (ss ++ [⟨.whileLoop id condition body, 0, []⟩]) condition a = m' at h
  have hslot : ∀ {ts : List Slot} {t : Slot}, ss ++ [⟨.whileLoop id condition body, 0, []⟩] = ts ++
      [t] → ts = ss ∧ t = ⟨.whileLoop id condition body, 0, []⟩ := fun h =>
    ⟨(List.append_inj' h rfl).1.symm, (by simpa using (List.append_inj' h rfl).2.symm)⟩
  cases h with
  | firstOperand he =>
    obtain ⟨h1, rfl, rfl⟩ := Moment.enter.inj hm
    obtain ⟨rfl, h2⟩ := hslot h1
    obtain ⟨rfl, -, -⟩ := Slot.mk.inj h2
    rfl
  | again =>
    obtain ⟨h1, rfl, rfl⟩ := Moment.enter.inj hm
    obtain ⟨rfl, h2⟩ := hslot h1
    obtain ⟨⟨rfl, rfl, rfl⟩, -, -⟩ := by simpa using h2
    simp only [Moment.rest, Moment.todo, Moment.activation, fill_concat, pure_bind,
      resume_whileLoop]
  | firstPart => exact absurd (hslot (Moment.enter.inj hm).1).2 (by simp)
  | nextPart => exact absurd (hslot (Moment.enter.inj hm).1).2 (by simp)
  | nextOperand => exact absurd (hslot (Moment.enter.inj hm).1).2 (by simp)
  | thenTaken => exact absurd (hslot (Moment.enter.inj hm).1).2 (by simp)
  | bodyTaken => exact absurd (hslot (Moment.enter.inj hm).1).2 (by simp)
  | alternativeTaken => exact absurd (hslot (Moment.enter.inj hm).1).2 (by simp)
  | loopTaken => exact absurd (hslot (Moment.enter.inj hm).1).2 (by simp)
  | _ => cases hm

/-- A step leaves what is left as it was. -/
theorem rest_iff_of_step {host : Host σ} {m m' : Moment σ} (h : Step host m m')
    {o : Outcome GuestError σ Value} (ho : o ≠ .exhausted) :
    (∃ k, m.rest host k = o) ↔ ∃ k, m'.rest host k = o := by
  by_cases hm : ∃ ss id condition body a,
    m' = .enter (ss ++ [⟨.whileLoop id condition body, 0, []⟩]) condition a
  · obtain ⟨ss, id, condition, body, a, rfl⟩ := hm
    simp only [rest_before_condition h]
    simp only [Moment.rest, Moment.todo, Moment.activation, fill_concat]
    exact exists_loop_iff host ss id condition body ho
  · have he := rest_of_step h fun ss id c b a hb => hm ⟨ss, id, c, b, a, hb⟩
    simp only [he]

theorem fill_stop {host : Host σ} {bound : Nat} {x : Eval σ Value} {a c : Activation σ} {e : Exit}
    (h : x a = .stop e c) (ss : List Slot) : fill host bound ss x a = .stop e c := by
  induction ss with
  | nil => exact h
  | cons s ss ih => rw [fill, Comp.bind_stop ih]

theorem conclude_fill_failed {host : Host σ} {bound : Nat} {x : Eval σ Value} {a c : Activation σ}
    {e : GuestError} (h : x a = .stop (.failed e) c) (ss : List Slot) :
    conclude (fill host bound ss x) a.frame a.world = .stop e c.world := by
  unfold conclude
  rw [show (⟨a.frame, a.world⟩ : Activation σ) = a from rfl, fill_stop h ss]

theorem conclude_fill_returned {host : Host σ} {bound : Nat} {x : Eval σ Value} {a c : Activation σ}
    {v : Value} (h : x a = .stop (.returned v) c) (ss : List Slot) :
    conclude (fill host bound ss x) a.frame a.world = .done v c.world := by
  unfold conclude
  rw [show (⟨a.frame, a.world⟩ : Activation σ) = a from rfl, fill_stop h ss]

theorem conclude_fill_exhausted {host : Host σ} {bound : Nat} {x : Eval σ Value} {a : Activation σ}
    (h : x a = .exhausted) (ss : List Slot) :
    conclude (fill host bound ss x) a.frame a.world = .exhausted := by
  have hf : fill host bound ss x a = .exhausted := by
    induction ss with
    | nil => exact h
    | cons s ss ih => rw [fill, Comp.bind_exhausted ih]
  unfold conclude
  rw [show (⟨a.frame, a.world⟩ : Activation σ) = a from rfl, hf]

/-- At the end of a run nothing is left but its outcome. -/
theorem rest_of_ends {host : Host σ} {m : Moment σ} {o : Outcome GuestError σ Value}
    (h : Ends host m o) (k : Nat) :
    m.rest host k = o := by
  cases h with
  | finished => rfl
  | @returned ss id x v a => exact conclude_fill_returned (a := a) rfl ss
  | @readLocal ss id slot a hl =>
    exact conclude_fill_failed (a := a) (c := a) (by simp only [eval, readLocal, hl]) ss
  | writeLocal hl => exact conclude_fill_failed (writeLocal_error hl) _
  | @binary ss id op l r x y e a ho =>
    exact conclude_fill_failed (a := a) (c := a) (by simp only [act_binary, ho]; rfl) ss
  | @unary ss id op o x e a ho =>
    exact conclude_fill_failed (a := a) (c := a) (by simp only [act_unary, ho]; rfl) ss
  | ifThen hv =>
    exact conclude_fill_failed (by rw [act_ifThen]; exact Comp.bind_stop (test_error host hv)) _
  | ifElse hv =>
    exact conclude_fill_failed (by rw [act_ifElse]; exact Comp.bind_stop (test_error host hv)) _
  | whileLoop hv =>
    exact conclude_fill_failed (by rw [act_while]; exact Comp.bind_stop (test_error host hv)) _
  | @call ss id target es vs e w a hc =>
    exact conclude_fill_failed (a := a) (c := { a with world := w })
      (by simp only [act, dispatch, hc]) ss

/-- Along a run what is left stays as it was. -/
theorem rest_iff_of_steps {host : Host σ} {m m' : Moment σ} (h : ReflTransGen (Step host) m m')
    {o : Outcome GuestError σ Value} (ho : o ≠ .exhausted) :
    (∃ k, m.rest host k = o) ↔ ∃ k, m'.rest host k = o := by
  induction h with
  | refl => rfl
  | tail _ h1 ih => exact ih.trans (rest_iff_of_step h1 ho)

/-! ## Every answer is reached by steps -/

/-- Steps lead from a moment to what a computation in the context `ss` gives. -/
def Gets (host : Host σ) (ss : List Slot) (m : Moment σ) : Outcome Exit (Activation σ) Value → Prop
  | .done v a => ReflTransGen (Step host) m (.value ss v a)
  | .stop (.returned v) a => Runs host m (.done v a.world)
  | .stop (.failed e) a => Runs host m (.stop e a.world)
  | .exhausted => True

theorem Gets.step {host : Host σ} {ss : List Slot} {m m' : Moment σ}
    {o : Outcome Exit (Activation σ) Value} (h : Step host m m') (hg : Gets host ss m' o) :
    Gets host ss m o := by
  match o, hg with
  | .done v a, hg => exact .head h hg
  | .stop (.returned v) a, hg => exact Runs.step h hg
  | .stop (.failed e) a, hg => exact Runs.step h hg
  | .exhausted, _ => trivial

theorem Runs.steps {host : Host σ} {m m' : Moment σ} {o : Outcome GuestError σ Value}
    (h : ReflTransGen (Step host) m m') (hr : Runs host m' o) : Runs host m o := by
  obtain ⟨n, hn, he⟩ := hr
  exact ⟨n, h.trans hn, he⟩

/-- The rule for sequences: what a child gets goes to the rest of its parent. -/
theorem Gets.bind {host : Host σ} {ss ss' : List Slot} {m : Moment σ} {x : Eval σ Value}
    {f : Value → Eval σ Value} {a : Activation σ} (hx : Gets host ss' m (x a))
    (hf : ∀ v a', Gets host ss (.value ss' v a') (f v a')) : Gets host ss m ((x >>= f) a) := by
  rw [Comp.bind_apply]
  generalize x a = o at hx
  match o, hx with
  | .done v a', hx =>
    have h := hf v a'
    dsimp only
    generalize f v a' = o' at h
    match o', h with
    | .done v a, h => exact ReflTransGen.trans hx h
    | .stop (.returned v) a, h => exact Runs.steps hx h
    | .stop (.failed e) a, h => exact Runs.steps hx h
    | .exhausted, _ => trivial
  | .stop (.returned v) a, hx => exact hx
  | .stop (.failed e) a, hx => exact hx
  | .exhausted, _ => trivial

/-- What it takes for an expression: evaluated in any context, it gets what
`eval` gives. -/
def EvalGets (host : Host σ) (k : Nat) (e : Expr) : Prop :=
  ∀ ss a, Gets host ss (.enter ss e a) (eval host k e a)

section Complete

variable {host : Host σ} {k : Nat}

theorem loop_gets {id : ExprId} {condition body : Expr} (hc : EvalGets host k condition)
    (hb : EvalGets host k body) (n : Nat) (ss : List Slot) (a : Activation σ) :
    Gets host ss (.enter (ss ++ [⟨.whileLoop id condition body, 0, []⟩]) condition a)
      (repeatWhile (do test host id (← eval host k condition)) (eval host k body) n a) := by
  induction n generalizing a with
  | zero => trivial
  | succ n ih =>
    rw [repeatWhile_succ, bind_assoc]
    refine Gets.bind (hc _ a) fun v a => ?_
    refine Gets.step (.lastOperand (by simp [Expr.operands])) ?_
    simp only [List.nil_append]
    cases hv : v.condition with
    | error e =>
      rw [Comp.bind_stop (test_error host hv)]
      exact ⟨_, .refl, .whileLoop hv⟩
    | ok taken =>
      rw [Comp.bind_done (test_ok host hv)]
      cases taken with
      | false => exact .single (.loopLeft hv)
      | true =>
        refine Gets.step (.loopTaken hv) (Gets.bind (hb _ _) fun v a => ?_)
        exact Gets.step .again (ih a)

theorem act_gets {e : Expr} (hch : ∀ c ∈ e.children, EvalGets host k c) {vs : List Value}
    (hvs : vs.length = e.operands.length)
    (hne : e.operands ≠ [] ∨ ∃ id target, e = .call id target []) (ss : List Slot)
    (a : Activation σ) :
    Gets host ss (.ready ss e vs a) (act host k e vs a) := by
  cases e with
  | constant => simp [Expr.operands, Expr.children] at hne
  | argument => simp [Expr.operands, Expr.children] at hne
  | readLocal => simp [Expr.operands, Expr.children] at hne
  | block => simp [Expr.operands] at hne
  | writeLocal id slot value =>
    obtain ⟨v, rfl⟩ : ∃ v, vs = [v] := List.length_eq_one_iff.1 hvs
    by_cases hl : slot.toNat < a.frame.locals.length
    · rw [show act host k (.writeLocal id slot value) [v] a = _ from writeLocal_ok hl]
      exact .single (.writeLocal hl)
    · rw [show act host k (.writeLocal id slot value) [v] a = _ from writeLocal_error hl]
      exact ⟨_, .refl, .writeLocal hl⟩
  | binary id op lhs rhs =>
    obtain ⟨x, y, rfl⟩ : ∃ x y, vs = [x, y] := List.length_eq_two.1 hvs
    rw [act_binary]
    cases ho : op.apply x y with
    | ok v => exact .single (.binary ho)
    | error e => exact ⟨_, .refl, .binary ho⟩
  | unary id op x =>
    obtain ⟨x, rfl⟩ : ∃ v, vs = [v] := List.length_eq_one_iff.1 hvs
    rw [act_unary]
    cases ho : op.apply x with
    | ok v => exact .single (.unary ho)
    | error e => exact ⟨_, .refl, .unary ho⟩
  | ifThen id condition body =>
    obtain ⟨v, rfl⟩ : ∃ v, vs = [v] := List.length_eq_one_iff.1 hvs
    rw [act_ifThen]
    cases hv : v.condition with
    | error e => rw [Comp.bind_stop (test_error host hv)]; exact ⟨_, .refl, .ifThen hv⟩
    | ok taken =>
      rw [Comp.bind_done (test_ok host hv)]
      cases taken with
      | false => exact .single (.thenSkipped hv)
      | true =>
        rw [if_pos rfl, ← bind_pure (eval host k body)]
        exact Gets.step (.thenTaken hv)
          (Gets.bind (hch body (by simp [Expr.children]) _ _) fun v a => .single .bodyDone)
  | ifElse id condition body alternative =>
    obtain ⟨v, rfl⟩ : ∃ v, vs = [v] := List.length_eq_one_iff.1 hvs
    rw [act_ifElse]
    cases hv : v.condition with
    | error e => rw [Comp.bind_stop (test_error host hv)]; exact ⟨_, .refl, .ifElse hv⟩
    | ok taken =>
      rw [Comp.bind_done (test_ok host hv)]
      cases taken with
      | false =>
        rw [if_neg Bool.false_ne_true, ← bind_pure (eval host k alternative)]
        exact Gets.step (.alternativeTaken hv)
          (Gets.bind (hch alternative (by simp [Expr.children]) _ _) fun v a => .single .sideDone)
      | true =>
        rw [if_pos rfl, ← bind_pure (eval host k body)]
        exact Gets.step (.bodyTaken hv)
          (Gets.bind (hch body (by simp [Expr.children]) _ _) fun v a => .single .sideDone)
  | whileLoop id condition body =>
    obtain ⟨v, rfl⟩ : ∃ v, vs = [v] := List.length_eq_one_iff.1 hvs
    rw [act_while]
    cases hv : v.condition with
    | error e => rw [Comp.bind_stop (test_error host hv)]; exact ⟨_, .refl, .whileLoop hv⟩
    | ok taken =>
      rw [Comp.bind_done (test_ok host hv)]
      cases taken with
      | false => exact .single (.loopLeft hv)
      | true =>
        refine Gets.step (.loopTaken hv)
          (Gets.bind (hch body (by simp [Expr.children]) _ _) fun v a => ?_)
        exact Gets.step .again (loop_gets (hch condition (by simp [Expr.children]))
          (hch body (by simp [Expr.children])) k ss a)
  | ret id value =>
    obtain ⟨v, rfl⟩ : ∃ v, vs = [v] := List.length_eq_one_iff.1 hvs
    exact ⟨_, .refl, .returned⟩
  | call id target arguments =>
    cases hc : host.call target vs a.world with
    | done v w =>
      rw [show act host k (.call id target arguments) vs a = .done v { a with world := w } by
        simp only [act, dispatch, hc]]
      exact .head (.call hc) (.single .returned)
    | stop e w =>
      rw [show act host k (.call id target arguments) vs a =
        .stop (.failed e) { a with world := w } by
        simp only [act, dispatch, hc]]
      exact ⟨_, .refl, .call hc⟩
    | exhausted =>
      rw [show act host k
        (.call id target arguments) vs a = .exhausted by simp only [act, dispatch, hc]]
      trivial

/-- The operands that are left are evaluated one after the other, and then the
expression acts. -/
theorem operands_get {e : Expr} (hch : ∀ c ∈ e.children, EvalGets host k c) (n : Nat) :
    ∀ (i : Nat) {o : Expr} (pending : List Value), e.operands.length = i + n + 1 →
      e.operands[i]? = some o → pending.length = i → ∀ (ss : List Slot) (a : Activation σ),
      Gets host ss (.enter (ss ++ [⟨e, i, pending⟩]) o a)
        ((eval host k o >>= Slot.resume host k ⟨e, i, pending⟩) a) := by
  induction n with
  | zero =>
    intro i o pending hl ho hp ss a
    have hi : i < e.operands.length := by omega
    refine Gets.bind (hch o (e.operands_subset (List.mem_of_getElem? ho)) _ a) fun v a => ?_
    refine Gets.step (.lastOperand hl.symm) ?_
    rw [resume_operand hi, show i + 1 = e.operands.length by omega,
      List.drop_length, evalAll, pure_bind]
    exact act_gets hch (by simp; omega) (.inl fun h => by simp [h] at hl) ss a
  | succ n ih =>
    intro i o pending hl ho hp ss a
    refine Gets.bind (hch o (e.operands_subset (List.mem_of_getElem? ho)) _ a) fun v a => ?_
    have hi : i + 1 < e.operands.length := by omega
    have ho' : e.operands[i + 1]? = some e.operands[i + 1] := List.getElem?_eq_getElem hi
    refine Gets.step (.nextOperand ho') ?_
    have := ih (i + 1) (pending ++ [v]) (by omega) ho' (by simp [hp]) ss a
    rw [resume_operand (Nat.lt_of_succ_lt hi)]
    dsimp only
    rw [drop_operands ho', evalAll]
    simp only [bind_assoc, pure_bind]
    convert this using 4
    rw [resume_operand hi]
    simp

theorem block_gets {id : ExprId} (parts : List Expr) (hch : ∀ c ∈ parts, EvalGets host k c)
    (n : Nat) :
    ∀ (i : Nat) {p : Expr}, parts.length = i + n + 1 → parts[i]? = some p →
      ∀ (ss : List Slot) (a : Activation σ),
      Gets host ss (.enter (ss ++ [⟨.block id parts, i, []⟩]) p a)
        ((eval host k p >>= evalBlock host k (parts.drop (i + 1))) a) := by
  induction n with
  | zero =>
    intro i p hl hp ss a
    refine Gets.bind (hch p (List.mem_of_getElem? hp) _ a) fun v a => ?_
    rw [show i + 1 = parts.length by omega, List.drop_length, evalBlock]
    exact .single (.lastPart (by omega))
  | succ n ih =>
    intro i p hl hp ss a
    refine Gets.bind (hch p (List.mem_of_getElem? hp) _ a) fun v a => ?_
    have hi : i + 1 < parts.length := by omega
    have hp' : parts[i + 1]? = some parts[i + 1] := List.getElem?_eq_getElem hi
    rw [List.drop_eq_getElem_cons hi, evalBlock]
    exact Gets.step (.nextPart hp') (ih (i + 1) (by omega) hp' ss a)

/-- Evaluation is what the steps from an expression lead to. -/
theorem eval_gets (host : Host σ) (k : Nat) (e : Expr) : EvalGets host k e := by
  induction e using Expr.induction_children with
  | step e hch =>
    intro ss a
    cases he : e.operands with
    | cons o os =>
      by_cases hw : ∃ id condition body, e = .whileLoop id condition body
      · obtain ⟨id, condition, body, rfl⟩ := hw
        obtain ⟨rfl, rfl⟩ : condition = o ∧ [] = os := by simpa [Expr.operands] using he
        refine Gets.step (.firstOperand he) ?_
        simp only [eval]
        exact loop_gets (hch _ (by simp [Expr.children])) (hch _ (by simp [Expr.children])) k ss a
      · rw [eval_eq_firstOperand host k he fun id c b hb => hw ⟨id, c, b, hb⟩]
        exact Gets.step (.firstOperand he)
          (operands_get hch os.length 0 [] (by simp [he]) (by simp [he]) rfl ss a)
    | nil =>
      cases e with
      | constant => exact .single .constant
      | argument => exact .single .argument
      | readLocal id slot =>
        simp only [eval]
        cases hl : a.frame.locals[slot.toNat]? with
        | some v =>
          rw [show readLocal slot.toNat a = .done v a by simp only [readLocal, hl]]; exact .single
            (.readLocal hl)
        | none =>
          rw [show readLocal slot.toNat a =
            .stop (.failed (.internal (.localOutOfRange slot.toNat))) a by
            simp only [readLocal, hl]]
          exact ⟨_, .refl, .readLocal hl⟩
      | block id parts =>
        simp only [eval]
        cases parts with
        | nil => exact .single .noParts
        | cons p ps =>
          rw [evalBlock]
          exact Gets.step .firstPart (block_gets (p :: ps) hch ps.length 0 (by simp) rfl ss a)
      | call id target arguments =>
        obtain rfl : arguments = [] := he
        rw [eval_eq_act host k (.inr ⟨id, target, rfl⟩) (by simp)]
        simp only [Expr.operands, Expr.children, evalAll, pure_bind]
        exact Gets.step .noArguments (act_gets hch rfl (.inr ⟨id, target, rfl⟩) ss a)
      | _ => simp [Expr.operands, Expr.children] at he

end Complete

end Interpreter

end TieredEngine

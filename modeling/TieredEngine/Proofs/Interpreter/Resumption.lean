import Mathlib.Data.List.Induction
import TieredEngine.Proofs.Interpreter.Moments
/-!
# Resumption continues the run

Every moment of a run keeps its place in the body: its context leads down to
its expression, an expression that is about to act has one value for each
operand, and the frame has the routine's arguments and as many locals as the
routine has slots. So a frame suspended at such a moment, which is no more
than an id and a flat stack, says what is left, and `resume_continues` is that
it does.
-/

namespace TieredEngine

namespace Interpreter

open Relation (ReflTransGen)

variable {σ : Type}

/-- The first moment of a run. -/
def Moment.start (r : Routine) (arguments : List Value) (world : σ) : Moment σ :=
  .enter [] r.body ⟨Frame.fresh arguments r.localCount, world⟩

/-! ## Where the moments of a run are -/

/-- The moment is one inside the body `e`. -/
def Moment.Inside (e : Expr) : Moment σ → Prop
  | .enter ss n _ => Within e ss n
  | .ready ss n vs _ => Within e ss n ∧ vs.length = n.operands.length ∧
      (n.operands ≠ [] ∨ ∃ id target, n = .call id target [])
  | .back ss n _ _ => Within e ss n ∧ ∃ id target arguments, n = .call id target arguments
  | .value ss _ _ => ∃ n, Within e ss n

/-- The innermost slot of a context belongs to an expression of the body and
has a child under way. -/
theorem Within.last {e n : Expr} {ss : List Slot} {s : Slot} (h : Within e (ss ++ [s]) n) :
    Within e ss s.parent ∧ s.Holds n := by
  induction ss generalizing e with
  | nil =>
    cases h with
    | under h1 h2 =>
      cases h2
      exact ⟨.here, h1⟩
  | cons t ss ih =>
    cases h with
    | under h1 h2 =>
      obtain ⟨h3, h4⟩ := ih h2
      exact ⟨.under h1 h3, h4⟩

theorem Slot.Holds.index_lt {s : Slot} {n : Expr} (h : s.Holds n) :
    s.index < s.parent.children.length :=
  (List.getElem?_eq_some_iff.1 h.1).1

/-- A child that is an operand waits behind the values of the operands before
it. -/
theorem holds_operand {e o : Expr} {i : Nat} {vs : List Value} (h : e.operands[i]? = some o)
    (hv : vs.length = i) :
    Slot.Holds ⟨e, i, vs⟩ o := by
  have hi : i < e.operands.length := (List.getElem?_eq_some_iff.1 h).1
  refine ⟨by rw [← h]; exact (Expr.getElem?_operands hi).symm, ?_⟩
  rw [if_pos (by simpa [Slot.isOperand] using hi)]
  exact hv

/-- A child that is no operand waits alone. -/
theorem holds_body {e c : Expr} {i : Nat} (h : e.children[i]? = some c)
    (hi : e.operands.length ≤ i) :
    Slot.Holds ⟨e, i, []⟩ c :=
  ⟨h, by rw [if_neg (by simpa [Slot.isOperand] using hi)]; rfl⟩

/-- A step stays inside the body. -/
theorem Moment.Inside.step {host : Host σ} {e : Expr} {m m' : Moment σ} (h : m.Inside e)
    (hs : Step host m m') :
    m'.Inside e := by
  cases hs with
  | constant => exact ⟨_, h⟩
  | argument => exact ⟨_, h⟩
  | readLocal => exact ⟨_, h⟩
  | noParts => exact ⟨_, h⟩
  | firstOperand he => exact Within.concat h rfl (holds_operand (by simp [he]) rfl)
  | noArguments => exact ⟨h, rfl, .inr ⟨_, _, rfl⟩⟩
  | firstPart => exact Within.concat h rfl (holds_body rfl (Nat.zero_le _))
  | @nextOperand ss s o v a ho =>
    obtain ⟨n, hn⟩ := h
    obtain ⟨h1, h2⟩ := hn.last
    have hi : s.index + 1 < s.parent.operands.length := (List.getElem?_eq_some_iff.1 ho).1
    have hp := h2.2
    rw [if_pos (by simp [Slot.isOperand]; omega)] at hp
    exact Within.concat h1 rfl (holds_operand ho (by simp [hp]))
  | @lastOperand ss s v a hi =>
    obtain ⟨n, hn⟩ := h
    obtain ⟨h1, h2⟩ := hn.last
    have hp := h2.2
    rw [if_pos (by simp [Slot.isOperand]; omega)] at hp
    refine ⟨h1, by simp [hp, hi], .inl fun h => ?_⟩
    simp [h] at hi
  | nextPart hp =>
    obtain ⟨n, hn⟩ := h
    exact Within.concat hn.last.1 rfl (holds_body hp (Nat.zero_le _))
  | lastPart =>
    obtain ⟨n, hn⟩ := h
    exact ⟨_, hn.last.1⟩
  | bodyDone =>
    obtain ⟨n, hn⟩ := h
    exact ⟨_, hn.last.1⟩
  | sideDone =>
    obtain ⟨n, hn⟩ := h
    exact ⟨_, hn.last.1⟩
  | again =>
    obtain ⟨n, hn⟩ := h
    exact Within.concat hn.last.1 rfl (holds_operand rfl rfl)
  | writeLocal => exact ⟨_, h.1⟩
  | binary => exact ⟨_, h.1⟩
  | unary => exact ⟨_, h.1⟩
  | thenSkipped => exact ⟨_, h.1⟩
  | loopLeft => exact ⟨_, h.1⟩
  | returned => exact ⟨_, h.1⟩
  | thenTaken => exact Within.concat h.1 rfl (holds_body rfl (by simp [Expr.operands]))
  | bodyTaken => exact Within.concat h.1 rfl (holds_body rfl (by simp [Expr.operands]))
  | alternativeTaken => exact Within.concat h.1 rfl (holds_body rfl (by simp [Expr.operands]))
  | loopTaken => exact Within.concat h.1 rfl (holds_body rfl (by simp [Expr.operands]))
  | call => exact ⟨h.1, _, _, _, rfl⟩

/-- A step keeps the arguments and the number of local slots. -/
theorem frame_of_step {host : Host σ} {m m' : Moment σ} (h : Step host m m') :
    m'.activation.frame.arguments = m.activation.frame.arguments ∧
      m'.activation.frame.locals.length = m.activation.frame.locals.length := by
  cases h with
  | writeLocal => exact ⟨rfl, by simp [Moment.activation, written]⟩
  | _ => exact ⟨rfl, rfl⟩

/-- Every moment of a run is inside the body, with the run's arguments and the
routine's local slots. -/
theorem moment_of_run {host : Host σ} {r : Routine} {arguments : List Value} {world : σ}
    {m : Moment σ} (h : ReflTransGen (Step host) (Moment.start r arguments world) m) :
    m.Inside r.body ∧ m.activation.frame.arguments = arguments ∧
      m.activation.frame.locals.length = r.localCount := by
  induction h with
  | refl => exact ⟨.here, rfl, by simp [Moment.start, Moment.activation, Frame.fresh]⟩
  | tail _ hs ih =>
    obtain ⟨h1, h2, h3⟩ := ih
    obtain ⟨h4, h5⟩ := frame_of_step hs
    exact ⟨h1.step hs, h4.trans h2, h5.trans h3⟩

/-! ## The moments are those of the run -/

/-- A value that goes to a slot gets what is left of the slot's parent. -/
theorem slot_gets (host : Host σ) (k : Nat) {s : Slot} {n : Expr} (hs : s.Holds n) (ss : List Slot)
    (v : Value) (a : Activation σ) :
    Gets host ss (.value (ss ++ [s]) v a) (s.resume host k v a) := by
  obtain ⟨e, i, vs⟩ := s
  have hch : ∀ c ∈ e.children, EvalGets host k c := fun c _ => eval_gets host k c
  have hlt : i < e.children.length := hs.index_lt
  have hp := hs.2
  by_cases hi : i < e.operands.length
  · rw [if_pos (by simpa [Slot.isOperand] using hi)] at hp
    rw [resume_operand hi]
    by_cases hl : i + 1 = e.operands.length
    · refine Gets.step (.lastOperand hl) ?_
      dsimp only
      rw [hl, List.drop_length, evalAll, pure_bind]
      exact act_gets hch (by simp [hp, hl]) (.inl fun h => by simp [h] at hi) ss a
    · have hi' : i + 1 < e.operands.length := by omega
      have ho : e.operands[i + 1]? = some e.operands[i + 1] := List.getElem?_eq_getElem hi'
      refine Gets.step (.nextOperand ho) ?_
      have := operands_get hch (e.operands.length - (i + 2)) (i + 1) (vs ++ [v]) (by omega) ho
        (by simp [hp]) ss a
      dsimp only
      rw [drop_operands ho, evalAll]
      simp only [bind_assoc, pure_bind]
      convert this using 4
      rw [resume_operand hi']
      simp
  · rw [if_neg (by simpa [Slot.isOperand] using hi)] at hp
    obtain rfl : vs = [] := List.length_eq_zero_iff.1 hp
    cases e with
    | block id parts =>
      rw [resume_block]
      by_cases hl : i + 1 = parts.length
      · rw [hl, List.drop_length, evalBlock]
        exact .single (.lastPart hl)
      · have hi' : i + 1 < parts.length := by have : i < parts.length := hlt; omega
        have hq : parts[i + 1]? = some parts[i + 1] := List.getElem?_eq_getElem hi'
        rw [List.drop_eq_getElem_cons hi', evalBlock]
        exact Gets.step (.nextPart hq)
          (block_gets parts hch (parts.length - (i + 2)) (i + 1) (by omega) hq ss a)
    | ifThen id condition body =>
      obtain ⟨j, rfl⟩ : ∃ j, i = j + 1 :=
        Nat.exists_eq_succ_of_ne_zero (by simpa [Expr.operands] using hi)
      rw [resume_ifThen]
      exact .single .bodyDone
    | ifElse id condition body alternative =>
      obtain ⟨j, rfl⟩ : ∃ j, i = j + 1 :=
        Nat.exists_eq_succ_of_ne_zero (by simpa [Expr.operands] using hi)
      rw [resume_ifElse]
      exact .single .sideDone
    | whileLoop id condition body =>
      obtain ⟨j, rfl⟩ : ∃ j, i = j + 1 :=
        Nat.exists_eq_succ_of_ne_zero (by simpa [Expr.operands] using hi)
      rw [resume_whileLoop]
      exact Gets.step .again (loop_gets (eval_gets host k _) (eval_gets host k _) k ss a)
    | _ => exact absurd hlt hi

/-- What a computation gets inside its context, the whole context gets. -/
theorem fill_gets {host : Host σ} {k : Nat} {e n : Expr} {ss : List Slot} (hw : Within e ss n)
    {m : Moment σ} {x : Eval σ Value} {a : Activation σ} (h : Gets host ss m (x a)) :
    Gets host [] m (fill host k ss x a) := by
  induction ss using List.reverseRecOn generalizing n x with
  | nil => exact h
  | append_singleton ss s ih =>
    obtain ⟨h1, h2⟩ := hw.last
    rw [fill_concat]
    exact ih h1 (Gets.bind h fun v a => slot_gets host k h2 ss v a)

/-- Inside its activation, a moment gets what is left there. -/
theorem Moment.gets (host : Host σ) {e : Expr} {m : Moment σ} (h : m.Inside e) (k : Nat) :
    Gets host [] m (m.todo host k m.activation) := by
  cases m with
  | enter ss n a => exact fill_gets h (eval_gets host k n ss a)
  | ready ss n vs a =>
    exact fill_gets h.1 (act_gets (fun c _ => eval_gets host k c) h.2.1 h.2.2 ss a)
  | back ss n v a => exact fill_gets h.1 (.single .returned : Gets host ss _ (Outcome.done v a))
  | value ss v a =>
    obtain ⟨n, hn⟩ := h
    exact fill_gets hn (.refl : Gets host ss _ (Outcome.done v a))

/-- What is left at a moment is what the steps from there lead to. -/
theorem rest_iff_runs {host : Host σ} {e : Expr} {m : Moment σ} (h : m.Inside e)
    {o : Outcome GuestError σ Value} (ho : o ≠ .exhausted) :
    (∃ k, m.rest host k = o) ↔ Runs host m o := by
  constructor
  · rintro ⟨k, rfl⟩
    have hg := m.gets host h k
    unfold Moment.rest conclude at ho ⊢
    rw [show (⟨m.activation.frame, m.activation.world⟩ : Activation σ) = m.activation
      from rfl] at ho ⊢
    generalize m.todo host k m.activation = r at hg ho
    match r, hg with
    | .done v a, hg => exact ⟨_, hg, .finished⟩
    | .stop (.returned v) a, hg => exact hg
    | .stop (.failed e) a, hg => exact hg
    | .exhausted, _ => exact absurd rfl ho
  · rintro ⟨m', hs, he⟩
    exact (rest_iff_of_steps hs ho).2 ⟨0, rest_of_ends he 0⟩

/-- The steps from the first moment are those of the routine: they lead to the
outcome that running it has. -/
theorem execute_iff_runs (host : Host σ) (r : Routine) (arguments : List Value) (world : σ)
    {o : Outcome GuestError σ Value} (ho : o ≠ .exhausted) :
    (∃ k, execute host k r arguments world = o) ↔ Runs host (.start r arguments world) o :=
  rest_iff_runs (m := .start r arguments world) (e := r.body) .here ho

/-! ## Suspended frames -/

/-- The frame suspended at a moment where an expression is about to act or a
call has just returned. -/
def Moment.suspended (target : TargetId) : Moment σ → Option SuspendedFrame
  | .ready ss e vs a =>
    some ⟨target, e.id, .beforeNode, a.frame.arguments, a.frame.locals, pendingOf ss ++ vs⟩
  | .back ss e v a =>
    some ⟨target, e.id, .afterCall, a.frame.arguments, a.frame.locals, pendingOf ss ++ [v]⟩
  | .enter .. | .value .. => none

theorem restoreLocals_fresh {f : Frame} {n : Nat} (h : f.locals.length = n) :
    (Frame.fresh f.arguments n).restoreLocals f.locals = f := by
  simp [Frame.fresh, Frame.restoreLocals, ← h]

/-- A suspended frame resumes with exactly what was left. -/
theorem resume_eq_rest (host : Host σ) (k : Nat) {r : Routine} {m : Moment σ} (h : m.Inside r.body)
    (hl : m.activation.frame.locals.length = r.localCount) {t : TargetId} {s : SuspendedFrame}
    (hs : m.suspended t = some s) : resume host k r s m.activation.world = m.rest host k := by
  have hr : r.body.NumberedFrom 0 := r.numbered
  cases m with
  | enter => cases hs
  | value => cases hs
  | ready ss n vs a =>
    obtain rfl := Option.some.inj hs
    simp only [resume, h.1.path?_eq]
    rw [resumeAlong_eq_fill host k _ h.1 hr, enterBefore_operands host k n h.2.1]
    exact congrArg (conclude _ · a.world) (restoreLocals_fresh hl)
  | back ss n v a =>
    obtain ⟨hw, id, callee, arguments, rfl⟩ := h
    obtain rfl := Option.some.inj hs
    simp only [resume, hw.path?_eq]
    rw [resumeAlong_eq_fill host k _ hw hr, enterAfterCall_result]
    exact congrArg (conclude _ · a.world) (restoreLocals_fresh hl)

/-- Resuming is going on: take any moment of a run of a routine at which an
expression has its operands and is about to act, or a call has just returned,
and suspend the frame there. Running the routine has an outcome exactly if
resuming the frame has it, and it is the one that the steps left lead to. The
outcome has the host's state in it, and the host is any: one that keeps a log
sees the same calls and records. -/
theorem resume_continues (host : Host σ) (r : Routine) (arguments : List Value) (world : σ)
    {m : Moment σ} (hm : ReflTransGen (Step host) (.start r arguments world) m) {target : TargetId}
    {s : SuspendedFrame} (hs : m.suspended target = some s) {o : Outcome GuestError σ Value}
    (ho : o ≠ .exhausted) :
    ((∃ k, resume host k r s m.activation.world = o) ↔ Runs host m o) ∧
      ((∃ k, execute host k r arguments world = o) ↔
          ∃ k, resume host k r s m.activation.world = o) ∧
      s.arguments = arguments := by
  obtain ⟨hi, ha, hl⟩ := moment_of_run hm
  have he : ∀ k, resume host k r s m.activation.world = m.rest host k :=
    fun k => resume_eq_rest host k hi hl hs
  refine ⟨?_, ?_, ?_⟩
  · simp only [he]
    exact rest_iff_runs hi ho
  · simp only [he]
    exact rest_iff_of_steps hm ho
  · cases m <;> simp only [Moment.suspended, Option.some.injEq, reduceCtorEq] at hs <;>
      subst hs <;> exact ha

/-- In `1 + f()`, just after the call has returned 2 and left its mark, the
frame resumes to 3. -/
theorem resume_continues_after_call :
    ∃ k, resume
      (⟨fun t _ log => .done (.int 2) (log ++ [t]), fun _ _ log => log⟩ : Host (List TargetId)) k
      (.ofBody "sum" 0 (.binary 0 .add (.constant 0 (.int 1)) (.call 0 7 [])))
      ⟨3, 2, .afterCall, [], [], [.int 1, .int 2]⟩ [7] = .done (.int 3) [7] := by
  have hm : ReflTransGen
      (Step (⟨fun t _ log => .done (.int 2) (log ++ [t]), fun _ _ log => log⟩ : Host
          (List TargetId)))
      (.start (.ofBody "sum" 0 (.binary 0 .add (.constant 0 (.int 1)) (.call 0 7 []))) [] [])
      (.back [⟨.binary 0 .add (.constant 1 (.int 1)) (.call 2 7 []), 1, [.int 1]⟩]
        (.call 2 7 []) (.int 2)
        ⟨⟨[], []⟩, [7]⟩) := by
    refine .head (.firstOperand rfl) (.head .constant ?_)
    exact .head (.nextOperand rfl) (.head .noArguments (.single (.call rfl)))
  have h := @resume_continues _ _ _ [] [] _ hm 3 _ rfl (.done (.int 3) [7]) (by simp)
  exact h.2.1.1 ⟨0, rfl⟩

end Interpreter

end TieredEngine

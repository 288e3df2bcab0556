import TieredEngine.Proofs.Interpreter.Validation
/-!
# What expressions refuse

An operator or a test fails by itself where one of its operands has the wrong
type: `Expr.refuses_iff`. A frame that is suspended before such an expression,
with the operands on its stack, fails as soon as it is resumed. It does so
with a type error, on every host, and before the host is asked for anything:
`SuspendedFrame.FailsIn.resume_eq`.
-/

namespace TieredEngine

/-- The type that an expression asks of all its operands. -/
def Expr.operandType? : Expr → Option ValueType
  | .binary _ op _ _ => op.operandType
  | .unary _ op _ => some op.operandType
  | .ifThen .. | .ifElse .. | .whileLoop .. => some .bool
  | _ => none

/-- The expression itself fails with an error when its operands have these
values. -/
def Expr.Refuses : Expr → List Value → GuestError → Prop
  | .binary _ op _ _, [x, y], err => op.apply x y = .error err
  | .unary _ op _, [x], err => op.apply x = .error err
  | .ifThen .., [v], err | .ifElse .., [v], err | .whileLoop .., [v], err =>
    v.condition = .error err
  | _, _, _ => False

/-! ## Operands of the wrong type -/

theorem BinaryOp.apply_eq_error_iff {op : BinaryOp} {x y : Value} :
    (∃ err, op.apply x y = .error err) ↔
      ∃ t, op.operandType = some t ∧ (x.type ≠ t ∨ y.type ≠ t) := by
  cases op <;> cases x <;> cases y <;> simp [apply, operandType, Value.type]

theorem UnaryOp.apply_eq_error_iff {op : UnaryOp} {x : Value} :
    (∃ err, op.apply x = .error err) ↔ x.type ≠ op.operandType := by
  cases op <;> cases x <;> simp [apply, operandType, Value.type]

theorem Value.condition_eq_error_iff {v : Value} :
    (∃ err, v.condition = .error err) ↔ v.type ≠ .bool := by
  cases v <;> simp [condition, type]

namespace Expr

variable {e : Expr} {vs : List Value} {err : GuestError}

/-- An expression refuses its operands if one of them has another type than it
asks for. -/
theorem refuses_iff (hl : vs.length = e.operands.length) :
    (∃ err, e.Refuses vs err) ↔ ∃ t, e.operandType? = some t ∧ ∃ v ∈ vs, v.type ≠ t := by
  cases e with
  | binary id op l r =>
    obtain ⟨x, y, rfl⟩ := List.length_eq_two.1 hl
    simpa [Refuses, operandType?] using BinaryOp.apply_eq_error_iff
  | unary id op o =>
    obtain ⟨x, rfl⟩ := List.length_eq_one_iff.1 hl
    simpa [Refuses, operandType?] using UnaryOp.apply_eq_error_iff
  | ifThen id condition body =>
    obtain ⟨v, rfl⟩ := List.length_eq_one_iff.1 hl
    simpa [Refuses, operandType?] using Value.condition_eq_error_iff
  | ifElse id condition body alternative =>
    obtain ⟨v, rfl⟩ := List.length_eq_one_iff.1 hl
    simpa [Refuses, operandType?] using Value.condition_eq_error_iff
  | whileLoop id condition body =>
    obtain ⟨v, rfl⟩ := List.length_eq_one_iff.1 hl
    simpa [Refuses, operandType?] using Value.condition_eq_error_iff
  | _ => simp [Refuses, operandType?]

/-- What an expression refuses is as many values as it has operands, and the
error is a type error. -/
theorem Refuses.kind (h : e.Refuses vs err) :
    vs.length = e.operands.length ∧ err.kind = .typeError := by
  unfold Refuses at h
  split at h
  · exact ⟨rfl, BinaryOp.kind_of_apply h⟩
  · exact ⟨rfl, UnaryOp.kind_of_apply h⟩
  · exact ⟨rfl, Value.kind_of_condition h⟩
  · exact ⟨rfl, Value.kind_of_condition h⟩
  · exact ⟨rfl, Value.kind_of_condition h⟩
  · exact h.elim

/-- An expression that refuses its operands does nothing but fail. -/
theorem Refuses.act_eq {σ : Type} (h : e.Refuses vs err) (host : Host σ) (bound : Nat)
    (a : Interpreter.Activation σ) :
    Interpreter.act host bound e vs a = .stop (.failed err) a := by
  unfold Refuses at h
  split at h
  · rw [Interpreter.act_binary, h]
    rfl
  · rw [Interpreter.act_unary, h]
    rfl
  · rw [Interpreter.act_ifThen]
    exact Comp.bind_stop (Interpreter.test_error host h)
  · rw [Interpreter.act_ifElse]
    exact Comp.bind_stop (Interpreter.test_error host h)
  · rw [Interpreter.act_while]
    exact Comp.bind_stop (Interpreter.test_error host h)
  · exact h.elim

end Expr

/-! ## Frames before such expressions -/

/-- The frame is suspended before an expression of the routine, and the values
on top of its stack are operands that the expression itself refuses. -/
structure SuspendedFrame.FailsIn (f : SuspendedFrame) (r : Routine) (err : GuestError) : Prop where
  mode : f.mode = .beforeNode
  node : ∃ e, r.expr? f.node = some e ∧ e.Refuses (f.stack.drop (r.held f.node)) err

namespace SuspendedFrame.FailsIn

open Interpreter (Within Slot pendingOf)

variable {f : SuspendedFrame} {r : Routine} {err : GuestError}

theorem of_within {ss : List Slot} {e : Expr} {vs : List Value} (hw : Within r.body ss e)
    (hn : f.node = e.id) (hm : f.mode = .beforeNode) (hs : f.stack = pendingOf ss ++ vs)
    (h : e.Refuses vs err) :
    f.FailsIn r err := by
  refine ⟨hm, e, by rw [hn, hw.expr?_eq], ?_⟩
  rwa [hn, hw.held_eq, hs, List.drop_left]

/-- The expression and the slots around it, with the values that they hold
back. -/
theorem exists_within (h : f.FailsIn r err) :
    ∃ ss e vs, Within r.body ss e ∧ e.id = f.node ∧ f.stack = pendingOf ss ++ vs ∧
      e.Refuses vs err := by
  obtain ⟨-, e, he, hrefuses⟩ := h
  have hlt : f.node < r.nodeCount := by
    by_contra hge
    have hp : r.path? f.node = none := if_neg hge
    simp [Routine.expr?, hp] at he
  obtain ⟨ss, n, hw, hn⟩ := Interpreter.exists_within_of_lt hlt
  obtain rfl : n = e := by
    rw [← hn, hw.expr?_eq] at he
    exact Option.some.inj he
  rw [← hn] at hrefuses
  rcases Interpreter.descend hw r.numbered f.stack with ⟨hshort, -⟩ | ⟨ss', rest, hw', -, hstack⟩
  · -- with too few values on the stack, none are left for the operands
    rw [hw.held_eq, List.drop_eq_nil_of_le (Nat.le_of_lt hshort)] at hrefuses
    cases n <;> exact hrefuses.elim
  · rw [hw'.held_eq, hstack, List.drop_left] at hrefuses
    exact ⟨ss', n, rest, hw', hn, hstack, hrefuses⟩

theorem kind (h : f.FailsIn r err) : err.kind = .typeError := by
  obtain ⟨e, -, hrefuses⟩ := h.node
  exact hrefuses.kind.2

/-- Resuming the frame fails, on every host and within every bound, and leaves
the host's state as it was. -/
theorem resume_eq (h : f.FailsIn r err) {σ : Type} (host : Host σ) (bound : Nat) (world : σ) :
    Interpreter.resume host bound r f world = .stop err world := by
  obtain ⟨ss, e, vs, hw, hn, hstack, hrefuses⟩ := h.exists_within
  have hact : Interpreter.enterAt host bound f.mode e vs = Interpreter.act host bound e vs := by
    rw [h.mode]
    exact Interpreter.enterBefore_operands host bound e hrefuses.kind.1
  rw [Interpreter.resume_eq_along host bound (by simp [h.mode]) hw hn, hstack,
    Interpreter.resumeAlong_eq_fill host bound _ hw r.numbered, hact]
  exact Interpreter.conclude_fill_failed (hrefuses.act_eq host bound ⟨_, world⟩) ss

end SuspendedFrame.FailsIn

end TieredEngine

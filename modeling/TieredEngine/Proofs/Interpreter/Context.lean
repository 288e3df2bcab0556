import TieredEngine.Interpreter.Resume
import TieredEngine.Proofs.Computation
import TieredEngine.Proofs.Numbering
/-!
# Evaluation contexts

While an expression is evaluated, every expression around it waits in a
`Slot`: which child is under way and the values of the operands before it. A
list of slots, outermost first, is the whole context, and `fill` is what the
context makes of the innermost computation. `resumeAlong_eq_fill`: descending
a path with a flat stack rebuilds exactly the context whose pending operands
the stack lists.
-/

namespace TieredEngine

namespace Interpreter

variable {σ : Type}

/-- A child under way: its parent, its position among the children, and the
values of the operands before it. -/
structure Slot where
  parent : Expr
  index : Nat
  pending : List Value

namespace Slot

/-- Whether the child is an operand of its parent. -/
def isOperand (s : Slot) : Bool := s.index < s.parent.operands.length

/-- The slot is one where `c` can be under way. -/
def Holds (s : Slot) (c : Expr) : Prop :=
  s.parent.children[s.index]? = some c ∧ s.pending.length = if s.isOperand then s.index else 0

/-- What is left of the parent when the child has a value. -/
def resume (host : Host σ) (bound : Nat) (s : Slot) (v : Value) : Eval σ Value :=
  if s.isOperand then do
    let later ← evalAll host bound (s.parent.operands.drop (s.index + 1))
    act host bound s.parent (s.pending ++ v :: later)
  else
    match s.parent with
    | .block _ parts => evalBlock host bound (parts.drop (s.index + 1)) v
    | .whileLoop id condition body => runLoop host bound id condition body
    | _ => pure v

end Slot

/-- What a context, outermost slot first, makes of the computation inside it. -/
def fill (host : Host σ) (bound : Nat) : List Slot → Eval σ Value → Eval σ Value
  | [], x => x
  | s :: ss, x => fill host bound ss x >>= s.resume host bound

theorem fill_append (host : Host σ) (bound : Nat) (ss ts : List Slot) (x : Eval σ Value) :
    fill host bound (ss ++ ts) x = fill host bound ss (fill host bound ts x) := by
  induction ss with
  | nil => rfl
  | cons s ss ih => rw [List.cons_append, fill, ih, fill]

theorem fill_concat (host : Host σ) (bound : Nat) (ss : List Slot) (s : Slot) (x : Eval σ Value) :
    fill host bound (ss ++ [s]) x = fill host bound ss (x >>= s.resume host bound) :=
  fill_append host bound ss [s] x

/-- The operands that a context holds back, outermost first. -/
def pendingOf (ss : List Slot) : List Value := ss.flatMap Slot.pending

@[simp]
theorem pendingOf_concat (ss : List Slot) (s : Slot) :
    pendingOf (ss ++ [s]) = pendingOf ss ++ s.pending := by
  simp [pendingOf]

/-- `n` stands inside `e`, and the slots lead down to it. -/
inductive Within : Expr → List Slot → Expr → Prop
  | here {e} : Within e [] e
  | under {s c ss n} : s.Holds c → Within c ss n → Within s.parent (s :: ss) n

theorem Within.concat {e n c : Expr} {ss : List Slot} {s : Slot} (h : Within e ss n)
    (hs : s.parent = n) (hc : s.Holds c) : Within e (ss ++ [s]) c := by
  induction h with
  | here => subst hs; exact .under hc .here
  | under h1 _ ih => exact .under h1 (ih hs)

theorem Within.mem_preorder {e n : Expr} {ss : List Slot} (h : Within e ss n) : n ∈ e.preorder := by
  induction h with
  | here => exact Expr.self_mem_preorder _
  | under hs _ ih => exact Expr.preorder_subset_of_mem_children (List.mem_of_getElem? hs.1) ih

/-- In a numbered tree the ids inside a subtree are those of an interval. -/
theorem Within.numbered {e n : Expr} {ss : List Slot} (h : Within e ss n) {k : Nat}
    (hk : e.NumberedFrom k) :
    ∃ j : Nat, k ≤ j ∧ n.NumberedFrom j ∧ j + n.nodeCount ≤ k + e.nodeCount := by
  induction h generalizing k with
  | here => exact ⟨k, Nat.le_refl _, hk, Nat.le_refl _⟩
  | under h1 _ ih =>
    obtain ⟨j, hj, hc, hle⟩ := hk.child h1.1
    obtain ⟨i, hi, hn, hle'⟩ := ih hc
    exact ⟨i, by omega, hn, by omega⟩

/-- The search for an expression's id goes down its context. -/
theorem Within.pathTo_eq {e n : Expr} {ss : List Slot} (h : Within e ss n) {k : Nat}
    (hk : e.NumberedFrom k) :
    e.pathTo n.id = some (ss.map Slot.parent ++ [n]) := by
  induction h generalizing k with
  | here => rw [Expr.pathTo_eq, if_pos rfl]; rfl
  | @under s c ss n h1 h2 ih =>
    obtain ⟨j, hj, hc, -⟩ := hk.child h1.1
    obtain ⟨i, hi, hn, hle⟩ := h2.numbered hc
    have hpos := n.nodeCount_pos
    have e1 := hc.id_eq
    have e2 := hn.id_eq
    rw [hk.pathTo_child h1.1 (by grind) (by grind), ih hc]
    rfl

theorem Within.path?_eq {r : Routine} {n : Expr} {ss : List Slot} (h : Within r.body ss n) :
    r.path? n.id = some (ss.map Slot.parent ++ [n]) := by
  have hr : r.body.NumberedFrom 0 := r.numbered
  obtain ⟨j, -, hn, hle⟩ := h.numbered hr
  have hpos := n.nodeCount_pos
  have := hn.id_eq
  rw [Routine.path?, Routine.nodeCount, if_pos (by grind)]
  exact h.pathTo_eq hr

theorem takeOperands_append (node : ExprId) (vs rest : List Value) :
    takeOperands node vs.length (vs ++ rest) = (pure (vs, rest) : Eval σ _) := by
  induction vs with
  | nil => rfl
  | cons v vs ih =>
    simp only [List.length_cons, List.cons_append, takeOperands, ih]
    rfl

theorem resumeAlong_operand (host : Host σ) (bound : Nat) (enter : Expr → List Value → Eval σ Value)
    {e c : Expr} {position : Nat} (h : e.operands.findIdx? (fun o => o.id = c.id) = some position)
    (path : List Expr) (stack : List Value) :
    resumeAlong host bound enter (e :: c :: path) stack = (do
      let (pending, rest) ← takeOperands e.id position stack
      let v ← resumeAlong host bound enter (c :: path) rest
      let later ← evalAll host bound (e.operands.drop (position + 1))
      act host bound e (pending ++ v :: later)) := by
  cases e <;> simp only [resumeAlong, h]

/-- One enclosing expression of a path: it takes its own operands off the
stack and then does what its slot says. -/
theorem resumeAlong_cons (host : Host σ) (bound : Nat) (enter : Expr → List Value → Eval σ Value)
    {s : Slot} {c : Expr} (hs : s.Holds c) (hn : (s.parent.children.map Expr.id).Nodup)
    (path : List Expr) (stack : List Value) :
    resumeAlong host bound enter (s.parent :: c :: path) (s.pending ++ stack) =
      resumeAlong host bound enter (c :: path) stack >>= s.resume host bound := by
  obtain ⟨hc, hp⟩ := hs
  have hf := Expr.findIdx?_operands hn hc
  by_cases ho : s.isOperand
  · rw [if_pos ho] at hp
    rw [if_pos (by simpa [Slot.isOperand] using ho), ← hp] at hf
    rw [resumeAlong_operand host bound enter hf]
    simp only [takeOperands_append, pure_bind]
    congr 1
    funext v
    rw [Slot.resume, if_pos ho, hp]
  · rw [if_neg ho] at hp
    have hi : ¬ s.index < s.parent.operands.length := by simpa [Slot.isOperand] using ho
    rw [if_neg hi] at hf
    rw [List.length_eq_zero_iff.1 hp, List.nil_append]
    have hr : s.resume host bound = fun v => (match s.parent with
        | .block _ parts => evalBlock host bound (parts.drop (s.index + 1)) v
        | .whileLoop id condition body => runLoop host bound id condition body
        | _ => pure v : Eval σ Value) := by
      funext v
      rw [Slot.resume, if_neg ho]
    rw [hr]
    cases he : s.parent <;> rw [he] at hc hi hn hf <;> simp only [resumeAlong, hf] <;>
      simp only [Expr.children, Expr.operands, List.length_cons, List.length_nil] at hc hi hn
    case block id parts => rw [Expr.findIdx?_id hn hc]
    case ifThen => exact (bind_pure _).symm
    case ifElse => exact (bind_pure _).symm
    case call => exact absurd (List.getElem?_eq_some_iff.1 hc).1 hi
    all_goals
      obtain ⟨hlt, -⟩ := List.getElem?_eq_some_iff.1 hc
      exact absurd hlt hi

/-- Descending a path rebuilds the context whose pending operands the stack
lists. -/
theorem resumeAlong_eq_fill (host : Host σ) (bound : Nat) (enter : Expr → List Value → Eval σ Value)
    {e n : Expr} {ss : List Slot} (h : Within e ss n) {k : Nat} (hk : e.NumberedFrom k)
    (stack : List Value) :
    resumeAlong host bound enter (ss.map Slot.parent ++ [n]) (pendingOf ss ++ stack) =
      fill host bound ss (enter n stack) := by
  induction h generalizing k with
  | here => rfl
  | @under s c ss n h1 h2 ih =>
    obtain ⟨j, -, hc, -⟩ := hk.child h1.1
    have hhead : ∃ path, ss.map Slot.parent ++ [n] = c :: path := by
      cases h2 with
      | here => exact ⟨[], rfl⟩
      | under => exact ⟨_, rfl⟩
    obtain ⟨path, hpath⟩ := hhead
    have ih := ih hc
    rw [hpath] at ih
    rw [List.map_cons, List.cons_append, hpath, pendingOf, List.flatMap_cons, List.append_assoc,
      resumeAlong_cons host bound enter h1 hk.children_nodup, fill, ← ih]
    rfl

theorem enterBefore_operands (host : Host σ) (bound : Nat) (e : Expr) {vs : List Value}
    (h : vs.length = e.operands.length) : enterBefore host bound e vs = act host bound e vs := by
  have : takeOperands e.id e.operands.length vs = (pure (vs, []) : Eval σ _) := by
    rw [← h]; simpa using takeOperands_append e.id vs []
  simp [enterBefore, this, expectEmpty]

theorem enterAfterCall_result (id : ExprId) (target : TargetId) (arguments : List Expr)
    (v : Value) :
    enterAfterCall (.call id target arguments) [v] = (pure v : Eval σ Value) := rfl

end Interpreter

end TieredEngine

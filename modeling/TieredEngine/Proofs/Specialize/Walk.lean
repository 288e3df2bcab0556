import TieredEngine.Proofs.Specialize.Loops
/-!
# Walking through a routine

Specializing an expression leads from the spot where it is entered to the
spots where it has a value. The proof is by induction on the expression; at
every case the specializer and the interpreter take the same steps through the
operands, and the modules before this one have the steps that act.
-/

namespace TieredEngine

namespace Specialize

open Interpreter (Step Slot Within)

-- the equations of the mutual recursion, worked out once for all theorems
-- that use them
attribute [local simp] eval evalAll evalBlock

variable {X : Setting} {whole : Graph}

namespace Scope

variable {s : Scope X} {ss : List NodeSlot} {p : Path} {b : Building} {e o : Expr} {k : ℕ}
    {done : List NodeId} {v : NodeId}

/-! ## Through the operands -/

theorem inside_operand (h : s.Inside ss e) (ho : e.operands[k]? = some o) (hk : done.length = k) :
    s.Inside (ss ++ [⟨e, k, done⟩]) o := by
  intro f
  rw [List.map_append]
  exact (h f).concat rfl (Interpreter.holds_operand ho (by simp [hk]))

theorem inside_body (h : s.Inside ss e) (ho : e.children[k]? = some o)
    (hk : e.operands.length ≤ k) :
    s.Inside (ss ++ [⟨e, k, []⟩]) o := by
  intro f
  rw [List.map_append]
  exact (h f).concat rfl (Interpreter.holds_body ho hk)

/-- An expression enters its first operand. -/
theorem to_first {os : List Expr} (h : e.operands = o :: os) :
    X.To whole (s.tip ss p (.enter e)).2 (s.tip (ss ++ [⟨e, 0, []⟩]) p (.enter o)).2 := by
  refine silent (fun f w => ⟨w, ?_, ?_⟩) (fun x hx => ?_) (List.Subset.refl _)
  · rw [moment_enter_concat]
    exact .firstOperand h
  · rw [loopDepth_concat]
    cases e <;> simp
  · simp only [pendingNodes_concat, List.append_nil, Doing.nodes, List.not_mem_nil, or_false] at hx
    exact mem_nodes.2 (by tauto)

/-- With the value of one operand, the next is entered. -/
theorem to_next (h : e.operands[k + 1]? = some o) :
    X.To whole (s.arrive (ss ++ [⟨e, k, done⟩]) ⟨v, p⟩).2
      (s.tip (ss ++ [⟨e, k + 1, done ++ [v]⟩]) p (.enter o)).2 := by
  refine silent (fun f w => ⟨w, ?_, ?_⟩) (fun x hx => ?_) (List.Subset.refl _)
  · rw [moment_enter_concat, moment_value_concat]
    simpa [NodeSlot.slot] using Step.nextOperand (s := ⟨e, k, done.map f⟩) h
  · rw [loopDepth_concat, loopDepth_concat]
    cases e <;> simp_all [Expr.operands]
  · rw [mem_nodes]
    simp only [pendingNodes_concat, List.mem_append, List.mem_singleton, Doing.nodes,
      List.not_mem_nil, or_false] at hx ⊢
    tauto

/-- With the value of the last operand, the expression is about to act. -/
theorem to_last (h : k + 1 = e.operands.length) :
    X.To whole (s.arrive (ss ++ [⟨e, k, done⟩]) ⟨v, p⟩).2
      (s.tip ss p (.ready e (done ++ [v]))).2 := by
  refine silent (fun f w => ⟨w, ?_, ?_⟩) (fun x hx => ?_) (List.Subset.refl _)
  · rw [moment_value_concat]
    simpa [NodeSlot.slot, Spot.moment, spotOn] using Step.lastOperand (s := ⟨e, k, done.map f⟩) h
  · rw [loopDepth_concat]
    omega
  · rw [mem_nodes]
    simp only [pendingNodes_concat, List.mem_append, List.mem_singleton, Doing.nodes] at hx ⊢
    tauto

/-! ## Expressions -/

/-- Specializing an expression leads from its entry to its value. -/
def Walks (s : Scope X) (e : Expr) : Prop :=
  ∀ ss p b, s.Inside ss e → s.Keeps p →
    s.Builds [s.tip ss p (.enter e)] b (eval s.context e (pendingNodes ss) p)
    (fun o => ∀ a ∈ o, s.Keeps a.path) fun o => o.toList.map (s.arrive ss)

/-- Entering an inlined call leads from the call to its value. -/
def Enters (s : Scope X) : Prop :=
  ∀ ss id target es enter, s.Inside ss (.call id target es) →
    s.context.entries.lookup id = some enter →
    ∀ vs p b, s.Acts ss p (.call id target es) vs →
      s.Builds [s.tip ss p (.ready (.call id target es) vs)] b
      (enter (frameState s.context id .afterCall (pendingNodes ss) p) vs p)
      (fun o => ∀ a ∈ o, s.Keeps a.path) fun o => o.toList.map (s.arrive ss)

/-- An expression with one operand is about to act when the operand has its
value. -/
theorem builds_operand (ho : s.Walks o) (he : e.operands = [o]) (hin : s.Inside ss e)
    (hp : s.Keeps p) :
    s.Builds [s.tip ss p (.enter e)] b (eval s.context o (pendingNodes ss) p)
      (fun r => ∀ a ∈ r, s.Keeps a.path)
      fun r => r.toList.map fun a => s.tip ss a.path (.ready e [a.value]) := by
  have hslot : s.Inside (ss ++ [⟨e, 0, []⟩]) o := inside_operand hin (by simp [he]) rfl
  have h := ho _ p b hslot hp
  rw [pendingNodes_concat, List.append_nil] at h
  refine (h.pre_one fun whole _ => to_first he).post_to (fun _ => rfl) fun a whole => ?_
  exact to_last (by simp [he])

/-- Where control is before some operands of an expression. -/
def beforeOperands (s : Scope X) (ss : List NodeSlot) (e : Expr) (k : ℕ) (done : List NodeId)
    (p : Path) : List Expr → Spot
  | [] => s.spot ss p (.ready e done)
  | o :: _ => s.spot (ss ++ [⟨e, k, done⟩]) p (.enter o)

/-- The operands of an expression from some position on. -/
theorem builds_operands (he : ∀ o ∈ e.operands, s.Walks o) (hin : s.Inside ss e) (es : List Expr) :
    ∀ {k done p b}, e.operands.drop k = es → k ≤ e.operands.length → done.length = k → s.Keeps p →
      s.Builds [(p.control, s.beforeOperands ss e k done p es)] b
        (evalAll s.context es done (pendingNodes ss) p)
        (fun r => ∀ a ∈ r, s.Keeps a.2 ∧ a.1.length = e.operands.length)
        fun r => r.toList.map fun a => s.tip ss a.2 (.ready e a.1) := by
  induction es with
  | nil =>
    intro k done p b hd hk hl hp
    rw [evalAll]
    refine .pure rfl ?_
    have : e.operands.length ≤ k := by simpa using hd
    rintro _ ⟨⟩
    exact ⟨hp, show done.length = _ by omega⟩
  | cons o es ih =>
    intro k done p b hd hk hl hp
    have ho : e.operands[k]? = some o := by
      rw [← List.head?_drop, hd]; rfl
    have hlt : k < e.operands.length := (List.getElem?_eq_some_iff.1 ho).1
    rw [evalAll]
    have h := he o (List.mem_of_getElem? ho) _ p b (inside_operand hin ho hl) hp
    rw [pendingNodes_concat] at h
    refine h.bind fun r b₁ hr => ?_
    obtain _ | ⟨v, p₁⟩ := r
    · exact .pure rfl (by simp)
    have hd' : e.operands.drop (k + 1) = es := by
      rw [← List.drop_drop, hd]; rfl
    refine Builds.pre_one (@ih (k + 1) (done ++ [v]) p₁ b₁ hd' hlt (by simp [hl]) (hr _ rfl))
      fun whole _ => ?_
    cases es with
    | nil =>
      have : e.operands.length ≤ k + 1 := by simpa using hd'
      exact to_last (by omega)
    | cons o' es => exact to_next (by rw [← List.head?_drop, hd']; rfl)

/-- Where control is before some parts of a block. -/
def beforeParts (s : Scope X) (ss : List NodeSlot) (e : Expr) (k : ℕ) (last : NodeId) (p : Path) :
    List Expr → Spot
  | [] => s.spot ss p (.value last)
  | o :: _ => s.spot (ss ++ [⟨e, k, []⟩]) p (.enter o)

/-- The parts of a block from some position on. -/
theorem builds_parts {id : ExprId} {parts : List Expr} (he : ∀ o ∈ parts, s.Walks o)
    (hin : s.Inside ss (.block id parts)) (es : List Expr) :
    ∀ {k last p b}, parts.drop k = es → s.Keeps p →
      s.Builds [(p.control, s.beforeParts ss (.block id parts) k last p es)] b
        (evalBlock s.context es last (pendingNodes ss) p)
        (fun r => ∀ a ∈ r, s.Keeps a.path) fun r => r.toList.map (s.arrive ss) := by
  induction es with
  | nil =>
    intro k last p b _ hp
    rw [evalBlock]
    exact .pure rfl (by simpa using hp)
  | cons o es ih =>
    intro k last p b hd hp
    have ho : parts[k]? = some o := by
      rw [← List.head?_drop, hd]; rfl
    rw [evalBlock]
    have h := he o (List.mem_of_getElem? ho) _ p b
      (inside_body (e := .block id parts) hin ho (Nat.zero_le _)) hp
    rw [pendingNodes_concat, List.append_nil] at h
    refine h.bind fun r b₁ hr => ?_
    obtain _ | ⟨v, p₁⟩ := r
    · exact .pure rfl (by simp)
    have hd' : parts.drop (k + 1) = es := by
      rw [← List.drop_drop, hd]; rfl
    refine Builds.pre_one (@ih (k + 1) v p₁ b₁ hd' (hr _ rfl)) fun whole _ => ?_
    cases es with
    | nil =>
      have hlast : k + 1 = parts.length := by
        have h1 : parts.length ≤ k + 1 := by simpa using hd'
        have h2 : k < parts.length := (List.getElem?_eq_some_iff.1 ho).1
        omega
      refine silent (fun f w => ⟨w, ?_, by simp⟩) (fun x hx => ?_) (List.Subset.refl _)
      · rw [moment_value_concat]
        exact .lastPart hlast
      · rw [mem_nodes]
        simp only [pendingNodes_concat, List.append_nil] at hx ⊢
        tauto
    | cons o' es =>
      refine silent (fun f w => ⟨w, ?_, by simp⟩) (fun x hx => ?_) (List.Subset.refl _)
      · rw [moment_value_concat, moment_enter_concat]
        exact .nextPart (by rw [← List.head?_drop, hd']; rfl)
      · rw [mem_nodes]
        simp only [pendingNodes_concat, List.append_nil, Doing.nodes, List.not_mem_nil,
          or_false] at hx ⊢
        tauto

/-! ## The cases of an expression -/

theorem walks_constant (id : ExprId) (v : Value) : s.Walks (.constant id v) := by
  intro ss p b _ hp
  rw [eval]
  refine Builds.pre_one (T := s.spot ss p (.literal v)) ?_ fun whole _ => ?_
  · exact (builds_constant v).bind fun id b₁ _ => .pure rfl (by simpa using hp)
  · exact silent (fun f w => ⟨w, .constant, Nat.le_refl _⟩)
      (fun x hx => mem_nodes.2 (by simp [Doing.nodes] at hx; tauto)) (List.Subset.refl _)

theorem walks_argument (id : ExprId) (index : UInt64) : s.Walks (.argument id index) := by
  intro ss p b _ hp
  rw [eval]
  cases harg : atWord? s.context.arguments index with
  | some v =>
    refine Builds.pre_one (T := s.spot ss p (.value v)) (.pure rfl (by simpa using hp))
      fun whole _ => ?_
    refine silent (fun f w => ⟨w, ?_, Nat.le_refl _⟩) (fun x hx => mem_nodes.2 ?_)
      (List.Subset.refl _)
    · have hstep : Step X.host
          ((s.spotOn p.facts ss p (.enter (.argument id index))).moment f w) _ := .argument
      simpa [Frame.argument, Spot.moment, NodeFrame.activation, spotOn, Scope.frame, atWord?_map,
        harg] using hstep
    · simp only [Doing.nodes, List.mem_singleton] at hx
      rcases hx with hx | hx | rfl
      · exact .inr (.inl hx)
      · exact .inr (.inr (.inl hx))
      · exact .inl (mem_of_atWord? harg)
  | none =>
    refine Builds.pre_one (T := s.spot ss p (.literal .null)) ?_ fun whole _ => ?_
    · exact (builds_constant .null).bind fun id b₁ _ => .pure rfl (by simpa using hp)
    refine silent (fun f w => ⟨w, ?_, Nat.le_refl _⟩)
      (fun x hx => mem_nodes.2 (by simp [Doing.nodes] at hx; tauto)) (List.Subset.refl _)
    have hstep : Step X.host ((s.spotOn p.facts ss p (.enter (.argument id index))).moment f w) _ :=
      .argument
    simpa [Frame.argument, Spot.moment, NodeFrame.activation, spotOn, Scope.frame, atWord?_map,
      harg] using hstep

theorem walks_readLocal (id : ExprId) (slot : UInt64) : s.Walks (.readLocal id slot) := by
  intro ss p b _ hp
  rw [eval]
  cases hl : p.locals[slot.toNat]? with
  | none => exact .throw _
  | some v =>
    refine Builds.pre_one (T := s.spot ss p (.value v)) (.pure rfl (by simpa using hp))
      fun whole _ => ?_
    refine silent (fun f w => ⟨w, .readLocal ?_, Nat.le_refl _⟩) (fun x hx => mem_nodes.2 ?_)
      (List.Subset.refl _)
    · simp [NodeFrame.activation, spotOn, Scope.frame, hl]
    · simp only [Doing.nodes, List.mem_singleton] at hx
      rcases hx with hx | hx | rfl
      · exact .inr (.inl hx)
      · exact .inr (.inr (.inl hx))
      · exact .inr (.inl (List.mem_of_getElem? hl))

theorem walks_writeLocal {id : ExprId} {slot : UInt64} (ho : s.Walks o) :
    s.Walks (.writeLocal id slot o) := by
  intro ss p b hin hp
  rw [eval]
  refine (builds_operand ho rfl hin hp).bind fun r b₁ hr => ?_
  obtain _ | ⟨v, p₁⟩ := r
  · exact .pure rfl (by simp)
  dsimp only
  split
  · rename_i hslot
    have hk : s.Keeps { p₁ with locals := p₁.locals.set slot.toNat v } := by
      have : p₁.locals.length = _ := hr _ rfl
      simpa [Keeps] using this
    refine Builds.pre_one
      (T := s.spot ss { p₁ with locals := p₁.locals.set slot.toNat v } (.value v))
      (.pure rfl (by simpa using hk)) fun whole _ => ?_
    refine silent (fun f w => ⟨w, ?_, Nat.le_refl _⟩) (fun x hx => mem_nodes.2 ?_)
      (List.Subset.refl _)
    · have hstep : Step X.host
          ((s.spotOn p₁.facts ss p₁ (.ready (.writeLocal id slot o) [v])).moment f w) _ :=
        .writeLocal (by simpa [NodeFrame.activation, spotOn, Scope.frame] using hslot)
      simpa [Interpreter.written, Spot.moment, spotOn, Scope.frame, NodeFrame.slots,
        NodeFrame.activation, List.map_set] using hstep
    · simp only [Doing.nodes, List.mem_singleton] at hx ⊢
      rcases hx with hx | hx | rfl
      · rcases List.mem_or_eq_of_mem_set hx with hx | rfl
        · exact .inr (.inl hx)
        · exact .inr (.inr (.inr (.inl rfl)))
      · exact .inr (.inr (.inl hx))
      · exact .inr (.inr (.inr (.inl rfl)))
  · exact .throw _

theorem walks_binary {id : ExprId} {op : BinaryOp} {l r : Expr} (hl : s.Walks l) (hr : s.Walks r) :
    s.Walks (.binary id op l r) := by
  intro ss p b hin hp
  rw [eval]
  have hleft :=
    hl (ss ++ [⟨.binary id op l r, 0, []⟩]) p b (inside_operand hin (by rfl) (by rfl)) hp
  rw [pendingNodes_concat, List.append_nil] at hleft
  refine (hleft.pre_one fun whole _ => to_first rfl).bind fun a b₁ ha => ?_
  obtain _ | ⟨x, p₁⟩ := a
  · exact .pure rfl (by simp)
  have hright :=
    hr (ss ++ [⟨.binary id op l r, 1, [x]⟩]) p₁ b₁ (inside_operand hin (by rfl) (by rfl)) (ha _ rfl)
  rw [pendingNodes_concat] at hright
  refine (hright.pre_one fun whole _ => to_next (k := 0) rfl).bind fun a b₂ ha₂ => ?_
  obtain _ | ⟨y, p₂⟩ := a
  · exact .pure rfl (by simp)
  refine Builds.pre_one (T := s.spot ss p₂ (.ready (.binary id op l r) [x, y])) ?_
    fun whole _ => to_last rfl
  exact builds_binary ⟨hin, ha₂ _ rfl, rfl, .inl (by simp [Expr.operands, Expr.children])⟩

theorem walks_unary {id : ExprId} {op : UnaryOp} (ho : s.Walks o) : s.Walks (.unary id op o) := by
  intro ss p b hin hp
  rw [eval]
  refine (builds_operand ho rfl hin hp).bind fun r b₁ hr => ?_
  obtain _ | ⟨v, p₁⟩ := r
  · exact .pure rfl (by simp)
  exact builds_unary ⟨hin, hr _ rfl, rfl, .inl (by simp [Expr.operands, Expr.children])⟩

theorem walks_ret {id : ExprId} (ho : s.Walks o) : s.Walks (.ret id o) := by
  intro ss p b hin hp
  rw [eval]
  refine (builds_operand ho rfl hin hp).bind fun r b₁ hr => ?_
  obtain _ | ⟨v, p₁⟩ := r
  · exact .pure rfl (by simp)
  exact builds_return

theorem walks_block {id : ExprId} {parts : List Expr} (he : ∀ o ∈ parts, s.Walks o) :
    s.Walks (.block id parts) := by
  intro ss p b hin hp
  rw [eval]
  cases parts with
  | nil =>
    refine Builds.pre_one (T := s.spot ss p (.literal .null)) ?_ fun whole _ => ?_
    · refine (builds_constant .null).bind fun v b₁ _ => ?_
      exact builds_parts he hin [] (k := 0) rfl hp
    · exact silent (fun f w => ⟨w, .noParts, Nat.le_refl _⟩)
        (fun x hx => mem_nodes.2 (by simp [Doing.nodes] at hx; tauto)) (List.Subset.refl _)
  | cons o os =>
    refine Builds.pre_one (T := s.spot (ss ++ [⟨.block id (o :: os), 0, []⟩]) p (.enter o)) ?_
      fun whole _ => ?_
    · exact builds_unused.bind fun v b₁ _ => builds_parts he hin (o :: os) (k := 0) rfl hp
    · refine silent (fun f w => ⟨w, ?_, by simp⟩) (fun x hx => mem_nodes.2 ?_) (List.Subset.refl _)
      · rw [moment_enter_concat]
        exact .firstPart
      · simp only [pendingNodes_concat, List.append_nil, Doing.nodes, List.not_mem_nil,
          or_false] at hx
        tauto

/-- The body of a conditional gives the conditional its value. -/
theorem walks_side (ho : s.Walks o) (hin : s.Inside ss e) (hk : e.children[k + 1]? = some o)
    (he : (∃ id condition body, e = .ifThen id condition body) ∨
      ∃ id condition body alternative, e = .ifElse id condition body alternative) (hp : s.Keeps p) :
    s.Builds [s.tip (ss ++ [⟨e, k + 1, []⟩]) p (.enter o)] b (eval s.context o (pendingNodes ss) p)
      (fun r => ∀ a ∈ r, s.Keeps a.path) fun r => r.toList.map (s.arrive ss) := by
  have hlen : e.operands.length ≤ k + 1 := by
    obtain ⟨_, _, _, rfl⟩ | ⟨_, _, _, _, rfl⟩ := he <;> simp [Expr.operands]
  have h := ho _ p b (inside_body hin hk hlen) hp
  rw [pendingNodes_concat, List.append_nil] at h
  refine h.post_to (fun _ => rfl) fun a whole =>
    silent (fun f w => ⟨w, ?_, ?_⟩) (fun x hx => ?_) (List.Subset.refl _)
  · rw [moment_value_concat]
    obtain ⟨_, _, _, rfl⟩ | ⟨_, _, _, _, rfl⟩ := he
    · exact .bodyDone
    · exact .sideDone
  · rw [loopDepth_concat]
    omega
  · rw [mem_nodes]
    simp only [pendingNodes_concat, List.append_nil] at hx ⊢
    tauto

theorem walks_ifThen {id : ExprId} {condition body : Expr} (hc : s.Walks condition)
    (hbody : s.Walks body) :
    s.Walks (.ifThen id condition body) := by
  intro ss p b hin hp
  rw [eval]
  refine (builds_operand hc rfl hin hp).bind fun r b₁ hr => ?_
  obtain _ | ⟨v, p₁⟩ := r
  · exact .pure rfl (by simp)
  have hacts : s.Acts ss p₁ (.ifThen id condition body) [v] :=
    ⟨hin, hr _ rfl, rfl, .inl (by simp [Expr.operands])⟩
  refine builds_conditional hacts trivial (fun p b hp => ?_) fun p b hp => ?_
  · exact walks_side hbody hin (by rfl) (.inl ⟨_, _, _, rfl⟩) hp
  · exact (builds_constant .null).bind fun v b₂ _ => .pure rfl (by simpa using hp)

theorem walks_ifElse {id : ExprId} {condition body alternative : Expr} (hc : s.Walks condition)
    (hbody : s.Walks body) (halt : s.Walks alternative) :
    s.Walks (.ifElse id condition body alternative) := by
  intro ss p b hin hp
  rw [eval]
  refine (builds_operand hc rfl hin hp).bind fun r b₁ hr => ?_
  obtain _ | ⟨v, p₁⟩ := r
  · exact .pure rfl (by simp)
  have hacts : s.Acts ss p₁ (.ifElse id condition body alternative) [v] :=
    ⟨hin, hr _ rfl, rfl, .inl (by simp [Expr.operands])⟩
  refine builds_conditional hacts trivial (fun p b hp => ?_) fun p b hp => ?_
  · exact walks_side hbody hin (by rfl) (.inr ⟨_, _, _, _, rfl⟩) hp
  · exact walks_side halt hin (by rfl) (.inr ⟨_, _, _, _, rfl⟩) hp

theorem walks_whileLoop {id : ExprId} {condition body : Expr} (hc : s.Walks condition)
    (hbody : s.Walks body) :
    s.Walks (.whileLoop id condition body) := by
  intro ss p b hin hp
  rw [eval]
  refine builds_while hp hin (fun p b hp => ?_) fun p b hp => ?_
  · have h :=
      hc (ss ++ [conditionSlot id condition body]) p b (inside_operand hin (by rfl) (by rfl)) hp
    rw [pendingNodes_concat, conditionSlot, List.append_nil] at h
    exact h.post_to (fun _ => rfl) fun a whole => to_last rfl
  · have h :=
      hbody (ss ++ [bodySlot id condition body]) p b (inside_body hin (by rfl) (Nat.le_refl _)) hp
    rwa [pendingNodes_concat, bodySlot, List.append_nil] at h

theorem walks_call {id : ExprId} {target : TargetId} {es : List Expr} (hent : s.Enters)
    (he : ∀ o ∈ es, s.Walks o) :
    s.Walks (.call id target es) := by
  intro ss p b hin hp
  rw [eval]
  have hargs :=
    @builds_operands X s ss (.call id target es) he hin es 0 [] p b rfl (Nat.zero_le _) rfl hp
  refine (hargs.pre_one fun whole _ => ?_).bind fun r b₁ hr => ?_
  · cases es with
    | nil =>
      exact silent (fun f w => ⟨w, .noArguments, Nat.le_refl _⟩)
        (fun x hx => mem_nodes.2 (by simp [Doing.nodes] at hx; tauto)) (List.Subset.refl _)
    | cons o os => exact to_first rfl
  obtain _ | ⟨vs, p₁⟩ := r
  · exact .pure rfl (by simp)
  obtain ⟨hp₁, hlen⟩ := hr _ rfl
  have hacts : s.Acts ss p₁ (.call id target es) vs := by
    refine ⟨hin, hp₁, hlen, ?_⟩
    cases es with
    | nil => exact .inr ⟨_, _, rfl⟩
    | cons o os => exact .inl (by simp [Expr.operands, Expr.children])
  dsimp only
  cases hl : s.context.entries.lookup id with
  | some enter => exact hent ss id target es enter hin hl vs p₁ b₁ hacts
  | none => exact builds_invoke hacts

/-- Specializing an expression leads from its entry to its value. -/
theorem walks (hent : s.Enters) : ∀ e, s.Walks e := by
  refine Expr.induction_children fun e ih => ?_
  cases e with
  | constant id v => exact walks_constant id v
  | argument id index => exact walks_argument id index
  | readLocal id slot => exact walks_readLocal id slot
  | writeLocal id slot o => exact walks_writeLocal (ih o (by simp [Expr.children]))
  | binary id op l r =>
    exact walks_binary (ih l (by simp [Expr.children])) (ih r (by simp [Expr.children]))
  | unary id op o => exact walks_unary (ih o (by simp [Expr.children]))
  | block id parts => exact walks_block ih
  | ifThen id condition body =>
    exact walks_ifThen (ih condition (by simp [Expr.children])) (ih body (by simp [Expr.children]))
  | ifElse id condition body alternative =>
    exact walks_ifElse (ih condition (by simp [Expr.children])) (ih body (by simp [Expr.children]))
      (ih alternative (by simp [Expr.children]))
  | whileLoop id condition body =>
    exact walks_whileLoop (ih condition (by simp [Expr.children]))
      (ih body (by simp [Expr.children]))
  | ret id o => exact walks_ret (ih o (by simp [Expr.children]))
  | call id target es => exact walks_call hent ih

end Scope

end Specialize

end TieredEngine

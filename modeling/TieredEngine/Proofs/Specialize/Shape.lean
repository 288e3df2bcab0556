import TieredEngine.Proofs.Engine.Preservation
import TieredEngine.Proofs.Lookup
import TieredEngine.Proofs.Specialize.Turns
/-!
# The graphs that specialization makes

Specializing an expression goes on from any path on which its routine has what
it uses: `evaluates_eval`. A whole routine becomes a sound graph, where
inlined sites may be entered in any way (`sound_of_specialize`), and
`error_of_specialize` lists why it may become none.
-/

namespace TieredEngine

namespace Specialize

open TieredEngine.Graph

variable {fails : CompileError → Prop} {base : Graph} {slots : ℕ} {p : Path} {b : Building}
    {q : NodeId} {c : Context} {stack : List NodeId}

/-! ## Expressions -/

/-- A routine does not have the slot. -/
inductive MissesSlot (slot : UInt64) : CompileError → Prop
  | read {routine} : MissesSlot slot (.evaluation routine (.readOutOfRange slot.toNat))
  | write {routine} : MissesSlot slot (.evaluation routine (.writeOutOfRange slot.toNat))

/-- The local slots that the expression touches are below the bound, or may be
missed. -/
def SlotsBelow (fails : CompileError → Prop) (slots : ℕ) (e : Expr) : Prop :=
  ∀ x ∈ e.preorder, ∀ slot, x.slot? = some slot → slot.toNat < slots ∨
    ∀ error, MissesSlot slot error → fails error

theorem SlotsBelow.child {e o : Expr} (h : SlotsBelow fails slots e) (ho : o ∈ e.children) :
    SlotsBelow fails slots o :=
  fun x hx => h x (Expr.preorder_subset_of_mem_children ho hx)

/-- Specializing the expression goes on from a path. -/
def Specializes (fails : CompileError → Prop) (c : Context) (slots : ℕ) (e : Expr) : Prop :=
  ∀ base stack p b, Stage c b.graph slots p stack →
    Evaluates fails base slots p b (eval c e stack p)

/-- So does entering an inlined call. -/
def Context.Enters (fails : CompileError → Prop) (c : Context) (slots : ℕ) : Prop :=
  ∀ id enter, c.entries.lookup id = some enter → ∀ base stack p b args,
    Stage c b.graph slots p stack → (∀ x ∈ args, b.graph.Available p.control x) →
    Evaluates fails base slots p b (enter (frameState c id .afterCall stack p) args p)

theorem evaluates_evalBlock {es : List Expr} (he : ∀ e ∈ es, Specializes fails c slots e) :
    ∀ {last : NodeId} {p : Path} {b : Building}, Stage c b.graph slots p stack →
      b.graph.Available p.control last →
      Evaluates fails base slots p b (evalBlock c es last stack p) := by
  induction es with
  | nil =>
    intro last p b h hl
    rw [evalBlock]
    exact evaluates_pure h.ready hl rfl
  | cons e es ih =>
    intro last p b h hl
    rw [evalBlock]
    refine Evaluates.bind (he e List.mem_cons_self _ _ _ _ h) rfl fun a b₁ hkept ha => ?_
    exact ih (fun e' he' => he e' (List.mem_cons_of_mem _ he'))
      ((h.kept hkept).move ha.toReady) ha.value

/-- Operands are evaluated one after the other, and the earlier ones can still
be read. -/
theorem grows_evalAll {es : List Expr} (he : ∀ e ∈ es, Specializes fails c slots e) :
    ∀ {done : List NodeId} {p : Path} {b : Building}, Stage c b.graph slots p (stack ++ done) →
      Grows fails base p.control [p.control] b (evalAll c es done stack p)
        (fun g o => ∀ r ∈ o, r.2.Ready g p.control slots ∧ ∀ x ∈ r.1, g.Available r.2.control x)
        fun o => o.toList.map fun r => r.2.control := by
  induction es with
  | nil =>
    intro done p b h
    rw [evalAll]
    refine .pure rfl ?_
    rintro _ ⟨⟩
    exact ⟨h.ready, fun x hx => h.pending x (List.mem_append_right _ hx)⟩
  | cons e es ih =>
    intro done p b h
    rw [evalAll]
    refine Grows.bind (he e List.mem_cons_self base _ _ _ h) fun o b₁ hkept ho => ?_
    cases o with
    | none => exact .pure rfl (by simp)
    | some a =>
      have ha : a.Ready b₁.graph p.control slots := ho a rfl
      have h₁ : Stage c b₁.graph slots a.path (stack ++ (done ++ [a.value])) := by
        rw [← List.append_assoc]
        exact ((h.kept hkept).move ha.toReady).with (by simpa using ha.value)
      have hrest :=
        @ih (fun e' he' => he e' (List.mem_cons_of_mem _ he')) (done ++ [a.value]) a.path b₁ h₁
      refine (hrest.after ha.here ha.dominated).imp (fun g o hk ho r hr => ?_) fun _ _ _ =>
        List.Perm.refl _
      exact ⟨(ho r hr).1.after (hk.dominates _ _ ha.here ha.dominated), (ho r hr).2⟩

/-- An expression with one operand acts on the operand's value. -/
theorem evaluates_operand {o : Expr} {f : Option Arrival → Build (Option Arrival)}
    (ho : Specializes fails c slots o) (h : Stage c b.graph slots p stack)
    (hnone : f none = pure none)
    (hf : ∀ a b₁, Stage c b₁.graph slots a.path stack → b₁.graph.Available a.path.control a.value →
      Evaluates fails base slots a.path b₁ (f (some a))) : Evaluates fails base slots p b
        (eval c o stack p >>= f) :=
  Evaluates.bind (ho _ _ _ _ h) hnone fun a b₁ hkept ha =>
    hf a b₁ ((h.kept hkept).move ha.toReady) ha.value

/-- Specializing an expression goes on from every path. -/
theorem evaluates_eval (hent : c.Enters fails slots) :
    ∀ e, SlotsBelow fails slots e → Specializes fails c slots e := by
  refine Expr.induction_children fun e ih hslots => ?_
  replace ih : ∀ o ∈ e.children, Specializes fails c slots o :=
    fun o ho => ih o ho (hslots.child ho)
  have hself := hslots e (Expr.self_mem_preorder e)
  intro base stack p b h
  cases e with
  | constant id v =>
    rw [eval]
    exact evaluates_constant h v
  | argument id index =>
    rw [eval]
    split
    · exact evaluates_pure h.ready (h.arguments _ (mem_of_atWord? ‹_›)) rfl
    · exact evaluates_constant h .null
  | readLocal id slot =>
    rw [eval]
    split
    · exact evaluates_pure h.ready (h.locals _ (List.mem_of_getElem? ‹_›)) rfl
    · rename_i hnone
      rw [List.getElem?_eq_none_iff, h.slots] at hnone
      exact Grows.throw ((hself slot rfl).resolve_left (Nat.not_lt.2 hnone) _ .read)
  | writeLocal id slot o =>
    rw [eval]
    refine evaluates_operand (ih o (by simp [Expr.children])) h rfl fun a b₁ h₁ ha => ?_
    dsimp only
    split
    · refine evaluates_pure ⟨h₁.here, .refl _, fun x hx => ?_, by simpa using h₁.slots⟩ ha rfl
      rcases List.mem_or_eq_of_mem_set hx with hx | rfl
      · exact h₁.locals x hx
      · exact ha
    · rename_i hslot
      rw [h₁.slots] at hslot
      exact Grows.throw ((hself slot rfl).resolve_left hslot _ .write)
  | binary id op l r =>
    rw [eval]
    refine Evaluates.bind (ih l (by simp [Expr.children]) _ _ _ _ h) rfl fun x b₁ hk₁ hx => ?_
    have h₁ := (h.kept hk₁).move hx.toReady
    have hfull : Stage c b₁.graph slots x.path (stack ++ [x.value]) :=
      h₁.with (by simpa using hx.value)
    refine Evaluates.bind (ih r (by simp [Expr.children]) _ _ _ _ hfull) rfl fun y b₂ hk₂ hy => ?_
    exact evaluates_emitBinary ((h₁.kept hk₂).move hy.toReady) op
      ((hk₂.available _ _ hx.here hx.value).dominated hy.dominated) hy.value
  | unary id op o =>
    rw [eval]
    exact evaluates_operand (ih o (by simp [Expr.children])) h rfl fun a b₁ h₁ ha =>
      evaluates_emitUnary h₁ op ha
  | block id parts =>
    rw [eval]
    exact Grows.bind (grows_constant .null) fun v b₁ hk hv =>
      evaluates_evalBlock ih (h.kept hk) (hv _)
  | ifThen id condition body =>
    rw [eval]
    refine evaluates_operand (ih condition (by simp [Expr.children])) h rfl fun a b₁ h₁ ha => ?_
    exact evaluates_conditional h₁ ha (fun p' b' h' => ih body (by simp [Expr.children]) _ _ _ _ h')
      fun p' b' h' => evaluates_constant h' .null
  | ifElse id condition body alternative =>
    rw [eval]
    refine evaluates_operand (ih condition (by simp [Expr.children])) h rfl fun a b₁ h₁ ha => ?_
    exact evaluates_conditional h₁ ha (fun p' b' h' => ih body (by simp [Expr.children]) _ _ _ _ h')
      fun p' b' h' => ih alternative (by simp [Expr.children]) _ _ _ _ h'
  | whileLoop id condition body =>
    rw [eval]
    exact evaluates_while h (fun base p' b' h' => ih condition (by simp [Expr.children]) _ _ _ _ h')
      fun base p' b' h' => ih body (by simp [Expr.children]) _ _ _ _ h'
  | ret id o =>
    rw [eval]
    exact evaluates_operand (ih o (by simp [Expr.children])) h rfl fun a b₁ h₁ ha =>
      evaluates_recordReturn h₁ ha
  | call id target es =>
    rw [eval]
    refine Grows.bind (grows_evalAll ih
      (show Stage c b.graph slots p (stack ++ []) by simpa using h)) fun o b₁ hk ho => ?_
    cases o with
    | none => exact grows_ended rfl
    | some r =>
      obtain ⟨args, p₁⟩ := r
      have hr : p₁.Ready b₁.graph p.control slots ∧ ∀ x ∈ args, b₁.graph.Available p₁.control x :=
        ho _ rfl
      have h₁ := (h.kept hk).move hr.1
      refine Evaluates.from ?_ hr.1
      dsimp only
      cases hl : c.entries.lookup id with
      | some enter => exact hent id enter hl base stack p₁ b₁ args h₁ hr.2
      | none => exact evaluates_emitInvoke h₁ hr.2

/-! ## Routines -/

theorem returns_of_join {arrivals : List Arrival} {o : Option Arrival} {b' : Building}
    (h : (join arrivals).run b = .ok (o, b')) : b'.returns = b.returns := by
  unfold join at h
  split at h
  · obtain ⟨-, rfl⟩ := run_pure h
    rfl
  · obtain ⟨-, rfl⟩ := run_pure h
    rfl
  · obtain ⟨merge, b₁, h1, h2⟩ := run_bind h
    obtain ⟨-, rfl⟩ := run_addNode h1
    obtain ⟨value, b₂, h3, h4⟩ := run_bind h2
    obtain ⟨hr₂, hjoined⟩ := (Joined.refl merge _).concat h3
    obtain ⟨locals, b₃, h5, h6⟩ := run_bind h4
    obtain ⟨hr₃, -⟩ := hjoined.append _ h5
    obtain ⟨-, rfl⟩ := run_pure h6
    exact hr₃.trans hr₂

/-- The returns of a routine and its normal end become one arrival. -/
theorem yields_finishRoutine {o : Option Arrival} {C : List NodeId} (hbase : base.Grown b.graph)
    (ho : ∀ a ∈ o, a.Ready b.graph q slots) (hr : ∀ r ∈ b.returns, r.Ready b.graph q 0)
    (hs : Sound b.graph (tips o.toList ++ (tips b.returns ++ C))) :
    Yields fails b (finishRoutine o) fun r b' => base.Grown b'.graph ∧ b.graph.Kept b'.graph ∧
      (∀ a ∈ r, a.Ready b'.graph q 0) ∧ b'.returns = [] ∧ Sound b'.graph (tips r.toList ++ C) := by
  unfold finishRoutine
  let arrivals :=
    b.returns ++ (o.map fun a => { a with path := { a.path with locals := [] } }).toList
  have hready : ∀ a ∈ arrivals, a.Ready b.graph q 0 := by
    intro a ha
    rcases List.mem_append.1 ha with ha | ha
    · exact hr a ha
    · obtain ⟨a', ha', rfl⟩ := Option.map_eq_some_iff.1 (Option.mem_toList.1 ha)
      have := ho a' ha'
      exact ⟨⟨this.here, this.dominated, by simp, rfl⟩, this.value⟩
  have hperm : (tips o.toList ++ (tips b.returns ++ C)).Perm (tips arrivals ++ C) := by
    have : tips arrivals = tips b.returns ++ tips o.toList := by
      cases o <;> simp [tips, arrivals]
    rw [this, List.append_assoc]
    exact List.perm_append_comm_assoc _ _ _
  refine Yields.bind (Q := fun s b' => b = s ∧ b = b') (.of_run rfl ⟨rfl, rfl⟩) ?_
  rintro _ _ ⟨rfl, rfl⟩
  refine Yields.bind (Q := fun _ b' => b' = { b with returns := [] }) (.of_run rfl rfl) ?_
  rintro _ _ rfl
  have hjoin : Grows fails base _ _ { b with returns := [] } _ _ _ := grows_join hready
  refine (hjoin C hbase (hs.perm hperm)).with_run.imp ?_
  rintro r b' ⟨hrun, hbase', hkept, hr', new, hnew, -, hs'⟩
  have hnil : b'.returns = [] := returns_of_join hrun
  obtain rfl : new = [] := by rw [hnil] at hnew; exact hnew.symm
  exact ⟨hbase', hkept, hr', hnil, by simpa [tips] using hs'⟩

/-- A routine has the slots that its body touches, but for the last word. -/
theorem slotsBelow_body {r : Routine}
    (hfails : ¬ r.SlotsFit → ∀ slot error, MissesSlot slot error → fails error) :
    SlotsBelow fails r.localCount r.body := by
  intro x hx slot hslot
  by_cases hfit : r.SlotsFit
  · exact .inl (hfit.lt_localCount (Expr.contains_iff.2 hx) hslot)
  · exact .inr (hfails hfit slot)

/-- A routine in place of a call goes on from the call. -/
theorem evaluates_inlineRoutine {target : TargetId} {callee : CallTarget}
    {entries : List (ExprId × Entry)} {outer : NodeId} {arguments : List NodeId}
    (h : Stage c b.graph slots p stack) (ha : ∀ x ∈ arguments, b.graph.Available p.control x)
    (ho : b.graph.StateAvailable p.control outer)
    (hslots : SlotsBelow fails callee.routine.localCount callee.routine.body)
    (hent : ∀ c' : Context, c'.entries = entries → c'.Enters fails callee.routine.localCount) :
    Evaluates fails base slots p b (inlineRoutine target callee entries outer arguments p) := by
  unfold inlineRoutine
  refine Grows.bind (grows_constant .null) fun null b₁ hk hnull => ?_
  have h₁ := h.kept hk
  intro C hbase hs
  refine Yields.bind (Q := fun s b' => b₁ = s ∧ b₁ = b') (.of_run rfl ⟨rfl, rfl⟩) ?_
  rintro _ _ ⟨rfl, rfl⟩
  refine Yields.bind (Q := fun _ b' => b' = { b₁ with returns := [] }) (.of_run rfl rfl) ?_
  rintro _ _ rfl
  let c' : Context :=
    { target, name := callee.routine.name, profile := callee.profile, arguments,
      outer := some outer, entries }
  let inside : Path := { p with locals := List.replicate callee.routine.localCount null }
  have hstage : Stage c' b₁.graph callee.routine.localCount inside [] := by
    refine ⟨h₁.here, fun x hx => hk.available _ x h.here (ha x hx), fun s hs => ?_,
      fun x hx => ?_, by simp [inside], by simp⟩
    · obtain rfl := Option.some.inj hs
      exact hk.stateAvailable _ _ h.here ho
    · rw [List.eq_of_mem_replicate hx]
      exact hnull _
  have hbody := evaluates_eval (hent c' rfl) callee.routine.body hslots base [] inside
    { b₁ with returns := [] } hstage
  refine (hbody C hbase hs).bind ?_
  rintro o b₂ ⟨hbase₂, hk₂, ho₂, new, hnew, hready, hs₂⟩
  obtain rfl : b₂.returns = new := by simpa using hnew
  refine (yields_finishRoutine hbase₂ ho₂ hready hs₂).bind ?_
  rintro r b₃ ⟨hbase₃, hk₃, hr, -, hs₃⟩
  refine Yields.bind (Q := fun _ b' => b' = { b₃ with returns := b₁.returns }) (.of_run rfl rfl) ?_
  rintro _ _ rfl
  have hkept : b₁.graph.Kept b₃.graph := hk₂.trans hk₃
  refine .of_run rfl ⟨hbase₃, hkept, fun a' ha' => ?_, [], by simp, by simp, ?_⟩
  · obtain ⟨a, ha, rfl⟩ := Option.map_eq_some_iff.1 (Option.mem_def.1 ha')
    have hready : a.Ready b₃.graph p.control 0 := hr a ha
    refine ⟨⟨hready.here, hready.dominated, fun x hx => ?_, h.slots⟩, hready.value⟩
    exact (hkept.available _ x h₁.here (h₁.locals x hx)).dominated hready.dominated
  · cases r <;> exact hs₃

/-! ## Plans -/

section

variable {targets : Registry}

/-- How a site is entered, given how the sites of the callee are. An
unregistered callee is where it may fail. -/
theorem evaluates_entryOf {e : PlanEntry} {arguments : List NodeId} {id : ExprId}
    (h : Stage c b.graph slots p stack) (ha : ∀ x ∈ arguments, b.graph.Available p.control x)
    (hslots : ∀ v ∈ targets, SlotsBelow fails v.routine.localCount v.routine.body)
    (hfail : targets[e.target]? = none → fails (.unresolvedTarget e.target))
    (hbelow : ∀ callee, targets[e.target]? = some callee →
      ∀ c' : Context, c'.entries = entriesOf targets e.children →
      c'.Enters fails callee.routine.localCount) :
    Evaluates fails base slots p b
      (entryOf targets e (frameState c id .afterCall stack p) arguments p) := by
  obtain ⟨site, target, decision, children⟩ := e
  rw [entryOf]
  cases hcallee : targets[target]? with
  | none => exact .throw (hfail hcallee)
  | some callee =>
    refine Grows.bind (grows_frameState h .afterCall) fun outer b₁ hk ho => ?_
    exact evaluates_inlineRoutine (h.kept hk) (fun x hx => hk.available _ x h.here (ha x hx)) ho
      (hslots callee (Array.mem_of_getElem? hcallee)) (hbelow callee hcallee)

/-- A plan that suits the routine names registered targets only. -/
theorem enters_of_suits {r : Routine} {es : List PlanEntry}
    (hslots : ∀ v ∈ targets, SlotsBelow (fun _ => False) v.routine.localCount v.routine.body)
    (hes : ∀ e ∈ es, e.Suits (routinesOf targets) r) (hc : c.entries = entriesOf targets es) :
    c.Enters (fun _ => False) slots := by
  have main : ∀ e r, e.Suits (routinesOf targets) r →
      ∀ (c : Context) slots id base stack p b arguments, Stage c b.graph slots p stack →
      (∀ x ∈ arguments, b.graph.Available p.control x) → Evaluates (fun _ => False) base slots p b
      (entryOf targets e (frameState c id .afterCall stack p) arguments p) := by
    intro e r he
    induction he with
    | @mk r e callee _ hr _ ih =>
      intro c slots id base stack p b arguments h ha
      refine evaluates_entryOf h ha hslots (fun hnone => ?_) fun callee _ c' hc' => ?_
      · simp [routinesOf, hnone] at hr
      · intro id' enter hl base' stack' p' b' arguments' h' ha'
        rw [hc'] at hl
        obtain ⟨e', he', rfl, -, rfl⟩ := inlined_of_lookup hl
        exact ih e' he' c' _ _ base' stack' p' b' arguments' h' ha'
  intro id enter hl base stack p b arguments h ha
  rw [hc] at hl
  obtain ⟨e, he, rfl, -, rfl⟩ := inlined_of_lookup hl
  exact main e r (hes e he) c slots _ base stack p b arguments h ha

/-- Where unregistered targets may be complained about, any plan will do. -/
theorem enters_of_fails
    (hslots : ∀ v ∈ targets, SlotsBelow fails v.routine.localCount v.routine.body)
    (hfails : ∀ target, targets[target]? = none → fails (.unresolvedTarget target)) (n : ℕ) :
    ∀ {es : List PlanEntry} {c : Context} {slots : ℕ}, sizeOf es ≤ n →
      c.entries = entriesOf targets es → c.Enters fails slots := by
  induction n with
  | zero =>
    intro es c slots hn
    cases es <;> simp at hn
  | succ n ih =>
    intro es c slots hn hc id enter hl base stack p b arguments h ha
    rw [hc] at hl
    obtain ⟨e, he, rfl, -, rfl⟩ := inlined_of_lookup hl
    refine evaluates_entryOf h ha hslots (hfails _) fun callee _ c' hc' => ih ?_ hc'
    have hlt : sizeOf e.children < sizeOf e := by
      cases e
      simp only [PlanEntry.mk.sizeOf_spec]
      omega
    have := List.sizeOf_lt_of_mem he
    omega

end

/-! ## Whole graphs -/

theorem sound_init (name : String) : Sound (Graph.init name) [Graph.start] := by
  have hnode : ∀ {m n}, (Graph.init name).node? m = some n → m = Graph.start ∧
      n = { kind := .start } := by
    intro m n hm
    cases m with
    | zero =>
      cases hm
      exact ⟨rfl, rfl⟩
    | succ m => cases hm
  have hstart : (Graph.init name).node? Graph.start = some { kind := .start } := rfl
  refine ⟨⟨⟨rfl, fun m n hm _ => (hnode hm).1, ?_, ?_, ?_, ?_, ?_, ?_, ?_⟩, ?_, ?_, ?_⟩, ?_⟩
  · intro m n x hm hx
    obtain ⟨-, rfl⟩ := hnode hm
    simp [Node.edges] at hx
  · intro m n hm
    obtain ⟨-, rfl⟩ := hnode hm
    simp [Node.Counted]
  · intro m n hm _
    obtain ⟨-, rfl⟩ := hnode hm
    simp
  · intro m n q hm _ _ hq
    obtain ⟨-, rfl⟩ := hnode hm
    simp at hq
  · intro m n q x hm _ _ hq
    obtain ⟨-, rfl⟩ := hnode hm
    simp at hq
  · intro m n q s hm _ _ hq
    obtain ⟨-, rfl⟩ := hnode hm
    simp at hq
  · intro x n hm hk
    obtain ⟨-, rfl⟩ := hnode hm
    cases hk
  · intro m n hm _
    obtain ⟨rfl, -⟩ := hnode hm
    exact ⟨[], .start⟩
  · intro id hid
    obtain rfl : id = 0 := Nat.lt_one_iff.1 hid
    exact ⟨_, hstart⟩
  · intro x n hm hk
    obtain ⟨-, rfl⟩ := hnode hm
    cases hk
  · refine ⟨by simp, fun q hq => ?_, fun m n hm _ _ hmem => ?_⟩
    · obtain rfl := List.mem_singleton.1 hq
      refine ⟨.start, rfl, rfl, ?_⟩
      rintro s ⟨n, hn, -, hmem⟩
      obtain ⟨-, rfl⟩ := hnode hn
      simp at hmem
    · exact absurd (List.mem_singleton.2 (hnode hm).1) hmem

/-- The guards at the entry, one after the other. -/
theorem grows_entryGuards {state : NodeId} (types : List (ℕ × ValueType)) :
    ∀ {p : Path} {b : Building},
    Stage c b.graph slots p [] → b.graph.StateAvailable p.control state →
    Grows fails base p.control [p.control] b (types.foldlM
      (fun (p : Path) ((index, type) : ℕ × ValueType) =>
        match c.arguments[index]? with
        | some parameter => guardWith state parameter (.type type) .typeGuardFailure p
        | none => pure p) p) (fun g p' => p'.Ready g p.control slots) fun p' => [p'.control] := by
  induction types with
  | nil => exact fun h _ => .pure rfl h.ready
  | cons t types ih =>
    intro p b h hs
    rw [List.foldlM_cons]
    dsimp only
    cases harg : c.arguments[t.1]? with
    | none => exact .read rfl (ih h hs)
    | some x =>
      refine (grows_guardWith h _ _ hs (h.arguments x (List.mem_of_getElem? harg))).bind
        fun p₁ b₁ hk hp => ?_
      have hs₁ := (hk.stateAvailable _ _ h.here hs).dominated hp.dominated
      refine ((ih ((h.kept hk).move hp) hs₁).after hp.here hp.dominated).imp
        (fun g p' hk' hp' => ?_) fun _ _ _ => List.Perm.refl _
      exact hp'.after (hk'.dominates _ _ hp.here hp.dominated)

theorem grows_guardEntry (h : Stage c b.graph slots p []) (r : Routine) :
    Grows fails base p.control [p.control] b (guardEntry c r p)
      (fun g p' => p'.Ready g p.control slots)
      fun p' => [p'.control] := by
  unfold guardEntry
  split
  · exact .pure rfl h.ready
  · exact (grows_frameState h .start).bind fun _ _ hk hs => grows_entryGuards _ (h.kept hk) hs

/-- A routine is being built, and all that is open are some ends and the
returns so far. -/
structure Underway (base : Graph) (q : NodeId) (A : List NodeId) (b : Building) : Prop where
  grown : base.Grown b.graph
  returns : ∀ r ∈ b.returns, r.Ready b.graph q 0
  sound : Sound b.graph (A ++ tips b.returns)

/-- A step of the routine, and on from there. -/
theorem Underway.bind {α β : Type} {A : List NodeId} {x : Build α} {f : α → Build β}
    {Q : Graph → α → Prop} {K : α → List NodeId} {R : β → Building → Prop}
    (hu : Underway base q A b) (h : Grows fails base q A b x Q K)
    (hf : ∀ a b₁, b.graph.Kept b₁.graph → Q b₁.graph a → Underway base q (K a) b₁ →
        Yields fails b₁ (f a) R) :
    Yields fails b (x >>= f) R := by
  refine (h (tips b.returns) hu.grown hu.sound).bind ?_
  rintro a b₁ ⟨hbase, hk, hQ, new, hnew, hready, hs⟩
  refine hf a b₁ hk hQ ⟨hbase, fun r hr => ?_, hs.perm (List.Perm.append_left _ ?_)⟩
  · rw [hnew] at hr
    exact (List.mem_append.1 hr).elim (fun hr => (hu.returns r hr).kept hk) (hready r)
  · rw [hnew, tips, tips, tips, List.map_append]
    exact List.perm_append_comm

/-- Building a routine leaves nothing open. -/
theorem yields_buildRoutine {target : TargetId} {t : CallTarget} {entries : List (ExprId × Entry)}
    {name : String} (hslots : SlotsBelow fails t.routine.localCount t.routine.body)
    (hent : ∀ c : Context, c.entries = entries → c.Enters fails t.routine.localCount) :
    Yields fails ⟨Graph.init name, []⟩ (buildRoutine target t entries) fun _ b =>
      Sound b.graph [] := by
  let b₀ : Building := ⟨Graph.init name, []⟩
  have hparams : Grows fails b₀.graph Graph.start [Graph.start] b₀ _ _ _ := grows_mapM
    (f := fun index => addNode { kind := .parameter index }) (I := fun _ => True)
    (P := fun g x => Graph.start < g.nodes.size ∧ g.Available Graph.start x)
    (fun g g' x hk hx => ⟨hx.1.trans_le hk.size, hk.available _ x hx.1 hx.2⟩)
    (List.range (max t.routine.parameters t.routine.argumentCount)) (fun index _ b _ => by
      refine (grows_float rfl (by simp) (by simp [Node.Counted]) (by simp [Node.edges])).imp
        (fun g id _ hn => ?_) fun _ _ _ => List.Perm.refl _
      exact ⟨trivial, Nat.zero_lt_of_lt (lt_size_of_node? hn), .parameter hn rfl⟩) b₀ trivial
  have hstart : Underway b₀.graph Graph.start [Graph.start] b₀ :=
    ⟨.refl _, by simp [b₀], by simpa [tips, b₀] using sound_init name⟩
  unfold buildRoutine
  refine hstart.bind hparams fun arguments b₁ hk₁ hargs hu₁ => ?_
  refine hu₁.bind (grows_constant .null) fun null b₂ hk₂ hnull hu₂ => ?_
  let c : Context :=
    { target, name := t.routine.name, profile := t.profile, arguments, outer := none, entries }
  have hhere : Graph.start < b₂.graph.nodes.size :=
    Nat.lt_of_lt_of_le (by simp [b₀, Graph.init, Graph.start]) (hk₁.trans hk₂).size
  have hstage : Stage c b₂.graph t.routine.localCount
      ⟨Graph.start, List.replicate t.routine.localCount null, []⟩ [] := by
    refine ⟨hhere, fun x hx => ?_, by simp [c], fun x hx => ?_, by simp, by simp⟩
    · exact hk₂.available _ x (hargs.2.2 x hx).1 (hargs.2.2 x hx).2
    · rw [List.eq_of_mem_replicate hx]
      exact hnull _
  refine hu₂.bind (grows_guardEntry hstage t.routine) fun p b₃ hk₃ hp hu₃ => ?_
  have hbody :=
    evaluates_eval (hent c rfl) t.routine.body hslots b₀.graph [] p b₃ ((hstage.kept hk₃).move hp)
  refine hu₃.bind (hbody.from hp) fun o b₄ hk₄ ho hu₄ => ?_
  refine (yields_finishRoutine (C := []) hu₄.grown ho hu₄.returns (by simpa using hu₄.sound)).bind
    ?_
  rintro r b₅ ⟨-, -, hr, -, hs⟩
  cases r with
  | none => exact .of_run rfl (by simpa [tips] using hs)
  | some a =>
    have ha : a.Ready b₅.graph Graph.start 0 := hr a rfl
    refine Yields.bind (Q := fun _ b => Sound b.graph []) (.of_run (addNode_run b₅ _) ?_)
      fun _ _ h => .of_run rfl h
    have hret :=
      Sound.behind (n := { kind := .ret, inputs := [a.value], control := [a.path.control] }) hs rfl
        (by simp) (by simp) rfl (by simp [Node.Counted]) (by simpa using ha.value) (by simp)
    exact hret

/-- A graph without open ends is well-formed, if its frame states count their
inputs. -/
theorem Sound.formed {g : Graph} (h : Sound g []) (hframes : g.FramesCounted) : g.Formed :=
  ⟨h.wired, h.trim, h.openAt, hframes⟩

theorem Sound.clean {g : Graph} {A : List NodeId} (h : Sound g A) : g.Clean := fun m n hn x hx => by
  obtain ⟨n', hn'⟩ := h.full x (h.wired.below m n x hn hx)
  rw [contains, hn']
  rfl

/-- The counts of a frame state are words for the numbers of its values. -/
theorem Sound.narrowed {g : Graph} {A : List NodeId} (h : Sound g A) :
    ∀ m n, g.node? m = some n → n.Narrowed := by
  intro m n hn shape hk
  have hcounted := h.wired.counted m n hn
  simp only [Node.Counted, hk] at hcounted
  exact hcounted.1

section

variable {targets : Registry} {target : TargetId} {t : CallTarget} {plan : Plan}

/-- Whatever plan it was made under, the graph of a routine has no open ends. -/
theorem sound_of_specialize {g : Graph} (h : specialize targets target t plan = .ok g) :
    Sound g [] := by
  obtain ⟨⟨b, hrun, rfl⟩, -⟩ := run_of_specialize h
  have hslots : ∀ r : Routine, SlotsBelow (fun _ => True) r.localCount r.body := fun r =>
    slotsBelow_body fun _ _ _ _ => trivial
  have hy : Yields (fun _ => True) ⟨Graph.init t.routine.name, []⟩
      (buildRoutine target t (entriesOf targets plan.entries)) _ := yields_buildRoutine (hslots _)
    fun c hc => enters_of_fails (fun _ _ => hslots _) (fun _ _ => trivial) _ (Nat.le_refl _) hc
  exact hy.result hrun

/-- It is well-formed, for where a count overflowed the graph was not
accepted. -/
theorem formed_of_specialize {g : Graph} (h : specialize targets target t plan = .ok g) :
    g.Formed := by
  have hsound := sound_of_specialize h
  have hverified : g.Verified := verify_eq_ok_iff.1 (run_of_specialize h).2
  exact hsound.formed (hverified.framesCounted_of_narrowed hsound.narrowed)

/-- The routines that a specialization may come to. -/
def withRegistered (targets : Registry) (r : Routine) : List Routine :=
  r :: targets.toList.map CallTarget.routine

theorem mem_withRegistered {r : Routine} {v : CallTarget} (hv : v ∈ targets) :
    v.routine ∈ withRegistered targets r :=
  List.mem_cons_of_mem _ (List.mem_map.2 ⟨v, Array.mem_toList_iff.2 hv, rfl⟩)

/-- Why a routine cannot be built: a call that is to be inlined names a target
that is not registered, or a routine touches a slot that is too large to be
counted. -/
inductive Unbuildable (targets : Registry) (r : Routine) : CompileError → Prop
  | unresolved {callee} : targets[callee]? = none → Unbuildable targets r (.unresolvedTarget callee)
  | missesSlot {x slot error} : x ∈ withRegistered targets r → ¬ x.SlotsFit →
      MissesSlot slot error → Unbuildable targets r error

/-- Specialization fails only for a plan that belongs to another target,
because a routine cannot be built, or because a count of values overflows. -/
theorem error_of_specialize {error : CompileError}
    (h : specialize targets target t plan = .error error) :
    (plan.root ≠ target ∧ error = .evaluation t.routine.name (.foreignPlan plan.root)) ∨
      Unbuildable targets t.routine error ∨ ∃ why, error = .malformedGraph why := by
  by_cases hroot : plan.root = target
  · right
    have hslots : ∀ r ∈ withRegistered targets t.routine,
        SlotsBelow (Unbuildable targets t.routine) r.localCount r.body :=
      fun r hr => slotsBelow_body fun hfit slot error herror => .missesSlot hr hfit herror
    have hy : Yields (Unbuildable targets t.routine) ⟨Graph.init t.routine.name, []⟩
        (buildRoutine target t (entriesOf targets plan.entries)) _ :=
      yields_buildRoutine (hslots _ List.mem_cons_self) fun c hc =>
        enters_of_fails (fun v hv => hslots _ (mem_withRegistered hv))
          (fun _ => .unresolved) _ (Nat.le_refl _) hc
    cases hrun : (buildRoutine target t (entriesOf targets plan.entries)).run
      ⟨Graph.init t.routine.name, []⟩ with
    | error e' =>
      unfold specialize at h
      rw [if_neg (not_not_intro hroot), hrun] at h
      cases h
      exact .inl (hy.error hrun)
    | ok r =>
      obtain ⟨u, b⟩ := r
      rw [specialize_eq hroot hrun] at h
      cases hv : b.graph.verify with
      | ok u => rw [hv] at h; cases h
      | error why =>
        rw [hv] at h
        cases h
        exact .inr ⟨why, rfl⟩
  · left
    unfold specialize at h
    rw [if_pos hroot] at h
    cases h
    exact ⟨hroot, rfl⟩

end

end Specialize

/-! ## What a graph promises -/

namespace Graph

/-- One operator reads the other. -/
def OperatorReads (g : Graph) (x y : NodeId) : Prop :=
  ∃ n k, g.node? x = some n ∧ n.kind.isOperator ∧ y ∈ n.inputs ∧ g.kind? y = some k ∧ k.isOperator

/-- The graph passes both checks, control gets to every fixed node, branches
have their two sides, no operator depends on itself, and what sets a register
lies on every way to where the register is read. -/
structure IsSSA (g : Graph) : Prop where
  verified : g.verify = .ok ()
  frames : g.verifyFrameStates = .ok ()
  reached : ∀ m k, g.kind? m = some k → k.isFixed → g.Reached m
  sides : ∀ m, g.kind? m = some .branch → ∃ a b, g.successors m = [a, b] ∧
    g.kind? a = some .onTrue ∧ g.kind? b = some .onFalse
  acyclic : ∀ x, ¬ Relation.TransGen g.OperatorReads x x
  dominated : ∀ q x y d, g.ReadBehind q x → g.Asks x y → Owns g d y → g.Dominates d q

end Graph

open Specialize TieredEngine.Graph in
theorem Specialize.Sound.isSSA {g : Graph} (h : Sound g []) (hframes : g.FramesCounted) :
    g.IsSSA where
  verified := verify_of_formed (h.formed hframes) h.clean
  frames := verifyFrameStates_of_formed (h.formed hframes)
  reached m k hk hf := by
    obtain ⟨n, hn, rfl⟩ := kind?_eq_some.1 hk
    exact h.trim m n hn hf
  sides m hk := by
    obtain ⟨n, hn, hkind⟩ := kind?_eq_some.1 hk
    have hgo :=
      h.openAt.goesOn m n hn (by rw [hkind]; rfl) (h.trim m n hn (by rw [hkind]; rfl)) (by simp)
    rw [hkind] at hgo
    obtain ⟨a, b, ha, hb, hab⟩ := hgo
    exact ⟨a, b, successors_eq_of_sides ha hb hab, ha, hb⟩
  acyclic x hx := by
    have hlt : ∀ y, Relation.TransGen g.OperatorReads x y → y < x := by
      intro y hy
      induction hy with
      | single hr =>
        obtain ⟨n, k, hn, hk, hmem, -⟩ := hr
        exact h.ordered _ n hn hk _ hmem
      | tail _ hr ih =>
        obtain ⟨n, k, hn, hk, hmem, -⟩ := hr
        exact (h.ordered _ n hn hk _ hmem).trans ih
    exact absurd (hlt x hx) (Nat.lt_irrefl _)
  dominated _ _ _ _ hr ha ho := (h.formed hframes).dominates hr ha ho

end TieredEngine

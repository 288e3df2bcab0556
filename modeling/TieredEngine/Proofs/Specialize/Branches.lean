import TieredEngine.Proofs.Specialize.Joins
/-!
# Conditionals

A conditional or loop that has its condition goes one of two ways. The
specializer may know the way, guard it, or keep both; in the last case a
branch is emitted and the two ways are joined again.
-/

namespace TieredEngine

namespace Specialize

open Interpreter (Step)

/-- An expression that tests a condition. -/
def Tests : Expr → Prop
  | .ifThen .. | .ifElse .. | .whileLoop .. => True
  | _ => False

/-- Where an expression that tests a condition goes: deeper into it, or on
with a value. -/
def wayOf (ss : List NodeSlot) (e : Expr) (taken : Bool) : List NodeSlot × Doing :=
  match e, taken with
  | .ifThen _ _ body, true => (ss ++ [⟨e, 1, []⟩], .enter body)
  | .ifElse _ _ body _, true => (ss ++ [⟨e, 1, []⟩], .enter body)
  | .ifElse _ _ _ alternative, false => (ss ++ [⟨e, 2, []⟩], .enter alternative)
  | .whileLoop _ _ body, true => (ss ++ [⟨e, 1, []⟩], .enter body)
  | _, _ => (ss, .literal .null)

theorem pendingNodes_wayOf (ss : List NodeSlot) (e : Expr) (taken : Bool) :
    pendingNodes (wayOf ss e taken).1 = pendingNodes ss ∧ (wayOf ss e taken).2.nodes = [] := by
  unfold wayOf
  split <;> simp [Doing.nodes]

/-- One way leads into at most one more loop body. -/
theorem loopDepth_wayOf (ss : List NodeSlot) (e : Expr) (taken : Bool) :
    loopDepth (wayOf ss e taken).1 ≤ loopDepth ss + 1 := by
  unfold wayOf
  split <;> simp

theorem Tests.operandType {e : Expr} (h : Tests e) : e.operandType? = some .bool := by
  cases e <;> first | exact h.elim | rfl

variable {X : Setting} {whole : Graph} {ρ : Bindings}

namespace Scope

variable {s : Scope X} {facts facts' : Facts} {ss : List NodeSlot} {p p' : Path} {b : Building}
    {e : Expr} {x : NodeId}

/-- The interpreter goes the way that the condition says. -/
theorem step_wayOf (h : Tests e) {taken : Bool} {f : NodeId → Value} (hx : f x = .bool taken)
    (w : ℕ) :
    Step X.host ((s.spotOn facts ss p (.ready e [x])).moment f w)
      ((s.spotOn facts' (wayOf ss e taken).1 p (wayOf ss e taken).2).moment f (w + 1)) := by
  have hc : (f x).condition = .ok taken := by rw [hx]; rfl
  have hin : ∀ i c, (s.spotOn facts' (ss ++ [⟨e, i, []⟩]) p (.enter c)).moment f (w + 1) =
      .enter ((s.frame ss p).slots f ++ [⟨e, i, []⟩]) c
        (Interpreter.noted X.host e.id taken ((s.frame ss p).activation f w)) := fun i c => by
    simp [Spot.moment, spotOn, Scope.frame, NodeFrame.slots, NodeSlot.slot, Interpreter.noted,
      NodeFrame.activation, X.counts.record]
  have hon : (s.spotOn facts' ss p (.literal .null)).moment f (w + 1) =
      .value ((s.frame ss p).slots f) .null
      (Interpreter.noted X.host e.id taken ((s.frame ss p).activation f w)) := by
    simp [Spot.moment, spotOn, Interpreter.noted, NodeFrame.activation, X.counts.record]
  cases e <;> first | exact h.elim | cases taken
  · exact (congrArg (Step X.host _) hon).mpr (.thenSkipped hc)
  · exact (congrArg (Step X.host _) (hin 1 _)).mpr (.thenTaken hc)
  · exact (congrArg (Step X.host _) (hin 2 _)).mpr (.alternativeTaken hc)
  · exact (congrArg (Step X.host _) (hin 1 _)).mpr (.bodyTaken hc)
  · exact (congrArg (Step X.host _) hon).mpr (.loopLeft hc)
  · exact (congrArg (Step X.host _) (hin 1 _)).mpr (.loopTaken hc)

/-- A value that is no condition makes the interpreter fail. -/
theorem ends_of_noCondition (h : Tests e) {f : NodeId → Value} {err : GuestError}
    (hx : (f x).condition = .error err) (w : ℕ) :
    Interpreter.Ends X.host ((s.spotOn facts ss p (.ready e [x])).moment f w) (.stop err w) := by
  cases e <;> first | exact h.elim | skip
  · exact .ifThen hx
  · exact .ifElse hx
  · exact .whileLoop hx

/-- Where the condition is known, control is on its way. -/
theorem continues_wayOf (h : Tests e) (hf : p.facts ⊆ facts) {taken : Bool}
    (hρ : (s.spotOn facts ss p (.ready e [x])).Good whole X.arguments ρ)
    (hx : valueAt whole X.arguments ρ x = .bool taken) :
    (X.point whole (s.spotOn facts ss p (.ready e [x]))).Continues
      (X.point whole (s.spot (wayOf ss e taken).1 p (wayOf ss e taken).2)) 0 ρ ρ := by
  obtain ⟨h1, h2⟩ := pendingNodes_wayOf ss e taken
  refine ⟨good_of hρ (fun y hy => .inl (mem_nodes.2 (by simp [h1, h2] at hy; tauto)))
    fun fact hfact => .inl (hf hfact), fun w o hw => ⟨w + 1, ⟨hw.1, ?_⟩, ?_⟩⟩
  · exact Spot.ends_step (T := s.spot (wayOf ss e taken).1 p (wayOf ss e taken).2)
      (step_wayOf h hx w) rfl hw.2
  · have := loopDepth_wayOf ss e taken
    simp only [Setting.point, Spot.depth, spot, spotOn, Scope.frame]
    omega

/-- The end of a path on one of the two ways. -/
def way (s : Scope X) (ss : List NodeSlot) (e : Expr) (p : Path) (taken : Bool) : End :=
  s.tip (wayOf ss e taken).1 p (wayOf ss e taken).2

/-- What is left to do about a branch. -/
theorem builds_branching (h : s.Acts ss p e [x]) (he : Tests e) :
    s.Builds [s.tip ss p (.ready e [x])] b (branching s.context e.id x (pendingNodes ss ++ [x]) p)
      (fun | .always _ p' => s.Keeps p' | _ => True)
      (fun
        | .ended => []
        | .always taken p' => [s.way ss e p' taken]
        | .either => [s.tip ss p (.ready e [x])]) := by
  unfold branching
  refine .read (a := ((b.graph.kind? x).bind NodeKind.stamp).or (p.facts.lookup x)) rfl ?_
  split
  · rename_i hknown
    obtain ⟨known, hk, hne⟩ := (Option.any_eq_true _ _).1 hknown
    refine Builds.pre_one (T := s.spotOn ((x, known) :: p.facts) ss p (.ready e [x])) ?_
      fun whole hfit ρ hρ => ?_
    · exact (builds_giveUp h he.operandType (by simpa using hne) (by simp) List.mem_cons_self).bind
        fun _ _ _ => .pure rfl trivial
    · exact continues_learn (by simp) hρ (type_of_known hfit (Acts.known hρ (by simp)) hρ.facts hk)
  refine .read (a := b.graph.constantAt x) rfl ?_
  split
  · rename_i taken hc
    refine Builds.pre_one (T := (s.way ss e p taken).2) (.pure rfl h.keeps)
      fun whole hfit ρ hρ => ?_
    exact continues_wayOf he (List.Subset.refl _) hρ (valueAt_of_constant hfit hc)
  · split
    · rename_i taken _
      refine (builds_guardBefore h (x := x) (by simp) (.inl rfl) (S := (s.way ss e p taken).2)
        fun whole ρ hρ hc => ?_).bind fun p' b₁ hp' => .pure ?_ ?_
      · exact continues_wayOf he (List.Subset.refl _) hρ (by simpa [GuardCheck.holds] using hc)
      · simp only [way, tip, spot, hp'.2, factsBehind, spotOn_congr hp'.1]
      · exact (congrArg List.length hp'.1).trans h.keeps
    · exact .pure rfl trivial

/-- A branch with its two ways. -/
theorem builds_split (h : s.Acts ss p e [x]) (he : Tests e) :
    s.Builds [s.tip ss p (.ready e [x])] b (split x p) (fun ps => s.Keeps ps.1 ∧ s.Keeps ps.2)
      fun ps => [s.way ss e ps.1 true, s.way ss e ps.2 false] := by
  intro hn hb ps b' hrun
  obtain ⟨branch, b₁, h1, h2⟩ := run_bind hrun
  obtain ⟨rfl, rfl⟩ := run_addNode h1
  obtain ⟨onTrue, b₂, h3, h4⟩ := run_bind h2
  obtain ⟨rfl, rfl⟩ := run_addNode h3
  obtain ⟨onFalse, b₃, h5, h6⟩ := run_bind h4
  obtain ⟨rfl, rfl⟩ := run_addNode h5
  obtain ⟨rfl, rfl⟩ := run_pure h6
  refine ⟨⟨h.keeps, h.keeps⟩, [], by simp, by simp, ?_⟩
  refine Emits.split (hb _ (by simp [tip])) (Graph.forked_add b.graph p.control x) (by simp)
    (by simp) fun whole ρ _ hρ => ?_
  have hknown : Known whole X.arguments ρ x := Acts.known hρ (by simp)
  refine ⟨_, hknown.denotes, fun err herr w o hw => ⟨w, ?_⟩, fun hx => ?_, fun hx => ?_⟩
  · exact Spot.ends_stop (ends_of_noCondition he herr w) hw.2
  · exact continues_wayOf he (List.Subset.refl _) hρ hx
  · exact continues_wayOf he (List.Subset.refl _) hρ hx

/-- A conditional, given what is built on its two ways. -/
theorem builds_conditional (h : s.Acts ss p e [x]) (he : Tests e)
    {onTrue onFalse : Path → Build (Option Arrival)}
    (ht : ∀ p b, s.Keeps p →
      s.Builds [s.way ss e p true] b (onTrue p) (fun o => ∀ a ∈ o, s.Keeps a.path)
      fun o => o.toList.map (s.arrive ss))
    (hf : ∀ p b, s.Keeps p →
      s.Builds [s.way ss e p false] b (onFalse p) (fun o => ∀ a ∈ o, s.Keeps a.path)
      fun o => o.toList.map (s.arrive ss)) :
    s.Builds [s.tip ss p (.ready e [x])] b
      (conditional s.context e.id x (pendingNodes ss) p onTrue onFalse)
      (fun o => ∀ a ∈ o, s.Keeps a.path) fun o => o.toList.map (s.arrive ss) := by
  unfold conditional
  refine (builds_branching h he).bind fun o b₁ ho => ?_
  match o, ho with
  | .ended, _ => exact .pure rfl (by simp)
  | .always true p', hp' => exact ht p' b₁ hp'
  | .always false p', hp' => exact hf p' b₁ hp'
  | .either, _ =>
    refine (builds_split h he).bind fun ps b₂ hps => ?_
    obtain ⟨whenTrue, whenFalse⟩ := ps
    refine ((ht whenTrue b₂ hps.1).frame (C := [s.way ss e whenFalse false])).bind
      fun first b₃ hfirst => ?_
    refine (((hf whenFalse b₃ hps.2).frame (C := first.toList.map (s.arrive ss))).perm
      List.perm_append_comm).bind fun second b₄ hsecond => ?_
    refine (builds_join (n := s.routine.localCount)
      fun a (ha : a ∈ first.toList ++ second.toList) => ?_).perm ?_
    · rcases List.mem_append.1 ha with ha | ha
      · exact hfirst a (by simpa using ha)
      · exact hsecond a (by simpa using ha)
    · rw [List.map_append]
      exact List.perm_append_comm

end Scope

end Specialize

end TieredEngine

import TieredEngine.Proofs.Specialize.Walk
/-!
# Inlined routines

An inlined routine is specialized in a scope of its own, one caller deeper.
Its returns and its normal end are joined, and the value goes to the frame
that waits for it, whose locals are what they were before the call. Which
routine a site enters is told by the plan, so the entries of a plan have to be
decisions about the sites of the routine: `PlanEntry.Suits`. Running the
callee in place answers what the call would, if calls are runs of the
registered routines: `Setting.Unfolds`. Only what runs do depends on this;
where nobody asks about calls (`Setting.Mute`) any plan will do, and where
nothing is inlined (`Plan.InlinesNothing`) calls may answer anything.
-/

namespace TieredEngine

/-- The entry decides a call site of the routine, and the entries below it
decide sites of the callee. -/
inductive PlanEntry.Suits (routines : TargetId → Option Routine) : Routine → PlanEntry → Prop
  | mk {r e callee} : (e.site, e.target) ∈ r.callSites → routines e.target = some callee →
    (∀ c ∈ e.children, Suits routines callee c) → Suits routines r e

theorem PlanEntry.Suits.mono {routines routines' : TargetId → Option Routine} {r : Routine}
    {e : PlanEntry} (h : e.Suits routines r)
    (hr : ∀ target r, routines target = some r → routines' target = some r) :
    e.Suits routines' r := by
  induction h with
  | mk hsite hcallee _ ih => exact .mk hsite (hr _ _ hcallee) ih

/-- The policy inlines no call, whatever it is asked about. -/
def InliningPolicy.KeepsCalls (policy : InliningPolicy) : Prop :=
  ∀ candidate context, (policy.decide candidate context).isInline = false

/-- Every call site of the routine stays a call. -/
def Plan.InlinesNothing (plan : Plan) : Prop := ∀ e ∈ plan.entries, e.isInlined = false

namespace Specialize

/-- Calls are runs of the registered routines, up to errors nobody asks
about. -/
def Setting.Unfolds (X : Setting) : Prop := X.host.Unfolds X.routines X.ignored

/-- No call ends, so nothing is promised behind one. -/
def Setting.Mute (X : Setting) : Prop := ∀ target vs w, X.host.call target vs w = .exhausted

variable {X : Setting} {whole : Graph}

namespace Scope

variable {s : Scope X} {ss : List NodeSlot} {p : Path} {b b' : Building} {vs : List NodeId}
    {id : ExprId} {target entered : TargetId} {es : List Expr} {callee : CallTarget}
    {entries : List (ExprId × Entry)} {outer : NodeId}

/-! ## The end of a routine -/

/-- The arrival whose locals no longer matter. -/
def withoutLocals (a : Arrival) : Arrival := { a with path := { a.path with locals := [] } }

/-- Behind the body of a routine only its value matters. -/
theorem to_withoutLocals (a : Arrival) :
    X.To whole (s.arrive [] a).2 (s.arrive [] (withoutLocals a)).2 := by
  refine .of_ends (fun ρ hρ => ?_) fun ρ w o _ _ hw => ⟨w, ?_, Nat.le_refl _⟩
  · refine good_of hρ (fun x hx => .inl (mem_nodes.2 ?_)) fun fact hfact => .inl hfact
    simp only [withoutLocals, List.not_mem_nil, false_or] at hx
    tauto
  · obtain ⟨k, o₁, h1, h2, h3⟩ := hw
    refine ⟨k, o₁, ?_, h2, h3⟩
    rw [Interpreter.rest_of_ends (by exact .finished) k] at h1
    rw [← h1]
    exact Interpreter.rest_of_ends .finished k

/-- The returns of a routine and its normal end become one. -/
theorem emits_finish {completed o : Option Arrival} (hret : ∀ r ∈ b.returns, r.path.locals = [])
    (hn : (keys (completed.toList.map (s.arrive []) ++ b.returns.map (s.arrive []))).Nodup)
    (hb : ∀ q ∈ keys (completed.toList.map (s.arrive []) ++ b.returns.map (s.arrive [])),
        q < b.graph.nodes.size) (h : (finishRoutine completed).run b = .ok (o, b')) :
    Emits X (completed.toList.map (s.arrive []) ++ b.returns.map (s.arrive [])) b.graph b'.graph
      (o.toList.map (s.arrive [])) := by
  unfold finishRoutine at h
  obtain ⟨_, b₁, h1, h2⟩ := run_bind h
  cases h1
  obtain ⟨_, b₂, h3, h4⟩ := run_bind h2
  cases h3
  change (join (b.returns ++ (completed.map withoutLocals).toList)).run _ = _ at h4
  have hpre : Emits X (completed.toList.map (s.arrive []) ++ b.returns.map (s.arrive [])) b.graph
      b.graph ((b.returns ++ (completed.map withoutLocals).toList).map (s.arrive [])) := by
    refine (Emits.refl hn hb).imp ?_ fun e he => ?_
    · have hkeys : ((completed.map withoutLocals).toList.map (s.arrive [])).map Prod.fst =
          (completed.toList.map (s.arrive [])).map Prod.fst := by
        cases completed <;> simp [withoutLocals, arrive, tip]
      rw [keys, List.map_append] at hn
      rw [List.map_append, keys, List.map_append, hkeys]
      exact (List.perm_append_comm.nodup_iff).1 hn
    · rw [List.map_append, List.mem_append] at he
      rcases he with he | he
      · exact ⟨e, List.mem_append_right _ he, rfl, fun _ _ => .refl⟩
      · obtain ⟨a, ha, rfl⟩ : ∃ a, completed = some a ∧ s.arrive [] (withoutLocals a) = e := by
          simpa using he
        exact ⟨s.arrive [] a, by simp [ha], rfl, fun whole _ => to_withoutLocals a⟩
  have hlocals : ∀ a ∈ b.returns ++ (completed.map withoutLocals).toList,
      a.path.locals.length = 0 := by
    intro a ha
    rcases List.mem_append.1 ha with ha | ha
    · simp [hret a ha]
    · obtain ⟨a', -, rfl⟩ : ∃ a', completed = some a' ∧ withoutLocals a' = a := by simpa using ha
      rfl
  have hjoin : s.Builds ((b.returns ++ (completed.map withoutLocals).toList).map (s.arrive []))
      { b with returns := [] } (join (b.returns ++ (completed.map withoutLocals).toList)) (fun o =>
      ∀ a ∈ o, a.path.locals.length = 0) fun o => o.toList.map (s.arrive []) := builds_join hlocals
  obtain ⟨-, new, -, -, h5⟩ := hjoin hpre.nodup hpre.after o b' h4
  -- nothing returns while ends are joined, and if something did nobody would
  -- ask
  refine hpre.trans (h5.imp ?_ fun e he => ⟨e, List.mem_append_left _ he, rfl, fun _ _ => .refl⟩)
  have := h5.nodup
  rw [keys, List.map_append] at this
  exact (List.nodup_append.1 this).1

/-! ## Into a callee and back -/

/-- The scope of a routine that is specialized in place of a call. -/
def inner (s : Scope X) (h : s.Acts ss p (.call id target es) vs)
    (hr : X.routines entered callee.routine) (entries : List (ExprId × Entry)) (outer : NodeId) :
    Scope X where
  context :=
    { target := entered, name := callee.routine.name, profile := callee.profile,
      arguments := vs, outer, entries }
  routine := callee.routine
  callers := ⟨s.frame ss p, .call id target es, outer⟩ :: s.callers
  registered := hr
  outer := rfl
  placed c hc := by
    rcases List.mem_cons.1 hc with rfl | hc
    · exact { s.frame_placed h.keeps with inside := h.inside, call := ⟨_, _, _, rfl⟩ }
    · exact s.placed c hc

variable (h : s.Acts ss p (.call id target es) vs) (hr : X.routines entered callee.routine)

theorem depth_inner (ss' : List NodeSlot) (q : Path) (d : Doing) (facts : Facts) :
    ((s.inner h hr entries outer).spotOn facts ss' q d).depth =
      loopDepth ss' + (s.spotOn facts ss p d).depth := by
  simp only [Spot.depth, spotOn, Scope.frame, inner, List.map_cons, List.sum_cons]

/-- Instead of making a call, its routine may be run in place. -/
theorem to_inner {null : NodeId} (ht : entered = target ∧ X.Unfolds ∨ X.Mute)
    (hs : whole.node? outer = some (stateNode s.context id .afterCall (pendingNodes ss) p))
    (hnull : whole.kind? null = some (.constant .null)) :
    X.To whole (s.tip ss p (.ready (.call id target es) vs)).2 ((s.inner h hr entries outer).tip []
      { p with locals := List.replicate callee.routine.localCount null }
        (.enter callee.routine.body)).2 := by
  refine .of_ends (fun ρ hρ => ⟨fun x hx => ?_, hρ.facts, ?_⟩) fun ρ w o hρ ho hw => ⟨w, ?_, ?_⟩
  · rcases mem_nodes.1 hx with hx | hx | hx | hx | ⟨c, hc, hx⟩
    · exact Acts.known hρ hx
    · obtain rfl := List.eq_of_mem_replicate hx
      exact ⟨_, denotes_constant hnull⟩
    · simp [pendingNodes] at hx
    · simp [Doing.nodes] at hx
    · refine hρ.known x (mem_nodes.2 ?_)
      rcases List.mem_cons.1 hc with rfl | hc
      · simp only [Scope.frame, NodeFrame.nodes, List.mem_append] at hx
        tauto
      · exact .inr (.inr (.inr (.inr ⟨c, hc, hx⟩)))
  · refine .cons hs ?_ ?_ s.outer hρ.chain
    · simp [stateNode, Scope.frame, Expr.id]
    · simp [stateNode, Scope.frame, NodeFrame.nodes]
  · rcases ht with ⟨rfl, hunfolds⟩ | hmute
    · refine Spot.ends_inline hunfolds hr ?_ ho hw
      simp [(denotes_constant hnull).valueAt_eq, inner]
    · rcases Spot.ends_call 0 hw with ⟨_, _, hc, -⟩ | ⟨_, _, hc, -⟩ <;>
        · rw [hmute] at hc
          cases hc
  · simp only [tip, spot, depth_inner, loopDepth, List.map_nil, List.sum_nil, Nat.zero_add]
    exact Nat.le_refl _

/-- The value of an inlined routine goes to the frame that waits for it. -/
theorem to_outer (a : Arrival) : X.To whole ((s.inner h hr entries outer).arrive [] a).2
    (s.arrive ss { a with path := { a.path with locals := p.locals } }).2 := by
  refine .of_ends (fun ρ hρ => ⟨fun x hx => ?_, hρ.facts, ?_⟩) fun ρ w o hρ ho hw => ⟨w, ?_, ?_⟩
  · refine hρ.known x (mem_nodes.2 ?_)
    have hframe : x ∈ s.context.arguments ∨ x ∈ p.locals ∨
        x ∈ pendingNodes ss → x ∈ (s.frame ss p).nodes := by
      simp only [Scope.frame, NodeFrame.nodes, List.mem_append]
      tauto
    rcases mem_nodes.1 hx with hx | hx | hx | hx | ⟨c, hc, hx⟩
    · exact .inr (.inr (.inr (.inr ⟨_, List.mem_cons_self, hframe (.inl hx)⟩)))
    · exact .inr (.inr (.inr (.inr ⟨_, List.mem_cons_self, hframe (.inr (.inl hx))⟩)))
    · exact .inr (.inr (.inr (.inr ⟨_, List.mem_cons_self, hframe (.inr (.inr hx))⟩)))
    · exact .inr (.inr (.inr (.inl hx)))
    · exact .inr (.inr (.inr (.inr ⟨c, List.mem_cons_of_mem _ hc, hx⟩)))
  · cases hρ.chain with
    | cons _ _ _ _ hc => exact hc
  · exact Spot.ends_return rfl hw _
  · simp only [arrive, tip, spot, depth_inner, loopDepth, List.map_nil, List.sum_nil, Nat.zero_add]
    exact Nat.le_refl _

include h hr in
/-- Instead of making a call, its routine is specialized in place. -/
theorem builds_inline (ht : entered = target ∧ X.Unfolds ∨ X.Mute)
    (hent : ∀ s' : Scope X, s'.routine = callee.routine → s'.context.entries = entries →
        s'.Enters) :
    s.Builds [s.tip ss p (.ready (.call id target es) vs)] b
      (do
        let outer ← frameState s.context id .afterCall (pendingNodes ss) p
        inlineRoutine entered callee entries outer vs p)
      (fun o => ∀ a ∈ o, s.Keeps a.path) fun o => o.toList.map (s.arrive ss) := by
  intro hn hb o b₇ hrun
  rw [frameState_eq] at hrun
  obtain ⟨outer, b₁, h1, h2⟩ := run_bind hrun
  obtain ⟨rfl, rfl⟩ := run_addNode h1
  unfold inlineRoutine at h2
  obtain ⟨null, b₂, h3, h4⟩ := run_bind h2
  obtain ⟨hreturns, hnull, hconst⟩ := run_constant (X := X) h3
  obtain ⟨_, b₃, hget, h5⟩ := run_bind h4
  cases hget
  obtain ⟨_, b₃, hclear, h6⟩ := run_bind h5
  cases hclear
  obtain ⟨completed, b₄, hbody, h7⟩ := run_bind h6
  obtain ⟨arrival, b₅, hfinish, h8⟩ := run_bind h7
  obtain ⟨_, b₆, hrestore, h9⟩ := run_bind h8
  cases hrestore
  obtain ⟨rfl, rfl⟩ := run_pure h9
  have hstate : Emits X [s.tip ss p (.ready (.call id target es) vs)] b.graph
      (b.push (stateNode s.context id .afterCall (pendingNodes ss) p)).graph
        [s.tip ss p (.ready (.call id target es) vs)] :=
    .float rfl (by simp [stateNode]) narrowed_stateNode hn hb
  have hin : Emits X [s.tip ss p (.ready (.call id target es) vs)] b.graph b₂.graph
      [(s.inner h hr entries b.graph.nodes.size).tip []
        { p with locals := List.replicate callee.routine.localCount null }
          (.enter callee.routine.body)] := by
    have hc := hconst _ hstate.nodup hstate.after
    refine (hstate.trans hc).imp (by simp) fun e he => ⟨_, List.mem_singleton_self _, ?_⟩
    obtain rfl := List.mem_singleton.1 he
    refine ⟨rfl, fun whole hf => to_inner h hr ht ?_ (hf.kind_eq hnull rfl)⟩
    refine hf.plain _ (stateNode s.context id .afterCall (pendingNodes ss) p) ?_
      (by simp [stateNode]) (by simp [stateNode])
    rw [hc.old _ (by simp), Building.node?_push, if_pos rfl]
  obtain ⟨-, new, hnew, hlocals, hthrough⟩ :=
    (walks (hent _ rfl rfl) callee.routine.body) [] _ { b₂ with returns := [] }
      (fun _ => .here) (by simp [Keeps, inner]) hin.nodup hin.after completed b₄ hbody
  rw [List.nil_append] at hnew
  rw [← hnew] at hthrough hlocals
  have hout := emits_finish hlocals hthrough.nodup hthrough.after hfinish
  refine ⟨fun a ha => ?_, [], by simp [hreturns], by simp, ?_⟩
  · obtain ⟨a', -, rfl⟩ := Option.map_eq_some_iff.1 (Option.mem_def.1 ha)
    exact h.keeps
  refine ((hin.trans hthrough).trans hout).imp ?_ fun e he => ?_
  · cases arrival <;> simp
  · obtain ⟨a, ha, rfl⟩ : ∃ a, arrival = some a ∧
        s.arrive ss { a with path := { a.path with locals := p.locals } } = e := by simpa using he
    exact ⟨_, List.mem_map.2 ⟨a, by simp [ha], rfl⟩, rfl, fun whole _ => to_outer h hr a⟩

end Scope

/-! ## Plans -/

/-- The routines of the registered targets. -/
def routinesOf (targets : Registry) (target : TargetId) : Option Routine :=
  (targets[target]?).map CallTarget.routine

/-- The setting has the registered targets, and maybe more. -/
def Setting.Knows (X : Setting) (targets : Registry) : Prop :=
  ∀ target r, routinesOf targets target = some r → X.routines target r

section

variable {targets : Registry} {policy : InliningPolicy} {levels depth : ℕ} {r : Routine}
    {es : List PlanEntry} {e : PlanEntry} {p p' : Plan.Progress}

/-- An entry is what the policy says about a call site; below it are decisions
about the sites of the callee, if there are any. -/
theorem entry_of_decideSites
    (h : Plan.decideSites targets policy (levels + 1) depth r p = .done es p') (he : e ∈ es) :
    (e.site, e.target) ∈ r.callSites ∧
      (∃ candidate context, e.decision = policy.decide candidate context) ∧
      ∃ callee, routinesOf targets e.target = some callee ∧ (e.children = [] ∨ ∃ p₁ p₂,
        Plan.decideSites targets policy levels (depth + 1) callee p₁ = .done e.children p₂) := by
  rw [Plan.decideSites] at h
  obtain ⟨⟨site, target⟩, hsite, p₁, p₂, h1⟩ := Comp.mem_of_mapM_eq_done h e he
  dsimp only at h1
  cases ht : targets[target]? with
  | none => rw [ht] at h1; cases h1
  | some callee =>
    rw [ht] at h1
    have hcallee : routinesOf targets target = some callee.routine := by simp [routinesOf, ht]
    obtain ⟨_, _, -, h2⟩ := Comp.bind_eq_done h1
    obtain ⟨_, _, -, h3⟩ := Comp.bind_eq_done h2
    split at h3
    · obtain ⟨_, p₃, -, h4⟩ := Comp.bind_eq_done h3
      obtain ⟨children, _, hchildren, h5⟩ := Comp.bind_eq_done h4
      cases h5
      exact ⟨hsite, ⟨_, _, rfl⟩, callee.routine, hcallee, .inr ⟨p₃, _, hchildren⟩⟩
    · cases h3
      exact ⟨hsite, ⟨_, _, rfl⟩, callee.routine, hcallee, .inl rfl⟩

/-- What a plan decides suits the routine it was built for. -/
theorem suits_of_decideSites (levels : ℕ) :
    ∀ {depth r es p p'}, Plan.decideSites targets policy levels depth r p = .done es p' →
      ∀ e ∈ es, e.Suits (routinesOf targets) r := by
  induction levels with
  | zero => intro depth r es p p' h; cases h
  | succ levels ih =>
    intro depth r es p p' h e he
    obtain ⟨hsite, -, callee, hcallee, hchildren⟩ := entry_of_decideSites h he
    refine .mk hsite hcallee fun c hc => ?_
    rcases hchildren with hnone | ⟨p₁, p₂, hbelow⟩
    · rw [hnone] at hc
      cases hc
    · exact ih hbelow c hc

/-- A policy that keeps every call leads to plans that inline nothing. -/
theorem inlinesNothing_of_build {σ : Type} {s s' : σ} {budget bound : ℕ} {root : TargetId}
    {plan : Plan} (hp : policy.KeepsCalls)
    (h : Plan.build targets policy budget bound root r s = .done plan s') :
    plan.InlinesNothing := by
  unfold Plan.build at h
  split at h
  case h_1 es p hes =>
    cases h
    intro e he
    cases bound with
    | zero => cases hes
    | succ bound =>
      obtain ⟨-, ⟨candidate, context, hdecision⟩, -⟩ := entry_of_decideSites hes he
      rw [PlanEntry.isInlined, hdecision]
      exact hp candidate context
  case h_2 => cases h
  case h_3 => cases h

end

/-- What is entered at a site is a call that the plan inlines there. -/
theorem inlined_of_lookup {targets : Registry} {id : ExprId} {enter : Entry} {es : List PlanEntry}
    (h : (entriesOf targets es).lookup id = some enter) :
    ∃ e ∈ es, e.site = id ∧ e.isInlined ∧ enter = entryOf targets e := by
  induction es with
  | nil => simp [entriesOf] at h
  | cons e es ih =>
    have hlater : (entriesOf targets es).lookup id = some enter →
        ∃ e' ∈ e :: es, e'.site = id ∧ e'.isInlined ∧ enter = entryOf targets e' := fun h => by
      obtain ⟨e', he', h'⟩ := ih h
      exact ⟨e', List.mem_cons_of_mem _ he', h'⟩
    rw [entriesOf] at h
    split at h
    case isTrue hin =>
      rw [List.lookup_cons] at h
      split at h
      case h_1 hid =>
        exact ⟨e, List.mem_cons_self, (beq_iff_eq.1 hid).symm, hin, (Option.some.inj h).symm⟩
      case h_2 => exact hlater h
    case isFalse => exact hlater h

/-- A call site of a routine has one target. -/
theorem Scope.target_eq (s : Scope X) {ss : List NodeSlot} {id : ExprId} {target target' : TargetId}
    {es : List Expr} (h : (id, target') ∈ s.routine.callSites)
    (hin : s.Inside ss (.call id target es)) :
    target' = target := by
  obtain ⟨e, he, hcall⟩ := List.mem_filterMap.1 h
  have hmem := (hin fun _ => .null).mem_preorder
  cases e with
  | call id' target'' es' =>
    simp only [Expr.callSite?, Option.some.injEq, Prod.mk.injEq] at hcall
    obtain ⟨rfl, rfl⟩ := hcall
    cases Routine.eq_of_id_eq he hmem rfl
    rfl
  | _ => simp [Expr.callSite?] at hcall

/-- How a site is entered, given how the sites of the callee are. -/
theorem Scope.builds_entry {targets : Registry} (hX : X.Knows targets) {e : PlanEntry} {s : Scope X}
    {ss : List NodeSlot} {target : TargetId} {args : List Expr} {vs : List NodeId} {p : Path}
    {b : Building} (ht : e.target = target ∧ X.Unfolds ∨ X.Mute)
    (h : s.Acts ss p (.call e.site target args) vs)
    (hbelow : ∀ s' : Scope X, routinesOf targets e.target = some s'.routine →
      s'.context.entries = entriesOf targets e.children →
      s'.Enters) :
    s.Builds [s.tip ss p (.ready (.call e.site target args) vs)] b
      (entryOf targets e (frameState s.context e.site .afterCall (pendingNodes ss) p) vs p)
      (fun o => ∀ a ∈ o, s.Keeps a.path) fun o => o.toList.map (s.arrive ss) := by
  obtain ⟨site, entered, decision, children⟩ := e
  rw [entryOf]
  cases hcallee : targets[entered]? with
  | none => exact .throw _
  | some callee =>
    have hr : routinesOf targets entered = some callee.routine := by simp [routinesOf, hcallee]
    exact builds_inline h (hX _ _ hr) ht fun s' hroutine hs' =>
      hbelow s' (by rw [hroutine]; exact hr) hs'

/-- Where the entries of a plan suit the routine, inlined sites are entered as
the interpreter would call them. -/
theorem Scope.enters_of_suits {targets : Registry} (hX : X.Knows targets) (hunfolds : X.Unfolds)
    {es : List PlanEntry} {s : Scope X} (hes : ∀ e ∈ es, e.Suits (routinesOf targets) s.routine)
    (hs : s.context.entries = entriesOf targets es) :
    s.Enters := by
  have main : ∀ e r, e.Suits (routinesOf targets) r → ∀ s : Scope X, s.routine = r →
      ∀ ss target args vs p b, s.Acts ss p (.call e.site target args) vs →
        s.Builds [s.tip ss p (.ready (.call e.site target args) vs)] b
        (entryOf targets e (frameState s.context e.site .afterCall (pendingNodes ss) p) vs p)
        (fun o => ∀ a ∈ o, s.Keeps a.path) fun o => o.toList.map (s.arrive ss) := by
    intro e r he
    induction he with
    | @mk r e callee hsite hr _ ih =>
      rintro s rfl ss target args vs p b hacts
      refine builds_entry hX (.inl ⟨s.target_eq hsite hacts.inside, hunfolds⟩) hacts
        fun s' hr' hs' => ?_
      obtain rfl := Option.some.inj (hr.symm.trans hr')
      intro ss' id' target' args' enter hin hl vs' p' b' hacts'
      rw [hs'] at hl
      obtain ⟨c, hc, rfl, -, rfl⟩ := inlined_of_lookup hl
      exact ih c hc s' rfl ss' target' args' vs' p' b' hacts'
  intro ss id target args enter hin hl vs p b hacts
  rw [hs] at hl
  obtain ⟨e, he, rfl, -, rfl⟩ := inlined_of_lookup hl
  exact main e _ (hes e he) s rfl ss target args vs p b hacts

/-- Where nobody asks about calls, any site may be entered. -/
theorem Scope.enters_of_mute {targets : Registry} (hX : X.Knows targets) (hm : X.Mute) (n : ℕ) :
    ∀ {es : List PlanEntry} {s : Scope X}, sizeOf es ≤ n →
      s.context.entries = entriesOf targets es → s.Enters := by
  induction n with
  | zero =>
    intro es s hn
    cases es <;> simp at hn
  | succ n ih =>
    intro es s hn hs ss id target args enter hin hl vs p b hacts
    rw [hs] at hl
    obtain ⟨e, he, rfl, -, rfl⟩ := inlined_of_lookup hl
    refine builds_entry hX (.inr hm) hacts fun s' _ hs' => ih ?_ hs'
    have hlt : sizeOf e.children < sizeOf e := by
      cases e
      simp only [PlanEntry.mk.sizeOf_spec]
      omega
    have := List.sizeOf_lt_of_mem he
    omega

/-- Where nothing is inlined, no site is entered. -/
theorem Scope.enters_of_kept {targets : Registry} {es : List PlanEntry} {s : Scope X}
    (hes : ∀ e ∈ es, e.isInlined = false) (hs : s.context.entries = entriesOf targets es) :
    s.Enters := by
  intro ss id target args enter hin hl vs p b hacts
  rw [hs] at hl
  obtain ⟨e, he, -, hinlined, -⟩ := inlined_of_lookup hl
  rw [hes e he] at hinlined
  cases hinlined

end Specialize

end TieredEngine

import TieredEngine.Proofs.Specialize.Inlining
import TieredEngine.Proofs.Graph.Verified
/-!
# Whole routines

The graph of a routine: its parameters, the guards at its entry, its body and
the node that returns. What comes out is a graph whose control is well-formed,
with a spot for every fixed node so that all control edges satisfy their
conditions: `certified_of_specialize`.
-/

namespace TieredEngine

namespace Specialize

open Code (EdgeOk Effects Leads)

variable {X : Setting} {whole : Graph}

/-! ## Parameters -/

/-- The parameter nodes leave every end as it is. -/
theorem run_parameters (is : List ℕ) : ∀ {b b' : Building} {ids : List NodeId},
    (is.mapM fun index => addNode { kind := .parameter index }).run b = .ok (ids, b') →
      b'.returns = b.returns ∧
        List.Forall₂ (fun i id => b'.graph.kind? id = some (.parameter i)) is ids ∧
        ∀ A : List End, (keys A).Nodup → (∀ q ∈ keys A, q < b.graph.nodes.size) →
          Emits X A b.graph b'.graph A := by
  induction is with
  | nil =>
    intro b b' ids h
    obtain ⟨rfl, rfl⟩ := run_pure h
    exact ⟨rfl, .nil, fun A hn hb => .refl hn hb⟩
  | cons i is ih =>
    intro b b' ids h
    rw [List.mapM_cons] at h
    obtain ⟨id, b₁, h1, h2⟩ := run_bind h
    obtain ⟨rfl, rfl⟩ := run_addNode h1
    obtain ⟨ids', b₂, h3, h4⟩ := run_bind h2
    obtain ⟨rfl, rfl⟩ := run_pure h4
    obtain ⟨h5, h6, h7⟩ := ih h3
    have hkeep : Emits X [] (b.push { kind := .parameter i }).graph b'.graph [] :=
      h7 [] (by simp) (by simp)
    refine ⟨h5, .cons (Graph.kind?_eq_some.2 ⟨{ kind := .parameter i }, ?_, rfl⟩) h6,
      fun A hn hb => ?_⟩
    · rw [hkeep.old _ (by simp), Building.node?_push, if_pos rfl]
    · have hfloat : Emits X A b.graph (b.push { kind := .parameter i }).graph A :=
        .float rfl (by simp) (Node.narrowed_of_ne rfl) hn hb
      exact hfloat.trans (h7 A hn hfloat.after)

namespace Scope

variable {s : Scope X} {p : Path} {facts : Facts}

/-! ## Guards at the entry -/

/-- Handing over at the entry starts the routine over. -/
theorem resumes_start (hc : s.callers = []) {f : NodeId → Value} {w : ℕ}
    {o : Outcome GuestError ℕ Value}
    (hl : p.locals.map f = List.replicate s.routine.localCount .null)
    (hw : (s.spotOn facts [] p (.enter s.routine.body)).Ends f X.host w o) :
    Interpreter.Resumes X.routines X.host ((s.frame [] p).suspended f s.routine.body.id .start [])
      [] w o := by
  obtain ⟨k, o₁, h1, h2, h3⟩ := hw
  have ho : o₁ = o := by
    simp only [spotOn, hc] at h3
    cases h3
    · rfl
    · rfl
  subst ho
  refine .last (k := k) s.registered ?_ h2
  rw [← h1]
  simp only [Spot.moment, spotOn, Scope.frame, NodeFrame.slots, NodeFrame.activation,
    List.map_nil, hl]
  rfl

/-- A guard at the entry. -/
theorem emits_entryGuard (hc : s.callers = []) {g : Graph} {state x : NodeId} (type : ValueType)
    (hnull : ∀ y ∈ p.locals, g.kind? y = some (.constant .null)) (hp : s.Keeps p)
    (hstate : g.node? state = some (stateNode s.context s.routine.body.id .start [] p))
    (hx : x ∈ s.context.arguments) (hq : p.control < g.nodes.size) :
    Emits X [s.tip [] p (.enter s.routine.body)] g
      (g.add {
        kind := .guard (.type type) .typeGuardFailure
        inputs := [x]
        control := [p.control]
        state := some state }).1
      [s.tip [] ⟨g.nodes.size, p.locals, (x, type) :: p.facts⟩ (.enter s.routine.body)] := by
  refine Emits.behind rfl rfl (by simp) (by simp) hq fun whole hf ρ hρ => ?_
  have hknown : Known whole X.arguments ρ x := hρ.known x (mem_nodes.2 (.inl hx))
  by_cases ht : (valueAt whole X.arguments ρ x).type = type
  · refine ⟨_, .holds hf.added rfl rfl hknown.denotes
      (by simpa [GuardCheck.holds, ValueType.admits] using ht),
      Setting.leads_pass ⟨?_, fun w o hw => ⟨w, hw, Nat.le_refl _⟩⟩⟩
    refine good_of hρ (fun y hy => .inl (mem_nodes.2 (by tauto))) fun fact hfact => ?_
    rcases List.mem_cons.1 hfact with rfl | hfact
    · exact .inr ⟨_, hknown.denotes, ht⟩
    · exact .inl hfact
  · have hframes : FramesAt whole X.arguments ρ state
        [(s.frame [] p).suspended (valueAt whole X.arguments ρ) s.routine.body.id .start []] := by
      have hchain : Chain whole [] := .nil
      refine hchain.framesAt hf.counted (F := s.frame [] p) (t := []) (hf.stays hstate
        (by simp [stateNode]) (by simp [stateNode])) rfl ?_ ?_ fun y hy => hρ.known y ?_
      · simp [stateNode, Scope.frame, NodeFrame.nodes, pendingNodes]
      · simpa [stateNode, hc] using s.outer
      · simp only [List.flatMap_nil, List.append_nil] at hy
        exact List.mem_append_left _ (List.mem_append_left _ hy)
    refine ⟨_, .violated hf.added rfl rfl hknown.denotes
      (by simpa [GuardCheck.holds, ValueType.admits] using ht) rfl hframes,
      ?_, fun w o hw => ⟨w, resumes_start hc ?_ hw.2⟩⟩
    · -- the guard speculates on a parameter
      rintro (hun | ⟨-, hun⟩) <;> cases hun
    rw [← hp, List.eq_replicate_iff]
    refine ⟨by simp, fun v hv => ?_⟩
    obtain ⟨y, hy, rfl⟩ := List.mem_map.1 hv
    obtain ⟨n, hn, hk⟩ := Graph.kind?_eq_some.1 (hnull y hy)
    have hden : Denotes whole X.arguments ρ y .null :=
      .constant (hf.stays hn (by simp [hk]) (by simp [hk])) hk
    exact hden.valueAt_eq

/-- The guards at the entry, one after the other. -/
theorem emits_guards (hc : s.callers = []) {state : NodeId} (types : List (ℕ × ValueType)) :
    ∀ {p p' : Path} {b b' : Building},
      (∀ y ∈ p.locals, b.graph.kind? y = some (.constant .null)) → s.Keeps p →
      b.graph.node? state = some (stateNode s.context s.routine.body.id .start [] p) →
        p.control < b.graph.nodes.size →
      (types.foldlM
        (fun (p : Path) ((index, type) : ℕ × ValueType) =>
          match s.context.arguments[index]? with
          | some parameter => guardWith state parameter (.type type) .typeGuardFailure p
          | none => pure p) p).run b = .ok (p', b') →
      p'.locals = p.locals ∧ b'.returns = b.returns ∧ Emits X [s.tip [] p (.enter s.routine.body)]
        b.graph b'.graph [s.tip [] p' (.enter s.routine.body)] := by
  induction types with
  | nil =>
    intro p p' b b' _ _ _ hq h
    obtain ⟨rfl, rfl⟩ := run_pure h
    exact ⟨rfl, rfl, .refl (by simp) (by simpa [tip] using hq)⟩
  | cons t types ih =>
    intro p p' b b' hnull hp hstate hq h
    rw [List.foldlM_cons] at h
    obtain ⟨p₁, b₁, h1, h2⟩ := run_bind h
    dsimp only at h1
    cases harg : s.context.arguments[t.1]? with
    | none =>
      rw [harg] at h1
      obtain ⟨rfl, rfl⟩ := run_pure h1
      exact ih hnull hp hstate hq h2
    | some x =>
      rw [harg] at h1
      obtain ⟨rfl, rfl⟩ := run_guardWith h1
      have hguard := emits_entryGuard hc t.2 hnull hp hstate (List.mem_of_getElem? harg) hq
      obtain ⟨h3, h4, h5⟩ := @ih ⟨b.graph.nodes.size, p.locals, (x, t.2) :: p.facts⟩ p' _ b'
        (fun y hy => Building.kind?_push_of (hnull y hy)) hp (Building.node?_push_of hstate)
        (by simp) h2
      exact ⟨h3, h4, hguard.trans h5⟩

/-- The entry of a routine with its guards. -/
theorem emits_guardEntry (hc : s.callers = []) {p p' : Path} {b b' : Building}
    (hnull : ∀ y ∈ p.locals, b.graph.kind? y = some (.constant .null)) (hp : s.Keeps p)
    (hq : p.control < b.graph.nodes.size)
    (h : (guardEntry s.context s.routine p).run b = .ok (p', b')) :
    p'.locals = p.locals ∧ b'.returns = b.returns ∧
      Emits X [s.tip [] p (.enter s.routine.body)] b.graph b'.graph
      [s.tip [] p' (.enter s.routine.body)] := by
  unfold guardEntry at h
  split at h
  · obtain ⟨rfl, rfl⟩ := run_pure h
    exact ⟨rfl, rfl, .refl (by simp) (by simpa [tip] using hq)⟩
  · rw [frameState_eq] at h
    obtain ⟨state, b₁, h1, h2⟩ := run_bind h
    obtain ⟨rfl, rfl⟩ := run_addNode h1
    have hfloat : Emits X [s.tip [] p (.enter s.routine.body)] b.graph
        (b.push (stateNode s.context s.routine.body.id .start [] p)).graph
          [s.tip [] p (.enter s.routine.body)] :=
      .float rfl (by simp [stateNode]) narrowed_stateNode (by simp) (by simpa [tip] using hq)
    obtain ⟨h3, h4, h5⟩ := emits_guards hc _ (fun y hy => Building.kind?_push_of (hnull y hy)) hp
      (by rw [Building.node?_push, if_pos rfl]) (hfloat.after _ (by simp [tip])) h2
    exact ⟨h3, h4, hfloat.trans h5⟩

/-! ## The end -/

/-- The value of the routine is returned. -/
theorem emits_ret (hc : s.callers = []) {g : Graph} (a : Arrival)
    (hq : a.path.control < g.nodes.size) :
    Emits X [s.arrive [] a] g
      (g.add { kind := .ret, inputs := [a.value], control := [a.path.control] }).1 [] := by
  refine (Emits.behind (T := (s.arrive [] a).2) rfl rfl (by simp) (by simp) hq fun whole hf ρ hρ =>
    ?_).imp (by simp) (by simp)
  have hknown : Known whole X.arguments ρ a.value :=
    hρ.known _ (mem_nodes.2 (.inr (.inr (.inr (.inl (by simp [Doing.nodes]))))))
  refine ⟨_, .ret hf.added rfl rfl hknown.denotes, fun w o hw => ⟨w, ?_⟩⟩
  obtain ⟨k, o₁, h1, h2, h3⟩ := hw.2
  rw [Interpreter.rest_of_ends (by exact .finished) k] at h1
  subst h1
  simp only [spot, spotOn, hc] at h3
  cases h3
  rfl

end Scope

/-! ## From parameters to the end -/

/-- The arguments as the parameters of a routine hold them: a missing one is
null, and nobody asks about others. -/
def argumentsOf (r : Routine) (arguments : List Value) : List Value :=
  (List.range (max r.parameters r.argumentCount)).map fun i => (arguments[i]?).getD .null

/-- The scope of a routine that is not inlined. -/
def Scope.top (c : Context) (r : Routine) (hr : X.routines c.target r) (ho : c.outer = none) :
    Scope X where
  context := c
  routine := r
  callers := []
  registered := hr
  outer := ho
  placed := by simp

/-- A spot where a routine starts, once the graph is whole. -/
structure Starts (X : Setting) (r : Routine) (whole : Graph) (S : Spot) : Prop where
  good : S.Good whole X.arguments fun _ => none
  ends : ∀ k w, Interpreter.execute X.host k r (argumentsOf r X.arguments) w ≠ .exhausted →
    S.Ends (valueAt whole X.arguments fun _ => none) X.host w
      (Interpreter.execute X.host k r (argumentsOf r X.arguments) w)

/-- The parameters and the null that locals start with say what the routine
starts with. -/
theorem Scope.starts_top {c : Context} {r : Routine} {hr : X.routines c.target r}
    {ho : c.outer = none} {null : NodeId}
    (hparams : List.Forall₂ (fun i id => whole.kind? id = some (.parameter i))
      (List.range (max r.parameters r.argumentCount)) c.arguments)
    (hnull : whole.kind? null = some (.constant .null)) :
    Starts X r whole ((Scope.top c r hr ho).spot []
        ⟨Graph.start, List.replicate r.localCount null, []⟩ (.enter r.body)) := by
  have hden : List.Forall₂
      (fun i id => Denotes whole X.arguments (fun _ => none) id ((X.arguments[i]?).getD .null))
      (List.range (max r.parameters r.argumentCount)) c.arguments := by
    refine hparams.imp fun i id h => ?_
    obtain ⟨n, hn, hk⟩ := Graph.kind?_eq_some.1 h
    exact .parameter hn hk
  have hnulls : Denotes whole X.arguments (fun _ => none) null .null := denotes_constant hnull
  refine ⟨⟨fun x hx => ?_, by simp [spot, spotOn], .nil⟩, fun k w hne => ⟨k, _, ?_, hne, .nil⟩⟩
  · rcases mem_nodes.1 hx with hx | hx | hx | hx | ⟨c, hc, -⟩
    · obtain ⟨i, -, h⟩ := forall₂_exists_of_mem hden.flip hx
      exact ⟨_, h⟩
    · obtain rfl := List.eq_of_mem_replicate hx
      exact ⟨_, hnulls⟩
    · simp [pendingNodes] at hx
    · simp [Doing.nodes] at hx
    · simp [Scope.top] at hc
  · have hargs : c.arguments.map
        (valueAt whole X.arguments fun _ => none) = argumentsOf r X.arguments := by
      rw [argumentsOf, ← List.forall₂_eq_eq_eq, List.forall₂_map_left_iff,
        List.forall₂_map_right_iff]
      exact hden.flip.imp fun _ _ h => h.valueAt_eq
    simp only [spot, spotOn, Scope.frame, Scope.top, Spot.moment, NodeFrame.slots,
      NodeFrame.activation, List.map_nil, hargs, List.map_replicate, hnulls.valueAt_eq]
    rfl

/-- What building a routine emits, from the start to where nothing is left
open. -/
theorem emits_buildRoutine {target : TargetId} {t : CallTarget} {entries : List (ExprId × Entry)}
    {name : String} {b : Building} (hr : X.routines target t.routine)
    (hent : ∀ s : Scope X, s.routine = t.routine → s.context.entries = entries → s.Enters)
    (h : (buildRoutine target t entries).run ⟨Graph.init name, []⟩ = .ok ((), b)) :
    ∃ S : Spot, Emits X [(Graph.start, S)] (Graph.init name) b.graph [] ∧
      ∀ whole, Fits (Graph.init name) b.graph whole → Starts X t.routine whole S := by
  unfold buildRoutine at h
  obtain ⟨arguments, b₁, h1, h2⟩ := run_bind h
  obtain ⟨hret₁, hparams, hthrough⟩ := run_parameters (X := X) _ h1
  obtain ⟨null, b₂, h3, h4⟩ := run_bind h2
  obtain ⟨hret₂, hnull, hconst⟩ := run_constant (X := X) h3
  obtain ⟨p, b₃, hguards, h5⟩ := run_bind h4
  obtain ⟨completed, b₄, hbody, h6⟩ := run_bind h5
  obtain ⟨arrival, b₅, hfinish, h7⟩ := run_bind h6
  let s : Scope X :=
    .top { target, name := t.routine.name, profile := t.profile, arguments, outer := none, entries }
      t.routine hr rfl
  let S : Spot :=
    s.spot [] ⟨Graph.start, List.replicate t.routine.localCount null, []⟩ (.enter t.routine.body)
  have hparameters : Emits X [(Graph.start, S)] (Graph.init name) b₁.graph [(Graph.start, S)] :=
    hthrough _ (by simp) (by simp [Graph.init, Graph.start])
  have hconstant : Emits X [(Graph.start, S)] b₁.graph b₂.graph [(Graph.start, S)] :=
    hconst _ hparameters.nodup hparameters.after
  obtain ⟨hlocals, hret₃, hentry⟩ := Scope.emits_guardEntry (s := s) rfl
    (fun y hy => by rw [List.eq_of_mem_replicate hy]; exact hnull)
    (by simp [Scope.Keeps, s, Scope.top]) (hconstant.after _ (by simp)) hguards
  have hkeeps : s.Keeps p := by rw [Scope.Keeps, hlocals]; simp [s, Scope.top]
  obtain ⟨-, new, hnew, hnolocals, hwalk⟩ := Scope.walks (hent s rfl rfl) t.routine.body [] p b₃
    (fun _ => .here) hkeeps hentry.nodup hentry.after completed b₄ hbody
  rw [hret₃, hret₂, hret₁, List.nil_append] at hnew
  rw [← hnew] at hwalk hnolocals
  have hend := Scope.emits_finish hnolocals hwalk.nodup hwalk.after hfinish
  have hrest : Emits X [(Graph.start, S)] b₂.graph b.graph [] := by
    refine hentry.trans (hwalk.trans (hend.trans ?_))
    cases arrival with
    | none =>
      obtain ⟨-, rfl⟩ := run_pure h7
      exact .refl (by simp) (by simp)
    | some a =>
      obtain ⟨id, b₆, h8, h9⟩ := run_bind h7
      obtain ⟨rfl, rfl⟩ := run_addNode h8
      obtain ⟨-, rfl⟩ := run_pure h9
      exact Scope.emits_ret rfl a (hend.after _ (by simp [Scope.arrive, Scope.tip]))
  refine ⟨S, (hparameters.trans hconstant).trans hrest, fun whole hf => ?_⟩
  have hf₂ : Fits (Graph.init name) b₂.graph whole :=
    hrest.fits_left (hparameters.trans hconstant).size hf
  refine Scope.starts_top (hparams.imp fun i id hk => ?_) (hf₂.kind_eq hnull rfl)
  obtain ⟨n, hn, hk⟩ := Graph.kind?_eq_some.1 hk
  have hf₁ := hconstant.fits_left hparameters.size hf₂
  exact Graph.kind?_eq_some.2 ⟨n, hf₁.plain id n hn (by simp [hk]) (by simp [hk]), hk⟩

/-! ## The finished graph -/

section

variable {name : String} {g : Graph} {S : Spot}

theorem node_start (he : Emits X [(Graph.start, S)] (Graph.init name) g []) :
    g.node? Graph.start = some { kind := .start } := by
  rw [he.old _ (by simp [Graph.init, Graph.start])]
  rfl

theorem nodeOk (he : Emits X [(Graph.start, S)] (Graph.init name) g []) {m : NodeId} {n : Node}
    (hn : g.node? m = some n) (hm : m ≠ Graph.start) : NodeOk [Graph.start] 1 g m n :=
  he.nodes m n (Nat.one_le_iff_ne_zero.2 hm) hn

/-- A finished graph is a part of itself. -/
theorem fits_self (he : Emits X [(Graph.start, S)] (Graph.init name) g []) (hc : g.FramesCounted) :
    Fits (Graph.init name) g g where
  counted := hc
  plain _ _ hn _ _ := hn
  new _ _ _ := rfl
  later _ _ hid hn := absurd (Graph.lt_size_of_node? hn) (Nat.not_lt.2 hid)
  owned id n hn hk := by
    by_cases hid : id = Graph.start
    · subst hid
      rw [node_start he] at hn
      cases hn
      cases hk
    · obtain ⟨m, h1, -, h2⟩ := (nodeOk he hn hid).phi hk
      exact ⟨m, h1, h2⟩

/-- No count of a finished graph that was verified overflows. -/
theorem framesCounted_of_emits (he : Emits X [(Graph.start, S)] (Graph.init name) g [])
    (hv : g.verify = .ok ()) :
    g.FramesCounted := by
  refine (Graph.verify_eq_ok_iff.1 hv).framesCounted_of_narrowed fun m n hn => ?_
  by_cases hm : m = Graph.start
  · subst hm
    obtain rfl := Option.some.inj (hn.symm.trans (node_start he))
    exact Node.narrowed_of_isFixed rfl
  · exact (nodeOk he hn hm).narrowed

/-- The control of a finished graph that was verified is well-formed. -/
theorem flows_of_emits (he : Emits X [(Graph.start, S)] (Graph.init name) g [])
    (hv : g.verify = .ok ()) : g.Flows := by
  have hstart : ∀ {n}, g.node? Graph.start = some n → n = { kind := .start } := fun hn =>
    Option.some.inj (hn.symm.trans (node_start he))
  have hcases : ∀ {m n}, g.node? m = some n → n = { kind := .start } ∨
      NodeOk [Graph.start] 1 g m n := by
    intro m n hn
    by_cases hm : m = Graph.start
    · exact .inl (hstart (hm ▸ hn))
    · exact .inr (nodeOk he hn hm)
  refine ⟨⟨_, node_start he, rfl⟩, ?_, ?_, ?_, ?_⟩
  · intro m n hn hk hb ht
    refine List.length_eq_one_iff.1 ((Graph.length_successors_of_verify hv hn hk).trans ?_)
    generalize n.kind = k at hk hb ht
    cases k <;> simp_all [Graph.successorCount, NodeKind.isTerminal]
  · intro m n hn hk
    have hlen : (g.successors m).length = 2 := by
      rw [Graph.length_successors_of_verify hv hn (by simp [hk, NodeKind.isFixed]), hk]
      rfl
    obtain rfl | hok := hcases hn
    · cases hk
    · obtain ⟨a, b, -, -, ha, hb⟩ := hok.sides hk
      exact ⟨a, b, Graph.successors_eq_pair ha hb rfl rfl (by simp) (by simp) hlen,
        Graph.kind?_eq_some.2 ⟨_, ha, rfl⟩, Graph.kind?_eq_some.2 ⟨_, hb, rfl⟩⟩
  · intro m n i q hn hk hq
    obtain rfl | hok := hcases hn
    · simp at hq
    · exact (hok.edges hk i q hq).2.2
  · have hlast : ∀ m, ∃ last, ∀ n, g.node? m = some n → n.kind = .loopBegin →
        (∀ q ∈ n.control, q ≤ last) ∧ ∀ x nx, g.node? x = some nx → nx.kind.isFixed → m < x →
        x ≤ last → ∀ q ∈ nx.control, m ≤ q ∧ q ≤ last := by
      intro m
      by_cases hm : ∃ n, g.node? m = some n ∧ n.kind = .loopBegin
      · obtain ⟨n, hn, hk⟩ := hm
        obtain rfl | hok := hcases hn
        · cases hk
        · obtain ⟨last, -, h1, h2⟩ := hok.loop hk
          refine ⟨last, fun n' hn' _ => ?_⟩
          obtain rfl := Option.some.inj (hn.symm.trans hn')
          exact ⟨h1, h2⟩
      · exact ⟨0, fun n hn hk => absurd ⟨n, hn, hk⟩ hm⟩
    choose last hlast using hlast
    exact ⟨last, fun m n hn hk => hlast m n hn hk⟩

end

/-- What is known of the graph of a routine: every control edge satisfies its
condition, and at the start it is the routine that is left. -/
structure Certified (X : Setting) (r : Routine) (g : Graph) (L : NodeId → Spot) : Prop where
  edges : ∀ q m n, g.node? m = some n → n.kind.isFixed → q ∈ n.control →
    EdgeOk g X.arguments X.meaning (fun id => X.point g (L id)) q m
  starts : Starts X r g (L Graph.start)

variable {targets : Registry} {target : TargetId} {t : CallTarget} {plan : Plan} {g : Graph}

/-- What was built is verified. -/
theorem specialize_eq {b : Building} (hroot : plan.root = target) (hb : (buildRoutine target t
      (entriesOf targets plan.entries)).run ⟨Graph.init t.routine.name, []⟩ = .ok ((), b)) :
    specialize targets target t plan = match b.graph.verify with
      | .ok () => .ok b.graph
      | .error e => .error (.malformedGraph e) := by
  unfold specialize
  rw [if_neg (not_not_intro hroot), hb]
  rfl

theorem run_of_specialize (h : specialize targets target t plan = .ok g) :
    (∃ b, (buildRoutine target t (entriesOf targets plan.entries)).run
      ⟨Graph.init t.routine.name, []⟩ = .ok ((), b) ∧
      b.graph = g) ∧ g.verify = .ok () := by
  by_cases hroot : plan.root = target
  · cases hb : (buildRoutine target t (entriesOf targets plan.entries)).run
      ⟨Graph.init t.routine.name, []⟩ with
    | error e =>
      unfold specialize at h
      rw [if_neg (not_not_intro hroot), hb] at h
      cases h
    | ok r =>
      obtain ⟨u, b⟩ := r
      rw [specialize_eq hroot hb] at h
      cases hv : b.graph.verify with
      | error e => rw [hv] at h; cases h
      | ok u =>
        rw [hv] at h
        cases h
        exact ⟨⟨b, rfl, rfl⟩, hv⟩
  · unfold specialize at h
    rw [if_pos hroot] at h
    cases h

/-- The graph of a routine has well-formed control, and a spot for every fixed
node. -/
theorem certified_of_specialize (h : specialize targets target t plan = .ok g)
    (hr : X.routines target t.routine) (hX : X.Knows targets)
    (hplan : X.Unfolds ∧ (∀ e ∈ plan.entries, e.Suits (routinesOf targets) t.routine) ∨ X.Mute ∨
        plan.InlinesNothing) :
    g.Flows ∧ ∃ L, Certified X t.routine g L := by
  obtain ⟨⟨b, hrun, rfl⟩, hv⟩ := run_of_specialize h
  have hent : ∀ s : Scope X, s.routine = t.routine →
      s.context.entries = entriesOf targets plan.entries → s.Enters := by
    intro s hs hentries
    rcases hplan with ⟨hunfolds, hplan⟩ | hmute | hkept
    · exact Scope.enters_of_suits hX hunfolds (by rwa [hs]) hentries
    · exact Scope.enters_of_mute hX hmute _ (Nat.le_refl _) hentries
    · exact Scope.enters_of_kept hkept hentries
  obtain ⟨S, he, hstarts⟩ := emits_buildRoutine hr hent hrun
  have hf := fits_self he (framesCounted_of_emits he hv)
  obtain ⟨L, hL, hedges, -⟩ := he.labels _ hf (fun _ => S) fun e he' => by
    obtain rfl := List.mem_singleton.1 he'
    exact .refl
  refine ⟨flows_of_emits he hv, L, fun q m n hn hk hq => ?_, ?_⟩
  · by_cases hm : m = Graph.start
    · subst hm
      rw [node_start he] at hn
      cases hn
      simp at hq
    · exact hedges m n q (Nat.one_le_iff_ne_zero.2 hm) (Graph.lt_size_of_node? hn) hn hk hq
  · rw [hL Graph.start (by simp [Graph.init, Graph.start])]
    exact hstarts _ hf

end Specialize

end TieredEngine

import TieredEngine.Proofs.Code.Readings
import TieredEngine.Proofs.Code.Runs
/-!
# No evaluation fails

While code runs it asks for values: a step of control asks for those it reads
(`Demands`), and the value of an operator asks for those of its operands
(`Request.Asks`). In code of a safe graph every request that is ever made is
answered, so every operator succeeds and every register that is read has been
set; and what a run can fail with comes from a call, or from a branch on
something that is no truth value: `guarded_of_safe`.
-/

namespace TieredEngine

namespace Code

open TieredEngine.Graph
open Relation (ReflTransGen)

/-! ## Requests -/

/-- A request for the value of a node: how many nodes deep to look, the node,
and the registers. -/
structure Request where
  fuel : ℕ
  id : NodeId
  registers : Registers

section

variable (g : Graph) (arguments : List Value)

/-- Answer a request. -/
def Request.answer (q : Request) : Outcome GuestError Registers Value :=
  valueUpTo g arguments q.fuel q.id q.registers

/-- What an operator asks for that is not remembered: its operands, the second
one after the first was answered. -/
inductive Request.Asks : Request → Request → Prop
  | first {fuel id r n x} : r.cache.lookup id = none → g.node? id = some n → n.kind.isOperator →
      n.inputs[0]? = some x → Request.Asks ⟨fuel + 1, id, r⟩ ⟨fuel, x, r⟩
  | second {fuel id r n op x y a r'} : r.cache.lookup id = none → g.node? id = some n →
      n.kind = .binary op → n.inputs[0]? = some x → n.inputs[1]? = some y →
      valueUpTo g arguments fuel x r = .done a r' → Request.Asks ⟨fuel + 1, id, r⟩ ⟨fuel, y, r'⟩

/-- Nodes are read in turn: each one with the registers that reading those
before it has left. -/
inductive InTurn : List NodeId → Registers → NodeId → Registers → Prop
  | here {x xs r} : InTurn (x :: xs) r x r
  | later {x xs y v r r' r''} : valueOf g arguments x r = .done v r' → InTurn xs r' y r'' →
      InTurn (x :: xs) r y r''

end

/-- What the phis of a merge read over the edge with this number. -/
def mergeInputs (g : Graph) (m : NodeId) (index : ℕ) : List NodeId :=
  (g.phisOf m).filterMap fun phi => (g.node? phi).bind fun p => p.inputs[index]?

/-- What is read when frames are handed over. -/
def frameInputs (g : Graph) (s : NodeId) : List NodeId := (g.stateChain s).frames.flatMap Prod.snd

variable {σ : Type}

/-- The step from here asks for the value of a node in these registers. -/
inductive Demands (host : Host σ) (c : Code) (arguments : List Value) (here : Position)
    (a : Activation σ) :
    NodeId → Registers → Prop
  | input {n x} : c.graph.node? here.current = some n →
      (n.kind = .branch ∨ (∃ check reason, n.kind = .guard check reason) ∨ n.kind = .ret) →
      n.inputs[0]? = some x → Demands host c arguments here a x a.registers
  | merge {n q index x r} : c.graph.node? here.current = some n → n.kind.isMerge →
      here.previous = some q → n.control.idxOf? q = some index → InTurn c.graph arguments
      (mergeInputs c.graph here.current index) a.registers x r → Demands host c arguments here a x r
  | argument {n target site x r} : c.graph.node? here.current = some n →
      n.kind = .invoke target site →
      InTurn c.graph arguments n.inputs a.registers x r → Demands host c arguments here a x r
  | deoptimize {n reason s x r} : c.graph.node? here.current = some n →
      n.kind = .deoptimize reason → n.state = some s → InTurn c.graph arguments
      (frameInputs c.graph s) a.registers x r → Demands host c arguments here a x r
  /-- A guard that fails reads its frames after its input. -/
  | violated {n check reason y v r' s x r} : c.graph.node? here.current = some n →
      n.kind = .guard check reason → n.inputs[0]? = some y →
      valueOf c.graph arguments y a.registers = .done v r' → check.holds v = false →
      n.state = some s → InTurn c.graph arguments (frameInputs c.graph s) r' x r →
      Demands host c arguments here a x r
  /-- Code that is not valid after a call reads its frames when the answer is
  set. -/
  | invalidated {n target site vs r' v w s x r} : c.graph.node? here.current = some n →
      n.kind = .invoke target site →
    n.inputs.mapM (valueOf c.graph arguments) a.registers = .done vs r' →
      host.call target vs a.world = .done v w →
    host.valid w = false → n.state = some s →
    InTurn c.graph arguments (frameInputs c.graph s) ⟨r'.values.set here.current v, []⟩ x r →
    Demands host c arguments here a x r

/-- A run comes to this point. -/
def Comes (host : Host σ) (c : Code) (arguments : List Value) (world : σ) (here : Position)
    (a : Activation σ) : Prop :=
  ReflTransGen (Goes host c arguments) (entrance world) (here, a)

/-- A request that is made in some run: by a step of control, or to answer
another one. -/
def Requested (host : Host σ) (c : Code) (arguments : List Value) (world : σ) (q : Request) :
    Prop :=
  ∃ here a x r, Comes host c arguments world here a ∧ Demands host c arguments here a x r ∧
    ReflTransGen (Request.Asks c.graph arguments) ⟨c.graph.nodes.size + 1, x, r⟩ q

/-- The step from here fails for a reason that is not the code's: a call
fails, or the value of a condition is no truth value. -/
inductive Raises (host : Host σ) (c : Code) (arguments : List Value) (here : Position)
    (a : Activation σ) :
    GuestError → σ → Prop
  | call {n target site vs r e w} : c.graph.node? here.current = some n →
      n.kind = .invoke target site →
      n.inputs.mapM (valueOf c.graph arguments) a.registers = .done vs r →
      host.call target vs a.world = .stop e w → Raises host c arguments here a e w
  | condition {n x v r e} : c.graph.node? here.current = some n → n.kind = .branch →
      n.inputs[0]? = some x → valueOf c.graph arguments x a.registers = .done v r →
      v.condition = .error e → Raises host c arguments here a e a.world

/-- Whatever host the code runs with, no request for a value fails, no
register is read before it is set, and errors come from calls and conditions
only. -/
structure Guarded (c : Code) : Prop where
  answered : ∀ {σ : Type} (host : Host σ) (arguments : List Value) (world : σ) (q : Request),
    Requested host c arguments world q → ∃ v r, q.answer c.graph arguments = .done v r
  set : ∀ {σ : Type} (host : Host σ) (arguments : List Value) (world : σ) (q : Request) (n : Node),
    Requested host c arguments world q → c.graph.node? q.id = some n → n.kind.isRegister →
    ∃ v, q.registers.values.lookup q.id = some v
  errors : ∀ {σ : Type} (host : Host σ) (arguments : List Value) (world w : σ) (bound : ℕ) (e :
    GuestError), c.run host bound arguments world = .stop e w →
    ∃ here a, Comes host c arguments world here a ∧ Raises host c arguments here a e w

/-! ## Requests that can be answered -/

variable {g : Graph} {arguments : List Value} {ρ : Bindings} {r r' : Registers}
    {x s : NodeId} {v : Value}

/-- The node has a value in these registers, which is nested less deep than
the request may look. -/
def Request.Answerable (g : Graph) (arguments : List Value) (q : Request) : Prop :=
  Coherent g arguments q.registers ∧ ∃ h v, h < q.fuel ∧
    DenotesIn g arguments q.registers.bindings h q.id v

theorem answerable_of_known (hr : Coherent g arguments r) (h : Known g arguments r.bindings x) :
    Request.Answerable g arguments ⟨g.nodes.size + 1, x, r⟩ := by
  obtain ⟨v, hv⟩ := h
  exact ⟨hr, _, v, by simp only; omega, hv.depth⟩

theorem Request.Answerable.answer {q : Request} (h : q.Answerable g arguments) :
    ∃ v r, q.answer g arguments = .done v r := by
  obtain ⟨hr, k, v, hk, hd⟩ := h
  obtain ⟨cache, hdone, -⟩ := valueUpTo_eq k hr hd q.fuel hk
  exact ⟨v, _, hdone⟩

/-- Reading leaves the registers as they were but for what is remembered. -/
theorem Finds.done_eq {α : Type} {f : Reading α} {a b : α} (h : Finds g arguments f r a)
    (hdone : f r = .done b r') :
    b = a ∧ r'.values = r.values ∧ Coherent g arguments r' := by
  obtain ⟨cache, h1, h2⟩ := h
  cases h1.symm.trans hdone
  exact ⟨rfl, rfl, h2⟩

theorem bindings_congr (h : r'.values = r.values) : r'.bindings = r.bindings := by
  funext x
  rw [Registers.bindings, Registers.bindings, h]

/-- What a request that can be answered asks for can be answered. -/
theorem Request.Asks.answerable {q q' : Request} (h : Request.Asks g arguments q q')
    (hq : q.Answerable g arguments) :
    q'.Answerable g arguments := by
  obtain ⟨hr, k, v, hk, hd⟩ := hq
  cases h with
  | first _ hn ho hx =>
    cases hd with
    | binary hn' hk' hx' _ ha =>
      obtain rfl := Option.some.inj (hn.symm.trans hn')
      obtain rfl := Option.some.inj (hx.symm.trans hx')
      exact ⟨hr, _, _, Nat.lt_of_succ_lt_succ hk, ha⟩
    | unary hn' hk' hx' ha =>
      obtain rfl := Option.some.inj (hn.symm.trans hn')
      obtain rfl := Option.some.inj (hx.symm.trans hx')
      exact ⟨hr, _, _, Nat.lt_of_succ_lt_succ hk, ha⟩
    | constant hn' hk' | parameter hn' hk' =>
      obtain rfl := Option.some.inj (hn.symm.trans hn')
      rw [hk'] at ho
      cases ho
    | register hn' hk' =>
      obtain rfl := Option.some.inj (hn.symm.trans hn')
      revert ho hk'
      cases Node.kind _ <;> simp [NodeKind.isOperator, NodeKind.isRegister]
  | @second _ _ _ n op _ _ _ _ _ hn hop hx hy hdone =>
    cases hd with
    | binary hn' hk' hx' hy' ha hb =>
      obtain rfl := Option.some.inj (hn.symm.trans hn')
      obtain rfl := Option.some.inj (hx.symm.trans hx')
      obtain rfl := Option.some.inj (hy.symm.trans hy')
      have hlt := Nat.lt_of_succ_lt_succ hk
      obtain ⟨-, hvalues, hr'⟩ := (valueUpTo_eq _ hr ha _ hlt).done_eq hdone
      exact ⟨hr', _, _, hlt, bindings_congr hvalues ▸ hb⟩
    | constant hn' hk' | parameter hn' hk' | unary hn' hk' | register hn' hk' =>
      obtain rfl := Option.some.inj (hn.symm.trans hn')
      simp [hop, NodeKind.isRegister] at hk'

theorem answerable_of_asks {q q' : Request} (h : ReflTransGen (Request.Asks g arguments) q q')
    (hq : q.Answerable g arguments) : q'.Answerable g arguments := by
  induction h with
  | refl => exact hq
  | tail _ hs ih => exact hs.answerable ih

theorem InTurn.answerable {xs : List NodeId} (h : InTurn g arguments xs r x r')
    (hr : Coherent g arguments r) (hxs : ∀ y ∈ xs, Known g arguments r.bindings y) :
    Request.Answerable g arguments ⟨g.nodes.size + 1, x, r'⟩ := by
  induction h with
  | here => exact answerable_of_known hr (hxs _ List.mem_cons_self)
  | @later x xs y v r r' r'' hdone _ ih =>
    obtain ⟨w, hw⟩ := hxs x List.mem_cons_self
    obtain ⟨-, hvalues, hr'⟩ := (valueOf_eq hr (.refl _) hw).done_eq hdone
    refine ih hr' fun y hy => ?_
    rw [bindings_congr hvalues]
    exact hxs y (List.mem_cons_of_mem _ hy)

/-! ## What a step reads is known -/

theorem known_of_forall₂ {xs : List NodeId} {vs : List Value}
    (h : List.Forall₂ (Denotes g arguments ρ) xs vs) :
    ∀ y ∈ xs, Known g arguments ρ y := by
  induction h with
  | nil => simp
  | cons hd _ ih =>
    intro y hy
    rcases List.mem_cons.1 hy with rfl | hy
    · exact ⟨_, hd⟩
    · exact ih y hy

theorem known_of_framesAt {fs : List SuspendedFrame} (h : FramesAt g arguments ρ s fs) :
    ∀ y ∈ frameInputs g s, Known g arguments ρ y := by
  have hframes : ∀ fuel, ∀ y ∈ (g.followStates fuel s).frames.flatMap Prod.snd,
      Known g arguments ρ y := by
    induction h with
    | @last s n shape vs hn hk hl hs hv =>
      intro fuel y hy
      obtain ⟨kind, inputs, control, state⟩ := n
      dsimp only at hk hl hs hv
      subst hk hs
      cases fuel with
      | zero => simp [Graph.followStates] at hy
      | succ fuel =>
        rw [Graph.followStates, hn] at hy
        simp only [if_pos hl.valueCount_eq.symm, List.flatMap_cons, List.flatMap_nil,
          List.append_nil] at hy
        exact known_of_forall₂ hv y hy
    | @more s n shape vs o fs hn hk hl hs hv _ ih =>
      intro fuel y hy
      obtain ⟨kind, inputs, control, state⟩ := n
      dsimp only at hk hl hs hv
      subst hk hs
      cases fuel with
      | zero => simp [Graph.followStates] at hy
      | succ fuel =>
        rw [Graph.followStates, hn] at hy
        simp only [if_pos hl.valueCount_eq.symm, List.flatMap_cons, List.mem_append] at hy
        rcases hy with hy | hy
        · exact known_of_forall₂ hv y hy
        · exact ih fuel y hy
  exact hframes g.nodes.size

theorem known_of_updatesAt {m : NodeId} {index : ℕ} {us : Values}
    (h : UpdatesAt g arguments ρ index (g.phisOf m) us) :
    ∀ y ∈ mergeInputs g m index, Known g arguments ρ y := by
  unfold mergeInputs
  generalize g.phisOf m = phis at h
  induction h with
  | nil => simp
  | cons hu _ ih =>
    obtain ⟨-, p, z, hp, hz, hd⟩ := hu
    intro y hy
    rw [List.filterMap_cons, hp, Option.bind_some, hz] at hy
    rcases List.mem_cons.1 hy with rfl | hy
    · exact ⟨_, hd⟩
    · exact ih y hy

/-! ## Runs of safe code -/

theorem Safe.does {κ : Config} (hsafe : Safe g arguments) (hκ : Reach g arguments κ) :
    ∃ e, κ.Does g arguments e := by
  rcases hsafe κ hκ with ⟨x, hends⟩ | ⟨l, κ₁, hs⟩
  · cases hends <;> exact ⟨_, ‹_›⟩
  · cases hs <;> exact ⟨_, ‹_›⟩

section

variable {host : Host σ} {c : Code} {world w : σ} {here : Position} {a : Activation σ}

/-- The configuration of the machine where running code is. -/
structure Mirrors (c : Code) (arguments : List Value) (here : Position) (a : Activation σ)
    (κ : Config) : Prop where
  reach : Reach c.graph arguments κ
  here : here = ⟨κ.current, κ.previous⟩
  coherent : Coherent c.graph arguments a.registers
  bindings : a.registers.bindings = κ.bindings

variable (hg : c.graph.Runnable) (hsafe : Safe c.graph arguments)

include hg hsafe

/-- A step of running code is a step of the machine. -/
theorem Mirrors.goes {κ : Config} {next : Position} {a' : Activation σ}
    (h : Mirrors c arguments here a κ) (hgo : Goes host c arguments (here, a) (next, a')) :
    ∃ κ', Mirrors c arguments next a' κ' := by
  obtain ⟨hκ, rfl, hr, hb⟩ := h
  have hgo : step host c arguments ⟨κ.current, κ.previous⟩ ⟨a.registers, a.world⟩ =
      .done (.go next) a' := hgo
  rcases hsafe κ hκ with ⟨x, hends⟩ | ⟨l, κ₁, hs⟩
  · -- where the machine ends, control does not go on
    obtain ⟨r', hstep⟩ := step_of_ends hr hb hends a.world
    rw [hstep host] at hgo
    cases x <;> cases hgo
  cases l with
  | silent =>
    obtain ⟨r', hstep, hr', hb'⟩ := step_of_silent hg hκ hr hb hs a.world
    rw [hstep host] at hgo
    cases hgo
    exact ⟨κ₁, .step hκ hs, rfl, hr', hb'⟩
  | call target vs f callers v =>
    obtain ⟨stopped, handed, hstep⟩ := step_of_call hg hκ hr hb hs a.world
    rw [hstep host] at hgo
    cases hcall : host.call target vs a.world with
    | exhausted => simp only [hcall, reduceCtorEq] at hgo
    | stop e w' => simp only [hcall, reduceCtorEq] at hgo
    | done v' w' =>
      simp only [hcall] at hgo
      split at hgo
      · cases hgo
        exact ⟨_, .step hκ (hs.answer v'), rfl, fun _ _ h => (by cases h), by rw [bindings_set, hb]⟩
      · cases hgo

theorem mirrors_of_comes (h : Comes host c arguments world here a) :
    ∃ κ, Mirrors c arguments here a κ := by
  have general : ∀ x, ReflTransGen (Goes host c arguments) (entrance world) x →
      ∃ κ, Mirrors c arguments x.1 x.2 κ := by
    intro x hx
    induction hx with
    | refl => exact ⟨.start, .start, rfl, fun _ _ h => (by cases h), rfl⟩
    | tail _ hgo ih =>
      obtain ⟨κ, hκ⟩ := ih
      exact hκ.goes hg hsafe hgo
  exact general (here, a) h

/-- What a step asks for can be answered. -/
theorem Mirrors.answerable {κ : Config} {x : NodeId} {r : Registers}
    (h : Mirrors c arguments here a κ) (hd : Demands host c arguments here a x r) :
    Request.Answerable c.graph arguments ⟨c.graph.nodes.size + 1, x, r⟩ := by
  obtain ⟨hκ, rfl, hr, hb⟩ := h
  obtain ⟨e, hdoes⟩ := hsafe.does hκ
  have hle : κ.bindings.Le a.registers.bindings := hb ▸ .refl _
  cases hd with
  | input hn hk hx =>
    have heff := (effects_iff hn).1 hdoes
    refine answerable_of_known hr ?_
    rcases hk with hk | ⟨check, reason, hk⟩ | hk
    all_goals
      simp only [EffectAt, hk] at heff
      obtain ⟨x', v, hx', hv, -⟩ := heff
      obtain rfl := Option.some.inj (hx.symm.trans hx')
      exact ⟨v, hv.mono hle⟩
  | merge hn hk hq hi hturn =>
    have heff := (effects_iff hn).1 hdoes
    dsimp only at hq
    rcases NodeKind.isMerge_iff.1 hk with hk | hk
    all_goals
      simp only [EffectAt, hk] at heff
      obtain ⟨index, us, hindex, hus, -⟩ := heff
      rw [hq, Option.bind_some, hi] at hindex
      obtain rfl := Option.some.inj hindex
      exact hturn.answerable hr fun y hy => (known_of_updatesAt hus y hy).mono hle
  | argument hn hk hturn =>
    have heff := (effects_iff hn).1 hdoes
    simp only [EffectAt, hk] at heff
    obtain ⟨vs, s, f, callers, hvs, -⟩ := heff
    exact hturn.answerable hr fun y hy => (known_of_forall₂ hvs y hy).mono hle
  | deoptimize hn hk hs hturn =>
    have heff := (effects_iff hn).1 hdoes
    simp only [EffectAt, hk] at heff
    obtain ⟨s', f, callers, hs', hf, -⟩ := heff
    obtain rfl := Option.some.inj (hs.symm.trans hs')
    exact hturn.answerable hr fun y hy => (known_of_framesAt hf y hy).mono hle
  | violated hn hk hy hread hcheck hs hturn =>
    have heff := (effects_iff hn).1 hdoes
    simp only [EffectAt, hk] at heff
    obtain ⟨y', v, hy', hv, heff⟩ := heff
    obtain rfl := Option.some.inj (hy.symm.trans hy')
    obtain ⟨rfl, hvalues, hr'⟩ := (valueOf_eq hr hle hv).done_eq hread
    obtain ⟨-, s', f, callers, hs', hf, -⟩ := heff.resolve_left fun h => by simp [h.1] at hcheck
    obtain rfl := Option.some.inj (hs.symm.trans hs')
    refine hturn.answerable hr' fun z hz => (known_of_framesAt hf z hz).mono ?_
    rwa [bindings_congr hvalues]
  | @invalidated n target site vs r' v w s x r hn hk hread _ _ hs hturn =>
    have heff := (effects_iff hn).1 hdoes
    simp only [EffectAt, hk] at heff
    obtain ⟨vs', s', f, callers, hvs, -, -, rfl⟩ := heff
    -- the frames do not depend on the last answer, so they are known with the
    -- new one
    have hbefore := (effects_iff hn).1 (hdoes.call_without hg hκ)
    simp only [EffectAt, hk] at hbefore
    obtain ⟨_, s', _, _, -, hs', hf, -⟩ := hbefore
    obtain rfl := Option.some.inj (hs.symm.trans hs')
    obtain ⟨-, hvalues, -⟩ := (valuesOf_eq hr hle hvs).done_eq hread
    have hwithout : (Bindings.without κ.bindings κ.current).Le r'.bindings := by
      intro y u hy
      rw [bindings_congr hvalues, hb]
      unfold Bindings.without at hy
      split at hy
      · cases hy
      · exact hy
    refine hturn.answerable (fun _ _ h => (by cases h)) fun z hz =>
      (known_of_framesAt hf z hz).mono ?_
    exact bindings_set_of_le hwithout (if_pos rfl)

/-- Every request made in a run can be answered. -/
theorem answerable_of_requested {q : Request} (h : Requested host c arguments world q) :
    q.Answerable c.graph arguments := by
  obtain ⟨here, a, x, r, hcomes, hdemands, hasks⟩ := h
  obtain ⟨κ, hκ⟩ := mirrors_of_comes hg hsafe hcomes
  exact answerable_of_asks hasks (hκ.answerable hg hsafe hdemands)

/-- A step fails with a call or with a condition. -/
theorem Mirrors.raises {κ : Config} {e : GuestError} {a' : Activation σ}
    (h : Mirrors c arguments here a κ) (hstop : step host c arguments here a = .stop e a') :
    Raises host c arguments here a e a'.world := by
  obtain ⟨hκ, rfl, hr, hb⟩ := h
  have hle : κ.bindings.Le a.registers.bindings := hb ▸ .refl _
  have hstop : step host c arguments ⟨κ.current, κ.previous⟩ ⟨a.registers, a.world⟩ = .stop e a' :=
    hstop
  rcases hsafe κ hκ with ⟨x, hends⟩ | ⟨l, κ₁, hs⟩
  · obtain ⟨r', hstep⟩ := step_of_ends hr hb hends a.world
    rw [hstep host] at hstop
    cases hends with
    | finish => cases hstop
    | fail hd =>
      cases hstop
      cases hd with
      | noCondition hn hk hx hd hv =>
        obtain ⟨cache, hread, -⟩ := valueOf_eq hr hle hd
        exact .condition hn hk hx hread hv
  cases l with
  | silent =>
    obtain ⟨r', hstep, -⟩ := step_of_silent hg hκ hr hb hs a.world
    rw [hstep host] at hstop
    cases hstop
  | call target vs f callers v =>
    obtain ⟨stopped, handed, hstep⟩ := step_of_call hg hκ hr hb hs a.world
    rw [hstep host] at hstop
    cases hcall : host.call target vs a.world with
    | exhausted => simp only [hcall, reduceCtorEq] at hstop
    | done v' w' =>
      simp only [hcall] at hstop
      split at hstop <;> cases hstop
    | stop e w' =>
      simp only [hcall] at hstop
      cases hstop
      cases hs with
      | call _ hd =>
        cases hd with
        | call hn hk hvs =>
          obtain ⟨cache, hread, -⟩ := valuesOf_eq hr hle hvs
          exact .call hn hk hread hcall

omit hg hsafe in
/-- A run that fails does so in some step. -/
theorem exists_stop_of_run {bound : ℕ} {e : GuestError}
    (h : c.run host bound arguments world = .stop e w) :
    ∃ here a a', Comes host c arguments world here a ∧ step host c arguments here a = .stop e a' ∧
      a'.world = w := by
  -- by induction on the number of control steps that are left
  have general : ∀ (bound : ℕ) (here : Position) (a a' : Activation σ),
      Comes host c arguments world here a → runFrom host c arguments bound here a = .stop e a' →
      ∃ here a, Comes host c arguments world here a ∧
      step host c arguments here a = .stop e a' := by
    intro bound
    induction bound with
    | zero =>
      intro here a a' _ hrun
      cases hrun
    | succ bound ih =>
      intro here a a' hcomes hrun
      unfold runFrom at hrun
      cases hs : step host c arguments here a with
      | exhausted => rw [hs] at hrun; cases hrun
      | stop e₁ a₁ =>
        rw [hs] at hrun
        cases hrun
        exact ⟨here, a, hcomes, hs⟩
      | done p a₁ =>
        rw [hs] at hrun
        cases p with
        | go next => exact ih next a₁ a' (hcomes.tail hs) hrun
        | finish result => cases hrun
  unfold run at h
  cases hr : runFrom host c arguments bound ⟨Graph.start, none⟩ ⟨⟨[], []⟩, world⟩ with
  | exhausted => rw [hr] at h; cases h
  | done result a' => rw [hr] at h; cases h
  | stop e₁ a' =>
    rw [hr] at h
    cases h
    obtain ⟨here, a, hcomes, hstop⟩ := general bound _ _ a' .refl hr
    exact ⟨here, a, a', hcomes, hstop, rfl⟩

end

/-- In code of a safe graph no evaluation fails, and errors come from calls
and conditions only. -/
theorem guarded_of_safe {c : Code} (hg : c.graph.Runnable)
    (hsafe : ∀ arguments, Safe c.graph arguments) : c.Guarded where
  answered host arguments world q hq := (answerable_of_requested hg (hsafe arguments) hq).answer
  set host arguments world q n hq hn hk := by
    obtain ⟨-, h, v, -, hd⟩ := answerable_of_requested hg (hsafe arguments) hq
    cases hd with
    | register _ _ hv => exact ⟨v, hv⟩
    | constant hn' hk' | parameter hn' hk' | binary hn' hk' | unary hn' hk' =>
      obtain rfl := Option.some.inj (hn.symm.trans hn')
      rw [hk'] at hk
      cases hk
  errors host arguments world w bound e h := by
    obtain ⟨here, a, a', hcomes, hstop, rfl⟩ := exists_stop_of_run h
    obtain ⟨κ, hκ⟩ := mirrors_of_comes hg (hsafe arguments) hcomes
    exact ⟨here, a, hcomes, hκ.raises hg (hsafe arguments) hstop⟩

end Code

end TieredEngine

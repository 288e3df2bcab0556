import Mathlib.Logic.Relation
import TieredEngine.Proofs.Code.Effects
/-!
# What running code has read

The other direction of `valueOf_eq` and `handOver_eq`: whatever a finished
reading gave is what the nodes stand for. So a run that gave up did so at a
node where that is what happens: `givesUpAt_of_run` finds the node, and
`GivesUpAt.effects` says what happened there.
-/

namespace TieredEngine

open Relation (ReflTransGen)

namespace Code

variable {g : Graph} {arguments : List Value} {values : Values} {α β : Type}

/-! ## Readings -/

/-- The registers with these values. -/
def Values.bindings (values : Values) : Bindings := fun id => values.lookup id

/-- Wherever these are the values of the registers and remembered values are
right, a finished reading gives what `P` says. It changes nothing but what is
remembered, and that stays right. -/
def GivesOnly (g : Graph) (arguments : List Value) (values : Values) (x : Reading α)
    (P : α → Prop) : Prop :=
  ∀ cache r' a, Coherent g arguments ⟨values, cache⟩ → x ⟨values, cache⟩ = .done a r' →
    r'.values = values ∧ Coherent g arguments r' ∧ P a

theorem givesOnly_pure {P : α → Prop} {a : α} (h : P a) :
    GivesOnly g arguments values (pure a) P := by
  intro cache r' b hr hx
  cases hx
  exact ⟨rfl, hr, h⟩

theorem givesOnly_leave {P : α → Prop} (e : GuestError) :
    GivesOnly g arguments values (Comp.leave e) P := by
  intro cache r' a _ hx
  cases hx

theorem givesOnly_exhaust {P : α → Prop} : GivesOnly g arguments values Comp.exhaust P := by
  intro cache r' a _ hx
  cases hx

theorem GivesOnly.bind {x : Reading α} {f : α → Reading β} {P : α → Prop} {Q : β → Prop}
    (hx : GivesOnly g arguments values x P) (hf : ∀ a, P a → GivesOnly g arguments values (f a) Q) :
    GivesOnly g arguments values (x >>= f) Q := by
  intro cache r' b hr hrun
  obtain ⟨a, ⟨values₁, cache₁⟩, h1, h2⟩ := Comp.bind_eq_done hrun
  obtain ⟨rfl, hr₁, hP⟩ := hx cache _ a hr h1
  exact hf a hP cache₁ r' b hr₁ h2

theorem GivesOnly.mono {x : Reading α} {P Q : α → Prop} (h : GivesOnly g arguments values x P)
    (hPQ : ∀ a, P a → Q a) :
    GivesOnly g arguments values x Q := by
  intro cache r' a hr hx
  obtain ⟨h1, h2, h3⟩ := h cache r' a hr hx
  exact ⟨h1, h2, hPQ a h3⟩

/-- A reading that looks at the registers first. -/
theorem givesOnly_state {f : Registers → Reading β} {Q : β → Prop}
    (h : ∀ cache,
      Coherent g arguments ⟨values, cache⟩ → GivesOnly g arguments values (f ⟨values, cache⟩) Q) :
    GivesOnly g arguments values (Comp.state >>= f) Q :=
  fun cache r' b hr hrun => h cache hr cache r' b hr hrun

theorem givesOnly_ofExcept (x : Except GuestError α) :
    GivesOnly g arguments values (Comp.ofExcept x) fun a => x = .ok a := by
  cases x with
  | ok a => exact givesOnly_pure rfl
  | error e => exact givesOnly_leave e

theorem givesOnly_inputAt (id : NodeId) (inputs : List NodeId) (index : ℕ) :
    GivesOnly g arguments values (inputAt id inputs index) fun x => inputs[index]? = some x := by
  unfold inputAt
  split
  · rename_i x hx
    exact givesOnly_pure hx
  · exact givesOnly_leave _

theorem givesOnly_remember {id : NodeId} {v : Value}
    (h : Denotes g arguments values.bindings id v) :
    GivesOnly g arguments values (remember id v) fun w => w = v := by
  intro cache r' w hr hx
  obtain ⟨cache', h1, h2⟩ := finds_remember hr h
  cases h1.symm.trans hx
  exact ⟨rfl, h2, rfl⟩

theorem GivesOnly.mapM {ι : Type} {f : ι → Reading β} {P : ι → β → Prop}
    (hf : ∀ i, GivesOnly g arguments values (f i) (P i)) :
    ∀ is : List ι, GivesOnly g arguments values (is.mapM f) fun bs => List.Forall₂ P is bs
  | [] => givesOnly_pure .nil
  | i :: is => by
    rw [List.mapM_cons]
    refine (hf i).bind fun b hb => (GivesOnly.mapM hf is).bind fun bs hbs => ?_
    exact givesOnly_pure (.cons hb hbs)

/-! ## Values -/

theorem givesOnly_valueUpTo (fuel : ℕ) :
    ∀ id, GivesOnly g arguments values (valueUpTo g arguments fuel id)
      fun v => Denotes g arguments values.bindings id v := by
  induction fuel with
  | zero => exact fun _ => givesOnly_exhaust
  | succ fuel ih =>
    intro id
    rw [valueUpTo]
    refine givesOnly_state fun cache hcache => ?_
    dsimp only
    cases hc : cache.lookup id with
    | some v => exact givesOnly_pure (hcache id v hc)
    | none =>
      cases hn : g.node? id with
      | none => exact givesOnly_leave _
      | some n =>
        dsimp only
        cases hk : n.kind with
        | constant v =>
          exact (givesOnly_remember (.constant hn hk)).mono fun w hw => hw ▸ .constant hn hk
        | parameter index =>
          exact (givesOnly_remember (.parameter hn hk)).mono fun w hw => hw ▸ .parameter hn hk
        | binary op =>
          refine (givesOnly_inputAt id n.inputs 0).bind fun x hx => (ih x).bind fun a ha =>
            (givesOnly_inputAt id n.inputs 1).bind fun y hy => (ih y).bind fun b hb =>
              (givesOnly_ofExcept _).bind fun v hv => ?_
          have hd := Denotes.binary hn hk hx hy ha hb hv
          exact (givesOnly_remember hd).mono fun w hw => hw ▸ hd
        | unary op =>
          refine (givesOnly_inputAt id n.inputs 0).bind fun x hx => (ih x).bind fun a ha =>
            (givesOnly_ofExcept _).bind fun v hv => ?_
          have hd := Denotes.unary hn hk hx ha hv
          exact (givesOnly_remember hd).mono fun w hw => hw ▸ hd
        | phi | invoke =>
          refine givesOnly_state fun cache _ => ?_
          dsimp only
          cases hv : values.lookup id with
          | some v => exact givesOnly_pure (.register hn (by rw [hk]; rfl) hv)
          | none => exact givesOnly_leave _
        | _ => exact givesOnly_leave _

/-- The value that running code finds is the one that the node stands for. -/
theorem givesOnly_valueOf (id : NodeId) : GivesOnly g arguments values (valueOf g arguments id)
    fun v => Denotes g arguments values.bindings id v := givesOnly_valueUpTo _ id

theorem givesOnly_input (id : NodeId) (inputs : List NodeId) (index : ℕ) :
    GivesOnly g arguments values (do valueOf g arguments (← inputAt id inputs index))
      fun v => ∃ x, inputs[index]? = some x ∧ Denotes g arguments values.bindings x v :=
  (givesOnly_inputAt id inputs index).bind fun x hx =>
    (givesOnly_valueOf x).mono fun _ hv => ⟨x, hx, hv⟩

/-! ## Frames -/

/-- The frame is made of the values that the inputs of a frame state stand
for. -/
def ReadOff (g : Graph) (arguments : List Value) (ρ : Bindings) (frame : FrameShape × List NodeId)
    (f : SuspendedFrame) : Prop :=
  ∃ vs, List.Forall₂ (Denotes g arguments ρ) frame.2 vs ∧ frame.1.splits vs.length ∧
    f = frame.1.fill vs

theorem givesOnly_takeApart (shape : FrameShape) (vs : List Value) :
    GivesOnly g arguments values (Graph.takeApart (fault .frameOverrun) shape vs) fun f =>
      shape.splits vs.length ∧ f = shape.fill vs := by
  unfold Graph.takeApart
  split
  · exact givesOnly_pure ⟨‹_›, rfl⟩
  · exact givesOnly_leave _

theorem givesOnly_readFrames :
    ∀ frames : List (FrameShape × List NodeId), GivesOnly g arguments values
      (Graph.readFrames (valueOf g arguments) (fault .frameOverrun) frames) fun fs =>
      List.Forall₂ (ReadOff g arguments values.bindings) frames fs
  | [] => givesOnly_pure .nil
  | (shape, inputs) :: frames => by
    refine (GivesOnly.mapM givesOnly_valueOf inputs).bind fun vs hvs =>
      (givesOnly_takeApart shape vs).bind fun f hf => ?_
    refine (givesOnly_readFrames frames).bind fun fs hfs => ?_
    exact givesOnly_pure (.cons ⟨vs, hvs, hf⟩ hfs)

/-- The frames read off a complete chain are those that it stands for. -/
theorem framesAt_of_followStates {ρ : Bindings} (fuel : ℕ) :
    ∀ {s : NodeId} {fs : List SuspendedFrame}, (g.followStates fuel s).ending = .complete →
      List.Forall₂ (ReadOff g arguments ρ) (g.followStates fuel s).frames fs →
      FramesAt g arguments ρ s fs := by
  induction fuel with
  | zero =>
    intro s fs hend
    cases hend
  | succ fuel ih =>
    intro s fs hend hread
    rw [Graph.followStates] at hend hread
    split at hend
    · rename_i shape inputs control outer hn
      simp only [hn] at hread
      split at hend
      · rename_i hlen
        rw [if_pos hlen] at hread
        cases outer with
        | none =>
          cases hread with
          | cons h hnil =>
            cases hnil
            obtain ⟨vs, hvs, hsplits, rfl⟩ := h
            exact .last hn rfl
              (FrameShape.counts_iff.2 ⟨hlen, hvs.length_eq.symm ▸ hsplits⟩) rfl hvs
        | some outer =>
          cases hread with
          | cons h hrest =>
            obtain ⟨vs, hvs, hsplits, rfl⟩ := h
            exact .more hn rfl
              (FrameShape.counts_iff.2 ⟨hlen, hvs.length_eq.symm ▸ hsplits⟩) rfl hvs (ih hend hrest)
      · cases hend
    · cases hend

/-- What is handed over are the frames that the chain of frame states stands
for. -/
theorem givesOnly_handOver (id : NodeId) (state : Option NodeId) :
    GivesOnly g arguments values (handOver g arguments id state none)
    fun snapshot => ∃ s, state = some s ∧
      FramesAt g arguments values.bindings s (snapshot.innermost :: snapshot.callers) := by
  unfold handOver
  cases state with
  | none => exact givesOnly_leave _
  | some s =>
    unfold Graph.materialize
    dsimp only
    rw [bind_assoc]
    refine (givesOnly_readFrames _).bind fun fs hfs => ?_
    cases hend : (g.stateChain s).ending with
    | complete =>
      cases fs with
      | nil => exact givesOnly_leave _
      | cons f callers => exact givesOnly_pure ⟨s, rfl, framesAt_of_followStates _ hend hfs⟩
    | broken => exact givesOnly_leave _
    | endless => exact givesOnly_exhaust

theorem handOver_some (id : NodeId) (state : Option NodeId) (v : Value) :
    handOver g arguments id state (some v) = (do
    let snapshot ← handOver g arguments id state none
    return { snapshot with innermost := snapshot.innermost.push v }) := by
  cases state with
  | none => rfl
  | some s =>
    unfold handOver
    dsimp only
    rw [bind_assoc]
    simp only [pure_bind]

/-- The answer of a call goes on top of the innermost frame. -/
theorem givesOnly_handOver_answer (id : NodeId) (state : Option NodeId) (v : Value) :
    GivesOnly g arguments values (handOver g arguments id state (some v)) fun snapshot => ∃ s f,
      state = some s ∧ FramesAt g arguments values.bindings s (f :: snapshot.callers) ∧
        snapshot.innermost = f.push v := by
  rw [handOver_some]
  refine (givesOnly_handOver id state).bind fun snapshot hsnapshot => ?_
  obtain ⟨s, hs, hf⟩ := hsnapshot
  exact givesOnly_pure ⟨s, snapshot.innermost, hs, hf, rfl⟩

/-! ## Steps -/

section

variable {σ : Type} {host : Host σ} {c : Code}

theorem reading_eq_done {x : Reading α} {a a' : Activation σ} {v : α}
    (h : reading x a = .done v a') :
    ∃ r, x a.registers = .done v r ∧ a' = { a with registers := r } := by
  unfold reading Comp.within at h
  cases hrun : x a.registers with
  | done w r =>
    rw [hrun] at h
    cases h
    exact ⟨r, rfl, rfl⟩
  | stop e r => rw [hrun] at h; cases h
  | exhausted => rw [hrun] at h; cases h

theorem reading_givesOnly {x : Reading α} {P : α → Prop} {a a' : Activation σ} {v : α}
    (hx : GivesOnly g arguments a.registers.values x P) (hr : Coherent g arguments a.registers)
    (h : reading x a = .done v a') :
    a'.registers.values = a.registers.values ∧ Coherent g arguments a'.registers ∧ P v := by
  obtain ⟨r, hrun, rfl⟩ := reading_eq_done h
  exact hx a.registers.cache r v hr hrun

theorem goTo_eq_done {current : NodeId} {next : Option NodeId} {missing : InternalFault}
    {a a' : Activation σ} {p : Progress} (h : goTo current next missing a = .done p a') :
    a' = a ∧ ∃ position, p = .go position := by
  unfold goTo at h
  cases next with
  | some next => cases h; exact ⟨rfl, _, rfl⟩
  | none => cases h

/-- What a finished step tells: remembered values stay right while control
goes on, and where a step gives up that is the effect, unless the code was
invalidated during a call. -/
def Explained (c : Code) (arguments : List Value) (here : Position) (ρ : Bindings)
    (r' : Registers) : Progress → Prop
  | .go _ => Coherent c.graph arguments r'
  | .finish (.returned _) => True
  | .finish (.deoptimized reason snapshot) =>
      (reason = .invalidated ∧
        ∃ target site, c.graph.kind? here.current = some (.invoke target site)) ∨
      Effects c.graph arguments ρ here.previous here.current
        (.finish (.deoptimized reason snapshot))

theorem explained_goTo {current : NodeId} {next : Option NodeId} {missing : InternalFault}
    {here : Position} {ρ : Bindings} {a a' : Activation σ} {p : Progress}
    (hr : Coherent c.graph arguments a.registers) (h : goTo current next missing a = .done p a') :
    Explained c arguments here ρ a'.registers p := by
  obtain ⟨rfl, position, rfl⟩ := goTo_eq_done h
  exact hr

/-- Entering a merge keeps remembered values right: they are kept if no phi is
set, and forgotten otherwise. -/
theorem coherent_enterMerge {flow : Flow g} {merge : NodeId} {control : List NodeId}
    {previous : Option NodeId} {r r' : Registers} (hr : Coherent g arguments r)
    (h : enterMerge g flow arguments merge control previous r = .done () r') :
    Coherent g arguments r' := by
  unfold enterMerge at h
  cases hi : previous.bind fun p => control.idxOf? p with
  | none => rw [hi] at h; cases h
  | some index =>
    rw [hi] at h
    dsimp only at h
    cases hp : flow.phisOf merge with
    | nil =>
      rw [hp] at h
      cases h
      exact hr
    | cons phi phis =>
      rw [hp] at h
      obtain ⟨updates, r₁, -, h2⟩ := Comp.bind_eq_done h
      cases h2
      intro id v hv
      cases hv

/-- Every finished step is explained. -/
theorem step_explained {here : Position} {a a' : Activation σ} {p : Progress}
    (hr : Coherent c.graph arguments a.registers) (h : step host c arguments here a = .done p a') :
    Explained c arguments here a.registers.bindings a'.registers p := by
  unfold step at h
  dsimp only at h
  cases hn : c.graph.node? here.current with
  | none => rw [hn] at h; cases h
  | some n =>
    rw [hn] at h
    dsimp only at h
    have hinput : GivesOnly c.graph arguments a.registers.values _ _ :=
      givesOnly_input here.current n.inputs 0
    have hover : ∀ values, GivesOnly c.graph arguments values _ _ :=
      fun values => givesOnly_handOver here.current n.state
    cases hk : n.kind with
    | start | onTrue | onFalse =>
      simp only [hk] at h
      exact explained_goTo hr h
    | merge | loopBegin =>
      simp only [hk] at h
      obtain ⟨⟨⟩, a₁, h1, h2⟩ := Comp.bind_eq_done h
      obtain ⟨r₁, h3, rfl⟩ := reading_eq_done h1
      have hr₁ := coherent_enterMerge hr h3
      exact explained_goTo (a := { a with registers := r₁ }) hr₁ h2
    | branch =>
      simp only [hk] at h
      obtain ⟨v, a₁, h1, h2⟩ := Comp.bind_eq_done h
      obtain ⟨-, hr₁, -⟩ := reading_givesOnly hinput hr h1
      obtain ⟨taken, a₂, h3, h4⟩ := Comp.bind_eq_done h2
      have ha : a₂ = a₁ := by
        revert h3
        cases v.condition <;> intro h3 <;> cases h3
        rfl
      subst ha
      exact explained_goTo hr₁ h4
    | guard check reason =>
      simp only [hk] at h
      obtain ⟨v, a₁, h1, h2⟩ := Comp.bind_eq_done h
      obtain ⟨hvalues, hr₁, x, hx, hv⟩ := reading_givesOnly hinput hr h1
      split at h2
      · exact explained_goTo hr₁ h2
      · rename_i hcheck
        obtain ⟨snapshot, a₂, h3, h4⟩ := Comp.bind_eq_done h2
        cases h4
        obtain ⟨-, -, s, hs, hf⟩ := reading_givesOnly (hover _) hr₁ h3
        rw [hvalues] at hf
        exact .inr (.violated hn hk hx hv (by simpa using hcheck) hs hf)
    | deoptimize reason =>
      simp only [hk] at h
      obtain ⟨snapshot, a₁, h1, h2⟩ := Comp.bind_eq_done h
      cases h2
      obtain ⟨-, -, s, hs, hf⟩ := reading_givesOnly (hover _) hr h1
      exact .inr (.deoptimize hn hk hs hf)
    | invoke target site =>
      simp only [hk] at h
      obtain ⟨vs, a₁, -, h2⟩ := Comp.bind_eq_done h
      obtain ⟨result, a₂, -, h4⟩ := Comp.bind_eq_done h2
      obtain ⟨⟨⟩, a₃, h5, h6⟩ := Comp.bind_eq_done h4
      cases h5
      obtain ⟨a₄, a₅, h7, h8⟩ := Comp.bind_eq_done h6
      cases h7
      split at h8
      · refine explained_goTo ?_ h8
        intro id v hv
        cases hv
      · obtain ⟨snapshot, a₆, -, h9⟩ := Comp.bind_eq_done h8
        cases h9
        exact .inl ⟨rfl, target, site, Graph.kind?_eq_some.2 ⟨n, hn, hk⟩⟩
    | ret =>
      simp only [hk] at h
      obtain ⟨v, a₁, -, h2⟩ := Comp.bind_eq_done h
      cases h2
      trivial
    | _ => simp only [hk] at h; cases h

/-! ## Runs -/

/-- Control goes on by one step. -/
def Goes (host : Host σ) (c : Code) (arguments : List Value) (x y : Position × Activation σ) :
    Prop :=
  step host c arguments x.1 x.2 = .done (.go y.1) y.2

/-- Where a run starts. -/
def entrance (world : σ) : Position × Activation σ := (⟨Graph.start, none⟩, ⟨⟨[], []⟩, world⟩)

/-- Running in `world`, the code comes to the node `m` and gives up there,
with this reason and snapshot, in `world'`. -/
def GivesUpAt (host : Host σ) (c : Code) (arguments : List Value) (world : σ) (m : NodeId)
    (reason : DeoptReason) (snapshot : Snapshot) (world' : σ) : Prop :=
  ∃ previous a a', ReflTransGen (Goes host c arguments) (entrance world) (⟨m, previous⟩, a) ∧
    step host c arguments ⟨m, previous⟩ a = .done (.finish (.deoptimized reason snapshot)) a' ∧
    a'.world = world'

theorem coherent_of_goes {x y : Position × Activation σ}
    (h : ReflTransGen (Goes host c arguments) x y) (hr : Coherent c.graph arguments x.2.registers) :
    Coherent c.graph arguments y.2.registers := by
  induction h with
  | refl => exact hr
  | tail _ hs ih => exact step_explained ih hs

/-- A run that gave up did so at some node. -/
theorem givesUpAt_of_run {bound : ℕ} {world world' : σ} {reason : DeoptReason} {snapshot : Snapshot}
    (h : c.run host bound arguments world = .done (.deoptimized reason snapshot) world') :
    ∃ m, GivesUpAt host c arguments world m reason snapshot world' := by
  -- by induction on the number of control steps that are left
  have general : ∀ (bound : ℕ) (here : Position) (a a' : Activation σ),
      ReflTransGen (Goes host c arguments) (entrance world) (here, a) →
      runFrom host c arguments bound here a = .done (.deoptimized reason snapshot) a' →
        a'.world = world' →
      ∃ m, GivesUpAt host c arguments world m reason snapshot world' := by
    intro bound
    induction bound with
    | zero =>
      intro here a a' _ hrun
      cases hrun
    | succ bound ih =>
      intro here a a' hgoes hrun hw
      unfold runFrom at hrun
      cases hs : step host c arguments here a with
      | exhausted => rw [hs] at hrun; cases hrun
      | stop e a₁ => rw [hs] at hrun; cases hrun
      | done p a₁ =>
        rw [hs] at hrun
        cases p with
        | go next => exact ih next a₁ a' (hgoes.tail hs) hrun hw
        | finish result =>
          cases hrun
          exact ⟨here.current, here.previous, a, _, hgoes, hs, hw⟩
  unfold run at h
  cases hr : runFrom host c arguments bound ⟨Graph.start, none⟩ ⟨⟨[], []⟩, world⟩ with
  | exhausted => rw [hr] at h; cases h
  | stop e a' => rw [hr] at h; cases h
  | done result a' =>
    rw [hr] at h
    cases h
    exact general bound _ _ a' .refl hr rfl

/-- Where code gives up, giving up is the effect, unless it was invalidated
during a call. -/
theorem GivesUpAt.effects {world world' : σ} {m : NodeId} {reason : DeoptReason}
    {snapshot : Snapshot} (h : GivesUpAt host c arguments world m reason snapshot world') :
    (reason = .invalidated ∧ ∃ target site, c.graph.kind? m = some (.invoke target site)) ∨
      ∃ ρ previous,
        Effects c.graph arguments ρ previous m (.finish (.deoptimized reason snapshot)) := by
  obtain ⟨previous, a, a', hgoes, hs, -⟩ := h
  have hcoherent : Coherent c.graph arguments a.registers :=
    coherent_of_goes hgoes fun id v hv => by cases hv
  exact (step_explained hcoherent hs).imp_right fun he => ⟨_, previous, he⟩

end

end Code

end TieredEngine

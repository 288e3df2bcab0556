import TieredEngine.Proofs.Code.Progress
import TieredEngine.Proofs.Code.Simulation
/-!
# Remembered values do not show

Running code remembers the pure values it has computed until a phi or a call
is set. `runAnew` is the same run with values that are computed anew each time
they are asked for: the control steps are written once for any way to find
values (`stepBy`), and `recompute` neither looks at what is remembered nor
adds to it. As long as whatever is remembered is the value of its node, the
two ways agree (`alike_valueUpTo`), and so do the steps and the runs:
`run_eq_runAnew`.
-/

namespace TieredEngine

/-! ## Outcomes up to related states -/

section

variable {ε σ τ α β : Type} {rel : σ → τ → Prop} {P : α → Prop} {Q : β → Prop}

/-- The same outcome in related states, with a result as `P` says. -/
inductive Outcome.Alike (rel : σ → τ → Prop) (P : α → Prop) : Outcome ε σ α → Outcome ε τ α → Prop
  | done {a s t} : rel s t → P a → Alike rel P (.done a s) (.done a t)
  | stop {e s t} : rel s t → Alike rel P (.stop e s) (.stop e t)
  | exhausted : Alike rel P .exhausted .exhausted

namespace Comp

/-- From related states, two computations have the same outcome up to related
states. -/
def Alike (rel : σ → τ → Prop) (P : α → Prop) (x : Comp ε σ α) (y : Comp ε τ α) : Prop :=
  ∀ s t, rel s t → Outcome.Alike rel P (x s) (y t)

theorem alike_pure {a : α} (h : P a) :
    Alike rel P (pure a : Comp ε σ α) (pure a) := fun _ _ hr => .done hr h

theorem alike_leave (e : ε) : Alike rel P (leave e : Comp ε σ α) (leave e) := fun _ _ hr => .stop hr

theorem alike_exhaust : Alike rel P (exhaust : Comp ε σ α) exhaust := fun _ _ _ => .exhausted

theorem alike_ofExcept (x : Except ε α) :
    Alike rel (fun a => x = .ok a) (ofExcept x : Comp ε σ α) (ofExcept x) := by
  cases x with
  | ok a => exact alike_pure rfl
  | error e => exact alike_leave e

theorem Alike.bind {x : Comp ε σ α} {y : Comp ε τ α} {f : α → Comp ε σ β} {f' : α → Comp ε τ β}
    (hx : Alike rel P x y) (hf : ∀ a, P a → Alike rel Q (f a) (f' a)) :
    Alike rel Q (x >>= f) (y >>= f') := by
  intro s t hr
  rw [bind_apply, bind_apply]
  have ho := hx s t hr
  generalize x s = o at ho
  generalize y t = o' at ho
  cases ho with
  | done hr' ha => exact hf _ ha _ _ hr'
  | stop hr' => exact .stop hr'
  | exhausted => exact .exhausted

theorem alike_state {f : σ → Comp ε σ β} {f' : τ → Comp ε τ β}
    (hf : ∀ s t, rel s t → Alike rel Q (f s) (f' t)) :
    Alike rel Q (state >>= f) (state >>= f') := fun s t hr => hf s t hr s t hr

theorem alike_update {u : σ → σ} {u' : τ → τ} (h : ∀ s t, rel s t → rel (u s) (u' t)) :
    Alike rel (fun _ => True) (update u : Comp ε σ Unit) (update u') :=
      fun s t hr => .done (h s t hr) trivial

theorem alike_mapM {ι : Type} {f : ι → Comp ε σ α} {f' : ι → Comp ε τ α}
    (hf : ∀ i, Alike rel (fun _ => True) (f i) (f' i)) :
    ∀ is : List ι, Alike rel (fun _ => True) (is.mapM f) (is.mapM f')
  | [] => alike_pure trivial
  | i :: is => by
    rw [List.mapM_cons, List.mapM_cons]
    exact (hf i).bind fun _ _ => (alike_mapM hf is).bind fun _ _ => alike_pure trivial

end Comp

end

namespace Code

open TieredEngine.Graph
open Relation (TransGen)

/-! ## Values computed anew -/

/-- The value of a node, computed anew, looking at most `fuel` nodes deep. -/
def recomputeUpTo (g : Graph) (arguments : List Value) : (fuel : ℕ) → (id : NodeId) → Reading Value
  | 0, _ => Comp.exhaust
  | fuel + 1, id =>
    match g.node? id with
    | none => fault (.nodeMissing id)
    | some n =>
      match n.kind with
      | .constant v => pure v
      | .parameter index => pure ((arguments[index]?).getD .null)
      | .binary op => do
        let lhs ← recomputeUpTo g arguments fuel (← inputAt id n.inputs 0)
        let rhs ← recomputeUpTo g arguments fuel (← inputAt id n.inputs 1)
        Comp.ofExcept (op.apply lhs rhs)
      | .unary op => do
        let operand ← recomputeUpTo g arguments fuel (← inputAt id n.inputs 0)
        Comp.ofExcept (op.apply operand)
      | .phi | .invoke .. => do
        match (← Comp.state).values.lookup id with
        | some v => return v
        | none => fault (.readBeforeSet id)
      | kind => fault (.producesNoValue id kind.text)

/-- The value of a node, computed anew. -/
def recompute (g : Graph) (arguments : List Value) (id : NodeId) : Reading Value :=
  recomputeUpTo g arguments (g.nodes.size + 1) id

/-! ## Control over any way to find values -/

section

variable {σ : Type} (value : NodeId → Reading Value)

/-- The snapshot to hand over at a node. -/
def handOverBy (g : Graph) (id : NodeId) (state : Option NodeId) (result : Option Value) :
    Reading Snapshot :=
  match state with
  | none => fault (.frameStateMissing id)
  | some state => do
    let report : ChainEnd → Reading Snapshot
      | .endless => Comp.exhaust
      | _ => fault (.frameStateBroken id)
    let s ← Graph.materialize value (fault .frameOverrun) report (g.stateChain state)
    match result with
    | some v => return { s with innermost := s.innermost.push v }
    | none => return s

/-- Assign the phis of a merge; every input is read before any phi changes. -/
def enterMergeBy (g : Graph) (flow : Flow g) (merge : NodeId) (control : List NodeId)
    (previous : Option NodeId) :
    Reading Unit := do
  match previous.bind fun p => control.idxOf? p with
  | none => fault (.unknownEdge merge)
  | some index =>
    match flow.phisOf merge with
    | [] => pure ()
    | phis =>
      let updates ← phis.mapM fun phi => do
        match g.node? phi with
        | none => fault (.nodeMissing phi)
        | some p => return (phi, ← value (← inputAt phi p.inputs index))
      Comp.update fun r => ⟨updates.foldl (fun vs u => vs.set u.1 u.2) r.values, []⟩

/-- One control step. -/
def stepBy (host : Host σ) (c : Code) (here : Position) : Comp GuestError (Activation σ) Progress :=
  let g := c.graph
  let id := here.current
  match g.node? id with
  | none => fault (.nodeMissing id)
  | some n =>
    match n.kind with
    | .start | .onTrue | .onFalse => advance c id
    | .merge | .loopBegin => do
      reading (enterMergeBy value g c.flow id n.control here.previous)
      advance c id
    | .branch => do
      let v ← reading (do value (← inputAt id n.inputs 0))
      let taken ← Comp.ofExcept v.condition
      let index := if taken then 0 else 1
      goTo id (c.flow.successors id)[index]? (.projectionMissing id)
    | .guard check reason => do
      let v ← reading (do value (← inputAt id n.inputs 0))
      if check.holds v then advance c id
      else return .finish (.deoptimized reason (← reading (handOverBy value g id n.state none)))
    | .deoptimize reason => do
      return .finish (.deoptimized reason (← reading (handOverBy value g id n.state none)))
    | .invoke target _ => do
      let values ← reading (n.inputs.mapM value)
      let result ← outside (host.call target values)
      reading (Comp.update fun r => ⟨r.values.set id result, []⟩)
      if host.valid (← Comp.state).world then advance c id
      else
        return .finish (.deoptimized .invalidated
          (← reading (handOverBy value g id n.state (some result))))
    | .ret => do
      return .finish (.returned (← reading (do value (← inputAt id n.inputs 0))))
    | kind => fault (.notOnControlChain id kind.text)

/-- Take control steps until the run ends, at most `bound` of them. -/
def runFromBy (host : Host σ) (c : Code) :
    (bound : ℕ) → Position → Activation σ → Outcome GuestError (Activation σ) Result
  | 0, _, _ => .exhausted
  | bound + 1, position, a =>
    match stepBy value host c position a with
    | .done (.go next) a => runFromBy host c bound next a
    | .done (.finish r) a => .done r a
    | .stop e a => .stop e a
    | .exhausted => .exhausted

end

/-- Run code on arguments, with every value computed anew each time it is
asked for. -/
def runAnew {σ : Type} (host : Host σ) (bound : ℕ) (c : Code) (arguments : List Value) :
    Comp GuestError σ Result :=
  fun world =>
    match runFromBy (recompute c.graph arguments) host c bound ⟨Graph.start, none⟩
      ⟨⟨[], []⟩, world⟩ with
    | .done r a => .done r a.world
    | .stop e a => .stop e a.world
    | .exhausted => .exhausted

variable {σ : Type} {host : Host σ} {g : Graph} {c : Code} {arguments : List Value}

theorem runFrom_eq_runFromBy (host : Host σ) (c : Code) (arguments : List Value) (bound : ℕ) :
    runFrom host c arguments bound = runFromBy (valueOf c.graph arguments) host c bound := by
  induction bound with
  | zero => rfl
  | succ bound ih =>
    funext here a
    rw [runFrom, ih]
    -- `step` is `stepBy` at the way in which code finds values
    rfl

/-! ## Two ways to find values -/

/-- Both registers hold these values, and the first remember nothing wrong. -/
def Agree (g : Graph) (arguments : List Value) (values : Values) (r r' : Registers) : Prop :=
  r.values = values ∧ r'.values = values ∧ Coherent g arguments r

theorem alike_inputAt {σ τ : Type} {rel : σ → τ → Prop} (id : NodeId) (inputs : List NodeId)
    (index : ℕ) :
    Comp.Alike rel (fun x => inputs[index]? = some x) (inputAt id inputs index)
      (inputAt id inputs index) := by
  unfold inputAt
  split
  · rename_i x hx
    exact Comp.alike_pure hx
  · exact Comp.alike_leave _

/-- A value that is remembered may as well be computed anew. -/
theorem alike_remember {values : Values} {id : NodeId} {v : Value}
    (h : Denotes g arguments values.bindings id v) :
    Comp.Alike (Agree g arguments values) (Denotes g arguments values.bindings id) (remember id v)
      (pure v) := by
  rintro ⟨_, cache⟩ r' ⟨rfl, hr', hc⟩
  obtain ⟨cache', hdone, hc'⟩ := finds_remember hc h
  rw [hdone]
  exact .done ⟨rfl, hr', hc'⟩ h

section

variable (hacyclic : ∀ x, ¬ TransGen g.OperatorReads x x)

include hacyclic

/-- The value that a node stands for is what is computed anew. -/
theorem recomputeUpTo_of_denotes (fuel : ℕ) :
    ∀ {r : Registers} {id : NodeId} {v : Value}, g.DeepEnough fuel id →
      Denotes g arguments r.bindings id v → recomputeUpTo g arguments fuel id r = .done v r := by
  induction fuel with
  | zero => exact fun hdeep => absurd hdeep not_deepEnough_zero
  | succ fuel ih =>
    intro r id v hdeep hd
    rw [recomputeUpTo]
    cases hd with
    | constant hn hk => simp only [hn, hk, Comp.pure_apply]
    | parameter hn hk => simp only [hn, hk, Comp.pure_apply]
    | @binary _ n op x y a b _ hn hk hx hy ha hb ho =>
      have hop : n.kind.isOperator := by rw [hk]; rfl
      have hlhs := ih (hdeep.operand hacyclic hn hop (List.mem_of_getElem? hx)) ha
      have hrhs := ih (hdeep.operand hacyclic hn hop (List.mem_of_getElem? hy)) hb
      simp only [hn, hk, inputAt_eq hx, inputAt_eq hy, pure_bind]
      rw [Comp.bind_done hlhs, Comp.bind_done hrhs, ofExcept_ok ho]
      rfl
    | @unary _ n op x a _ hn hk hx ha ho =>
      have hop : n.kind.isOperator := by rw [hk]; rfl
      have hread := ih (hdeep.operand hacyclic hn hop (List.mem_of_getElem? hx)) ha
      simp only [hn, hk, inputAt_eq hx, pure_bind]
      rw [Comp.bind_done hread, ofExcept_ok ho]
      rfl
    | @register _ n _ hn hk hv =>
      have hlookup : r.values.lookup id = some v := hv
      simp only [hn]
      cases hkind : n.kind with
      | phi | invoke =>
        dsimp only
        rw [Comp.state_bind, hlookup]
        rfl
      | _ => rw [hkind] at hk; cases hk

/-- Finding a value among the remembered ones first makes no difference. -/
theorem alike_valueUpTo (values : Values) (fuel : ℕ) : ∀ id, g.DeepEnough fuel id →
    Comp.Alike (Agree g arguments values) (Denotes g arguments values.bindings id)
      (valueUpTo g arguments fuel id) (recomputeUpTo g arguments fuel id) := by
  induction fuel with
  | zero => exact fun id _ => Comp.alike_exhaust
  | succ fuel ih =>
    intro id hdeep r r' hagree
    rw [valueUpTo, Comp.state_bind]
    cases hc : r.cache.lookup id with
    | some v =>
      obtain ⟨hr, hr', hcoherent⟩ := hagree
      have hd := hcoherent id v hc
      have hbindings : r'.bindings = r.bindings := bindings_congr (hr'.trans hr.symm)
      rw [recomputeUpTo_of_denotes hacyclic (fuel + 1) hdeep (hbindings ▸ hd)]
      subst hr
      exact .done ⟨rfl, hr', hcoherent⟩ hd
    | none =>
      rw [recomputeUpTo]
      refine (?_ : Comp.Alike (Agree g arguments values) _ _ _) r r' hagree
      cases hn : g.node? id with
      | none => exact Comp.alike_leave _
      | some n =>
        have hoperand : n.kind.isOperator → ∀ {index x}, n.inputs[index]? = some x →
            g.DeepEnough fuel x :=
          fun hop _ _ hx => hdeep.operand hacyclic hn hop (List.mem_of_getElem? hx)
        dsimp only
        cases hk : n.kind with
        | constant v => exact alike_remember (.constant hn hk)
        | parameter index => exact alike_remember (.parameter hn hk)
        | binary op =>
          have hop : n.kind.isOperator := by rw [hk]; rfl
          refine (alike_inputAt id n.inputs 0).bind fun x hx =>
            (ih x (hoperand hop hx)).bind fun a ha => ?_
          refine (alike_inputAt id n.inputs 1).bind fun y hy =>
            (ih y (hoperand hop hy)).bind fun b hb => ?_
          have happly := (Comp.alike_ofExcept (op.apply a b)).bind fun v ho =>
            alike_remember (.binary hn hk hx hy ha hb ho)
          rwa [bind_pure] at happly
        | unary op =>
          have hop : n.kind.isOperator := by rw [hk]; rfl
          refine (alike_inputAt id n.inputs 0).bind fun x hx =>
            (ih x (hoperand hop hx)).bind fun a ha => ?_
          have happly := (Comp.alike_ofExcept (op.apply a)).bind fun v ho =>
            alike_remember (.unary hn hk hx ha ho)
          rwa [bind_pure] at happly
        | phi | invoke =>
          refine Comp.alike_state fun s t hst => ?_
          obtain ⟨hs, ht, -⟩ := hst
          rw [hs, ht]
          cases hv : values.lookup id with
          | some v => exact Comp.alike_pure (.register hn (by rw [hk]; rfl) hv)
          | none => exact Comp.alike_leave _
        | _ => exact Comp.alike_leave _

end

/-! ## Steps and runs -/

/-- Both registers hold the same values, and the first remember nothing
wrong. -/
def SameValues (g : Graph) (arguments : List Value) (r r' : Registers) : Prop :=
  r.values = r'.values ∧ Coherent g arguments r

/-- The same world, and registers with the same values. -/
def SameState (g : Graph) (arguments : List Value) (a a' : Activation σ) : Prop :=
  a.world = a'.world ∧ SameValues g arguments a.registers a'.registers

theorem alike_of_agree {α : Type} {P : Values → α → Prop} {x y : Reading α}
    (h : ∀ values, Comp.Alike (Agree g arguments values) (P values) x y) :
    Comp.Alike (SameValues g arguments) (fun _ => True) x y := by
  rintro r r' ⟨hvalues, hr⟩
  have ho := h r.values r r' ⟨rfl, hvalues.symm, hr⟩
  generalize x r = o at ho
  generalize y r' = o' at ho
  cases ho with
  | done hagree _ => exact .done ⟨hagree.1.trans hagree.2.1.symm, hagree.2.2⟩ trivial
  | stop hagree => exact .stop ⟨hagree.1.trans hagree.2.1.symm, hagree.2.2⟩
  | exhausted => exact .exhausted

/-- Registers that remember nothing remember nothing wrong. -/
theorem coherent_forgotten (values : Values) : Coherent g arguments ⟨values, []⟩ := by
  intro id v hv
  cases hv

theorem alike_reading {α : Type} {P : α → Prop} {x y : Reading α}
    (h : Comp.Alike (SameValues g arguments) P x y) :
    Comp.Alike (SameState g arguments) P (reading x : Comp GuestError (Activation σ) α)
      (reading y) := by
  rintro a a' ⟨hworld, hsame⟩
  unfold reading Comp.within
  have ho := h a.registers a'.registers hsame
  generalize x a.registers = o at ho
  generalize y a'.registers = o' at ho
  cases ho with
  | done hr hP => exact .done ⟨hworld, hr⟩ hP
  | stop hr => exact .stop ⟨hworld, hr⟩
  | exhausted => exact .exhausted

theorem alike_outside {α : Type} (x : Comp GuestError σ α) :
    Comp.Alike (SameState g arguments) (fun _ => True) (outside x) (outside x) := by
  rintro ⟨r, w⟩ ⟨r', _⟩ ⟨rfl, hsame⟩
  unfold outside Comp.within
  dsimp only
  cases x w with
  | done v w' => exact .done ⟨rfl, hsame⟩ trivial
  | stop e w' => exact .stop ⟨rfl, hsame⟩
  | exhausted => exact .exhausted

theorem alike_goTo (current : NodeId) (next : Option NodeId) (missing : InternalFault) :
    Comp.Alike (SameState (σ := σ) g arguments) (fun _ => True) (goTo current next missing)
      (goTo current next missing) := by
  unfold goTo
  cases next with
  | some next => exact Comp.alike_pure trivial
  | none => exact Comp.alike_leave _

section

variable {value value' : NodeId → Reading Value}
  (hvalue : ∀ id, Comp.Alike (SameValues g arguments) (fun _ => True) (value id) (value' id))

include hvalue

theorem alike_input (id : NodeId) (inputs : List NodeId) (index : ℕ) :
    Comp.Alike (SameValues g arguments) (fun _ => True) (do value (← inputAt id inputs index))
      (do value' (← inputAt id inputs index)) :=
  (alike_inputAt id inputs index).bind fun x _ => hvalue x

omit hvalue in
theorem alike_takeApart (shape : FrameShape) (vs : List Value) :
    Comp.Alike (SameValues g arguments) (fun _ => True)
      (Graph.takeApart (fault .frameOverrun) shape vs)
      (Graph.takeApart (fault .frameOverrun) shape vs) := by
  unfold Graph.takeApart
  split
  · exact Comp.alike_pure trivial
  · exact Comp.alike_leave _

theorem alike_readFrames :
    ∀ frames : List (FrameShape × List NodeId), Comp.Alike (SameValues g arguments) (fun _ => True)
      (Graph.readFrames value (fault .frameOverrun) frames)
      (Graph.readFrames value' (fault .frameOverrun) frames)
  | [] => Comp.alike_pure trivial
  | (shape, inputs) :: frames =>
    (Comp.alike_mapM hvalue inputs).bind fun vs _ => (alike_takeApart shape vs).bind fun _ _ =>
      (alike_readFrames frames).bind fun _ _ => Comp.alike_pure trivial

theorem alike_handOverBy (id : NodeId) (state : Option NodeId) (result : Option Value) :
    Comp.Alike (SameValues g arguments) (fun _ => True) (handOverBy value g id state result)
      (handOverBy value' g id state result) := by
  unfold handOverBy
  cases state with
  | none => exact Comp.alike_leave _
  | some s =>
    unfold Graph.materialize
    dsimp only
    rw [bind_assoc, bind_assoc]
    refine (alike_readFrames hvalue _).bind fun fs _ => ?_
    cases (g.stateChain s).ending <;> cases fs <;> cases result
    all_goals first
      | exact Comp.alike_pure trivial
      | exact Comp.alike_leave _
      | exact Comp.alike_exhaust

theorem alike_enterMergeBy (flow : Flow g) (merge : NodeId) (control : List NodeId)
    (previous : Option NodeId) :
    Comp.Alike (SameValues g arguments) (fun _ => True)
      (enterMergeBy value g flow merge control previous)
      (enterMergeBy value' g flow merge control previous) := by
  unfold enterMergeBy
  cases previous.bind fun p => control.idxOf? p with
  | none => exact Comp.alike_leave _
  | some index =>
    dsimp only
    cases flow.phisOf merge with
    | nil => exact Comp.alike_pure trivial
    | cons phi phis =>
      refine (Comp.alike_mapM (fun phi => ?_) (phi :: phis)).bind fun updates _ =>
        Comp.alike_update ?_
      · cases g.node? phi with
        | none => exact Comp.alike_leave _
        | some p =>
          exact (alike_inputAt phi p.inputs index).bind fun x _ => (hvalue x).bind fun _ _ =>
            Comp.alike_pure trivial
      · rintro r r' ⟨hvalues, -⟩
        rw [hvalues]
        exact ⟨rfl, coherent_forgotten _⟩

end

theorem alike_stepBy (host : Host σ) {value value' : NodeId → Reading Value}
    (hvalue : ∀ id,
      Comp.Alike (SameValues c.graph arguments) (fun _ => True) (value id) (value' id))
    (here : Position) :
    Comp.Alike (SameState c.graph arguments) (fun _ => True) (stepBy value host c here)
      (stepBy value' host c here) := by
  unfold stepBy
  dsimp only
  cases c.graph.node? here.current with
  | none => exact Comp.alike_leave _
  | some n =>
    have hinput := alike_reading (σ := σ) (alike_input hvalue here.current n.inputs 0)
    have hover :=
      fun result => alike_reading (σ := σ) (alike_handOverBy hvalue here.current n.state result)
    have hadvance : Comp.Alike (SameState (σ := σ) c.graph arguments) (fun _ => True)
        (advance c here.current) (advance c here.current) := alike_goTo _ _ _
    dsimp only
    cases n.kind with
    | start | onTrue | onFalse => exact hadvance
    | merge | loopBegin =>
      exact (alike_reading (alike_enterMergeBy hvalue c.flow _ _ _)).bind fun _ _ => hadvance
    | branch =>
      refine hinput.bind fun v _ => ?_
      exact (Comp.alike_ofExcept v.condition).bind fun taken _ => alike_goTo _ _ _
    | guard check reason =>
      refine hinput.bind fun v _ => ?_
      split
      · exact hadvance
      · exact (hover none).bind fun _ _ => Comp.alike_pure trivial
    | deoptimize reason => exact (hover none).bind fun _ _ => Comp.alike_pure trivial
    | invoke target site =>
      refine (alike_reading (Comp.alike_mapM hvalue n.inputs)).bind fun vs _ => ?_
      refine (alike_outside (host.call target vs)).bind fun result _ => ?_
      refine (alike_reading (Comp.alike_update ?_)).bind fun _ _ =>
        Comp.alike_state fun a a' hsame => ?_
      · rintro r r' ⟨hvalues, -⟩
        rw [hvalues]
        exact ⟨rfl, coherent_forgotten _⟩
      · rw [hsame.1]
        split
        · exact hadvance
        · exact (hover (some result)).bind fun _ _ => Comp.alike_pure trivial
    | ret => exact hinput.bind fun _ _ => Comp.alike_pure trivial
    | parameter | constant | binary | unary | phi | frameState => exact Comp.alike_leave _

/-- Runs agree if steps do: by induction on the number of control steps that
are left. -/
theorem alike_runFromBy (host : Host σ) {value value' : NodeId → Reading Value}
    (hvalue : ∀ id, Comp.Alike (SameValues c.graph arguments) (fun _ => True) (value id)
        (value' id)) (bound : ℕ) :
    ∀ here,
      Comp.Alike (SameState c.graph arguments) (fun _ => True) (runFromBy value host c bound here)
      (runFromBy value' host c bound here) := by
  induction bound with
  | zero => exact fun _ _ _ _ => .exhausted
  | succ bound ih =>
    intro here a a' hsame
    rw [runFromBy, runFromBy]
    have ho := alike_stepBy host hvalue here a a' hsame
    generalize stepBy value host c here a = o at ho
    generalize stepBy value' host c here a' = o' at ho
    cases ho with
    | exhausted => exact .exhausted
    | stop hr => exact .stop hr
    | @done p a₁ a₁' hr _ =>
      cases p with
      | go next => exact ih next a₁ a₁' hr
      | finish result => exact .done hr trivial

theorem run_eq_runAnew_of_acyclic (hacyclic : ∀ x, ¬ TransGen c.graph.OperatorReads x x)
    (host : Host σ) (bound : ℕ) (arguments : List Value) (world : σ) :
    c.run host bound arguments world = c.runAnew host bound arguments world := by
  have hvalue : ∀ id, Comp.Alike (SameValues c.graph arguments) (fun _ => True)
      (valueOf c.graph arguments id) (recompute c.graph arguments id) := fun id =>
    alike_of_agree fun values => alike_valueUpTo hacyclic values _ id deepEnough_whole
  have ho := alike_runFromBy host hvalue bound ⟨Graph.start, none⟩ ⟨⟨[], []⟩, world⟩
    ⟨⟨[], []⟩, world⟩ ⟨rfl, rfl, coherent_forgotten _⟩
  unfold run runAnew
  rw [runFrom_eq_runFromBy]
  generalize runFromBy (valueOf c.graph arguments) host c bound ⟨Graph.start, none⟩
    ⟨⟨[], []⟩, world⟩ = o at ho
  generalize runFromBy (recompute c.graph arguments) host c bound ⟨Graph.start, none⟩
    ⟨⟨[], []⟩, world⟩ = o' at ho
  cases ho with
  | done hsame _ =>
    dsimp only
    rw [hsame.1]
  | stop hsame =>
    dsimp only
    rw [hsame.1]
  | exhausted => rfl

/-! ## Phis -/

/-- Entering a merge sets its phis to what their inputs stood for before. -/
theorem updatesAt_of_enterMerge {flow : Flow g} {merge : NodeId} {control : List NodeId}
    {previous : Option NodeId} {r r' : Registers} (hr : Coherent g arguments r)
    (h : enterMerge g flow arguments merge control previous r = .done () r') :
    ∃ index us, (previous.bind fun q => control.idxOf? q) = some index ∧
      UpdatesAt g arguments r.bindings index (g.phisOf merge) us ∧
        r'.values = r.values.setAll us := by
  unfold enterMerge at h
  cases hi : previous.bind fun q => control.idxOf? q with
  | none => rw [hi] at h; cases h
  | some index =>
    rw [hi] at h
    dsimp only at h
    rw [Flow.phisOf_eq] at h
    cases hphis : g.phisOf merge with
    | nil =>
      rw [hphis] at h
      cases h
      exact ⟨index, [], rfl, .nil, rfl⟩
    | cons phi phis =>
      rw [hphis] at h
      obtain ⟨us, r₁, hread, hset⟩ := Comp.bind_eq_done h
      cases hset
      have hphi : ∀ phi, GivesOnly g arguments r.values (do
          match g.node? phi with
          | none => fault (.nodeMissing phi)
          | some p => return (phi, ← valueOf g arguments (← inputAt phi p.inputs index)) : Reading
              (NodeId × Value))
          fun u => u.1 = phi ∧ ∃ p x, g.node? phi = some p ∧ p.inputs[index]? = some x ∧
            Denotes g arguments r.bindings x u.2 := by
        intro phi
        cases hp : g.node? phi with
        | none => exact givesOnly_leave _
        | some p =>
          refine (givesOnly_inputAt phi p.inputs index).bind fun x hx =>
            (givesOnly_valueOf x).bind fun v hv => ?_
          exact givesOnly_pure ⟨rfl, p, x, rfl, hx, hv⟩
      obtain ⟨hvalues, -, hus⟩ := GivesOnly.mapM hphi (phi :: phis) r.cache r₁ us hr hread
      exact ⟨index, us, rfl, hus, by rw [← hvalues]; rfl⟩

/-- A step from a merge sets each of its phis to the value that the input for
the edge had before the step. -/
theorem phi_of_step (hv : c.graph.Verified) (hacyclic : ∀ x, ¬ TransGen c.graph.OperatorReads x x)
    {here next : Position} {a a' : Activation σ} (hr : Coherent c.graph arguments a.registers)
    (hstep : step host c arguments here a = .done (.go next) a') {phi : NodeId}
    (hphi : phi ∈ c.graph.phisOf here.current) :
    ∃ n index p x v, c.graph.node? here.current = some n ∧
      (here.previous.bind fun q => n.control.idxOf? q) = some index ∧
      c.graph.node? phi = some p ∧ p.inputs[index]? = some x ∧
      recompute c.graph arguments x ⟨a.registers.values, []⟩ = .done v ⟨a.registers.values, []⟩ ∧
      a'.registers.values.lookup phi = some v := by
  obtain ⟨p, hp, hkind, hhead⟩ := mem_phisOf.1 hphi
  obtain ⟨n, hn, hmerge, -⟩ := hv.phis phi p _ hp hkind (List.mem_of_mem_head? hhead)
  obtain ⟨r₁, henter, hgo⟩ : ∃ r₁,
      enterMerge c.graph c.flow arguments here.current n.control here.previous a.registers =
        .done () r₁ ∧
      advance c here.current { a with registers := r₁ } = .done (.go next) a' := by
    unfold step at hstep
    simp only [hn] at hstep
    rcases NodeKind.isMerge_iff.1 hmerge with hk | hk
    all_goals
      simp only [hk] at hstep
      obtain ⟨⟨⟩, a₁, h1, h2⟩ := Comp.bind_eq_done hstep
      obtain ⟨r₁, h3, rfl⟩ := reading_eq_done h1
      exact ⟨r₁, h3, h2⟩
  obtain ⟨rfl, -⟩ := goTo_eq_done hgo
  obtain ⟨index, us, hindex, hus, hset⟩ := updatesAt_of_enterMerge hr henter
  have hnodup := c.graph.phisOf_nodup here.current
  obtain ⟨v, p', x, hlookup, hp', hx, hd⟩ := hus.lookup_of_mem hnodup hphi
  refine ⟨n, index, p', x, v, hn, hindex, hp', hx, ?_, ?_⟩
  · exact recomputeUpTo_of_denotes hacyclic _ deepEnough_whole hd
  · dsimp only
    rw [hset, Values.lookup_setAll_of_mem (hus.keys ▸ hnodup) (mem_of_lookup hlookup)]

/-! ## The cache -/

/-- Code of a graph that was verified. -/
theorem verified_of_ofGraph {target : TargetId} (h : ofGraph target g = .ok c) :
    c.graph = g ∧ g.Verified := by
  unfold ofGraph at h
  obtain ⟨_, hv, hc⟩ := bind_eq_ok h
  cases hc
  exact ⟨rfl, verify_eq_ok_iff.1 hv⟩

/-- What running code remembers does not show. Take code of a verified graph
in which no operator depends on itself, and any host, arguments and world. For
every bound the run comes out as it does with all values computed anew: with
the same result, snapshot or error, and in the same world, which is what calls
and answers have made of it. And wherever a run comes to a merge, the step
from there sets each phi to the value that its input for the edge had before
any of them changed. -/
theorem run_eq_runAnew {target : TargetId} (hc : ofGraph target g = .ok c)
    (hacyclic : ∀ x, ¬ TransGen g.OperatorReads x x) (host : Host σ) (arguments : List Value)
    (world : σ) :
    (∀ bound, c.run host bound arguments world = c.runAnew host bound arguments world) ∧
    ∀ here a next a', Comes host c arguments world here a →
      step host c arguments here a = .done (.go next) a' →
      ∀ phi ∈ g.phisOf here.current, ∃ n index p x v, g.node? here.current = some n ∧
        (here.previous.bind fun q => n.control.idxOf? q) = some index ∧ g.node? phi = some p ∧
          p.inputs[index]? = some x ∧
        recompute g arguments x ⟨a.registers.values, []⟩ = .done v ⟨a.registers.values, []⟩ ∧
        a'.registers.values.lookup phi = some v := by
  obtain ⟨rfl, hv⟩ := verified_of_ofGraph hc
  refine ⟨fun bound => run_eq_runAnew_of_acyclic hacyclic host bound arguments world, ?_⟩
  intro here a next a' hcomes hstep phi hphi
  have hr : Coherent c.graph arguments a.registers :=
    coherent_of_goes hcomes (coherent_forgotten [])
  exact phi_of_step hv hacyclic hr hstep hphi

/-- A loop that swaps two phis in its second round and then subtracts one from
the other. -/
def swapping : Graph where
  name := "swap"
  nodes := #[some { kind := .start }, some { kind := .loopBegin, control := [0, 3] },
    some { kind := .branch, inputs := [8], control := [1] },
      some { kind := .onTrue, control := [2] },
    some { kind := .onFalse, control := [2] },
      some { kind := .ret, inputs := [11], control := [4] },
    some { kind := .phi, inputs := [9, 7], control := [1] },
      some { kind := .phi, inputs := [10, 6], control := [1] },
    some { kind := .phi, inputs := [12, 13], control := [1] }, some { kind := .constant (.int 1) },
    some { kind := .constant (.int 2) }, some { kind := .binary .sub, inputs := [6, 7] },
    some { kind := .constant (.bool true) }, some { kind := .constant (.bool false) }]
  shared := []

/-- The two phis are swapped at once: the run returns two minus one, with
remembered values and without. -/
theorem run_swapping_eq_runAnew :
    ∃ c, ofGraph 0 swapping = .ok c ∧
      (∀ bound, c.run (⟨fun _ _ w => .done .null w, fun _ => true⟩ : Host Unit) bound [] () =
        c.runAnew (⟨fun _ _ w => .done .null w, fun _ => true⟩ : Host Unit) bound [] ()) ∧
      c.run (⟨fun _ _ w => .done .null w, fun _ => true⟩ : Host Unit) 8 [] () =
        .done (.returned (.int 1)) () := by
  have hc : ofGraph 0 swapping = .ok ⟨0, swapping, swapping.flow⟩ := rfl
  have hacyclic : ∀ x, ¬ TransGen swapping.OperatorReads x x := acyclic_of_flat (by decide)
  exact ⟨_, hc, (run_eq_runAnew hc hacyclic _ _ _).1, rfl⟩

end Code

end TieredEngine

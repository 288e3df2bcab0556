import TieredEngine.Compiler
import TieredEngine.Proofs.Code.Evaluations
import TieredEngine.Proofs.Interpreter.Validation
import TieredEngine.Proofs.Specialize.Shape
/-!
# Emitted code does not get stuck

The backend accepts a graph for its counts and its edges alone. That is enough
for control: wherever a run comes to, there is a fixed node, it was entered
over one of its edges (`Placed`), and the step from there is defined. Reading
is defined too, as long as no operator depends on itself, but the value that
is read may be one that is not there: `step_defined`.
-/

namespace TieredEngine

/-- The error says that a value is of the wrong type, or that there is none: a
register that is not set, or a node that has no value. -/
def GuestError.IsValueError (e : GuestError) : Prop :=
  e.kind = .typeError ∨ (∃ id, e = .internal (.readBeforeSet id)) ∨
    ∃ id kind, e = .internal (.producesNoValue id kind)

namespace Code

open TieredEngine.Graph
open Relation (TransGen ReflTransGen)

/-! ## Readings that end -/

section

variable {α β : Type} {P : α → Prop} {Q : β → Prop} {x : Reading α}

/-- The reading ends: with a result of this kind, or because a value is not as
it should be. -/
def EndsIn (P : α → Prop) (x : Reading α) : Prop :=
  ∀ r, (∃ v r', x r = .done v r' ∧ P v) ∨ ∃ e r', x r = .stop e r' ∧ e.IsValueError

theorem endsIn_pure {v : α} (h : P v) : EndsIn P (pure v) := fun r => .inl ⟨v, r, rfl, h⟩

theorem endsIn_leave {e : GuestError} (h : e.IsValueError) :
    EndsIn P (Comp.leave e) := fun r => .inr ⟨e, r, rfl, h⟩

theorem EndsIn.bind {f : α → Reading β} (hx : EndsIn P x) (hf : ∀ v, P v → EndsIn Q (f v)) :
    EndsIn Q (x >>= f) := by
  intro r
  rcases hx r with ⟨v, r', h, hv⟩ | ⟨e, r', h, he⟩
  · rw [Comp.bind_done h]
    exact hf v hv r'
  · rw [Comp.bind_stop h]
    exact .inr ⟨e, r', rfl, he⟩

theorem endsIn_state {f : Registers → Reading α} (hf : ∀ r, EndsIn P (f r)) :
    EndsIn P (Comp.state >>= f) :=
  fun r => hf r r

theorem endsIn_update {u : Registers → Registers} : EndsIn (fun _ => True) (Comp.update u) :=
  fun r => .inl ⟨(), u r, rfl, trivial⟩

theorem endsIn_ofExcept {y : Except GuestError α} (h : ∀ e, y = .error e → e.kind = .typeError) :
    EndsIn (fun _ => True) (Comp.ofExcept y) := by
  cases y with
  | ok v => exact endsIn_pure trivial
  | error e => exact endsIn_leave (.inl (h e rfl))

theorem endsIn_remember (id : NodeId) (v : Value) : EndsIn (fun _ => True) (remember id v) :=
  endsIn_update.bind fun _ _ => endsIn_pure trivial

theorem endsIn_inputAt {id : NodeId} {inputs : List NodeId} {index : ℕ}
    (h : index < inputs.length) :
    EndsIn (fun x => inputs[index]? = some x) (inputAt id inputs index) := by
  have hx : inputs[index]? = some inputs[index] := List.getElem?_eq_getElem h
  unfold inputAt
  rw [hx]
  exact endsIn_pure rfl

theorem endsIn_mapM {f : α → Reading β} {xs : List α} (hf : ∀ x ∈ xs, EndsIn Q (f x)) :
    EndsIn (fun ys => ys.length = xs.length) (xs.mapM f) := by
  induction xs with
  | nil => exact endsIn_pure rfl
  | cons x xs ih =>
    rw [List.mapM_cons]
    refine (hf x List.mem_cons_self).bind fun y _ => ?_
    refine (ih fun x hx => hf x (List.mem_cons_of_mem _ hx)).bind fun ys hys => ?_
    exact endsIn_pure (by rw [List.length_cons, List.length_cons, hys])

end

end Code

/-! ## How deep operators nest -/

namespace Graph

open Relation (TransGen)

/-- Looking `fuel` nodes deep from here is enough: there is a way here of so
many different positions that not more than `fuel` are left. All positions on
the way depend on an operator here. -/
def DeepEnough (g : Graph) (fuel : ℕ) (id : NodeId) : Prop :=
  ∃ way : List NodeId, way.Nodup ∧ (∀ p ∈ way, p < g.nodes.size) ∧
    (∀ k, g.kind? id = some k → k.isOperator → ∀ p ∈ way, TransGen g.OperatorReads p id) ∧
    g.nodes.size < fuel + way.length

variable {g : Graph} {fuel : ℕ} {id : NodeId}

theorem deepEnough_whole :
    g.DeepEnough (g.nodes.size + 1) id := ⟨[], List.nodup_nil, by simp, by simp, by simp⟩

theorem not_deepEnough_zero : ¬ g.DeepEnough 0 id := by
  rintro ⟨way, hnodup, hlt, -, hfuel⟩
  have hsub : way ⊆ List.range g.nodes.size := fun p hp => List.mem_range.2 (hlt p hp)
  have := (hnodup.subperm hsub).length_le
  rw [List.length_range] at this
  omega

/-- No operator depends on itself if none reads another. -/
theorem acyclic_of_flat
    (h : ∀ e ∈ g.entries, e.2.kind.isOperator →
      ∀ y ∈ e.2.inputs, (g.kind? y).any NodeKind.isOperator = false) (x : NodeId) :
    ¬ TransGen g.OperatorReads x x := by
  intro hx
  obtain ⟨y, ⟨n, k, hn, hop, hy, hk, hkop⟩, -⟩ := Relation.TransGen.head'_iff.1 hx
  have := h (x, n) (mem_entries.2 hn) hop y hy
  rw [hk, Option.any_some, hkop] at this
  cases this

/-- An operand is one position further on the way. -/
theorem DeepEnough.operand {n : Node} {x : NodeId} (h : g.DeepEnough (fuel + 1) id)
    (hacyclic : ∀ x, ¬ TransGen g.OperatorReads x x) (hn : g.node? id = some n)
    (hop : n.kind.isOperator) (hx : x ∈ n.inputs) : g.DeepEnough fuel x := by
  obtain ⟨way, hnodup, hlt, hreads, hfuel⟩ := h
  have hid := hreads n.kind (kind?_eq_some.2 ⟨n, hn, rfl⟩) hop
  refine ⟨id :: way, List.nodup_cons.2 ⟨fun hmem => hacyclic id (hid id hmem), hnodup⟩, ?_, ?_,
    by rw [List.length_cons]; omega⟩
  · intro p hp
    rcases List.mem_cons.1 hp with rfl | hp
    · exact lt_size_of_node? hn
    · exact hlt p hp
  · intro k hk hkop p hp
    have hedge : g.OperatorReads id x := ⟨n, k, hn, hop, hx, hk, hkop⟩
    rcases List.mem_cons.1 hp with rfl | hp
    · exact .single hedge
    · exact (hid p hp).tail hedge

end Graph

/-! ## Values -/

namespace Code

open TieredEngine.Graph
open Relation (TransGen ReflTransGen)

section

variable {g : Graph} (hv : g.Verified) (hacyclic : ∀ x, ¬ TransGen g.OperatorReads x x)

include hv

theorem contains_input {m x : NodeId} {n : Node} (hn : g.node? m = some n) (hx : x ∈ n.inputs) :
    g.contains x :=
  hv.clean m n hn x (by simp [Node.edges, hx])

include hacyclic

/-- Reading the value of a node ends, if it looks deep enough. -/
theorem endsIn_valueUpTo (arguments : List Value) (fuel : ℕ) :
    ∀ id, g.contains id → g.DeepEnough fuel id →
      EndsIn (fun _ => True) (valueUpTo g arguments fuel id) := by
  induction fuel with
  | zero => exact fun id _ hdeep => absurd hdeep not_deepEnough_zero
  | succ fuel ih =>
    intro id hid hdeep
    obtain ⟨n, hn⟩ := contains_iff.1 hid
    have harity := hv.arity id n hn
    have hoperand : n.kind.isOperator →
        ∀ x ∈ n.inputs, EndsIn (fun _ => True) (valueUpTo g arguments fuel x) :=
      fun hop x hx => ih x (contains_input hv hn hx) (hdeep.operand hacyclic hn hop hx)
    rw [valueUpTo]
    refine endsIn_state fun r => ?_
    cases r.cache.lookup id with
    | some v => exact endsIn_pure trivial
    | none =>
      simp only [hn]
      unfold Node.Arity at harity
      cases hk : n.kind with
      | constant v => exact endsIn_remember id v
      | parameter index => exact endsIn_remember id _
      | binary op =>
        simp only [hk] at harity
        have hread := hoperand (by rw [hk]; rfl)
        refine (endsIn_inputAt (by omega)).bind fun x hx =>
          (hread x (List.mem_of_getElem? hx)).bind fun a _ => ?_
        refine (endsIn_inputAt (by omega)).bind fun y hy =>
          (hread y (List.mem_of_getElem? hy)).bind fun b _ => ?_
        exact (endsIn_ofExcept fun e he => BinaryOp.kind_of_apply he).bind fun v _ =>
          endsIn_remember id v
      | unary op =>
        simp only [hk] at harity
        have hread := hoperand (by rw [hk]; rfl)
        refine (endsIn_inputAt (by omega)).bind fun x hx =>
          (hread x (List.mem_of_getElem? hx)).bind fun a _ => ?_
        exact (endsIn_ofExcept fun e he => UnaryOp.kind_of_apply he).bind fun v _ =>
          endsIn_remember id v
      | phi | invoke =>
        refine endsIn_state fun r => ?_
        cases r.values.lookup id with
        | some v => exact endsIn_pure trivial
        | none => exact endsIn_leave (.inr (.inl ⟨id, rfl⟩))
      | _ => exact endsIn_leave (.inr (.inr ⟨id, _, rfl⟩))

theorem endsIn_valueOf (arguments : List Value) {id : NodeId} (h : g.contains id) :
    EndsIn (fun _ => True) (valueOf g arguments id) :=
  endsIn_valueUpTo hv hacyclic arguments _ id h deepEnough_whole

theorem endsIn_input (arguments : List Value) {id : NodeId} {n : Node} {index : ℕ}
    (hn : g.node? id = some n) (hi : index < n.inputs.length) :
    EndsIn (fun _ => True) (do valueOf g arguments (← inputAt id n.inputs index)) :=
  (endsIn_inputAt hi).bind fun _ hx =>
    endsIn_valueOf hv hacyclic arguments (contains_input hv hn (List.mem_of_getElem? hx))

/-! ## Frames -/

omit hacyclic in
/-- A chain that ends has a frame, its frames count their inputs, and all that
they name is there. -/
theorem frames_of_complete (hcounted : g.FramesCounted) (fuel : ℕ) : ∀ {s : NodeId},
    (g.followStates fuel s).ending = .complete → (g.followStates fuel s).frames ≠ [] ∧
      ∀ f ∈ (g.followStates fuel s).frames, f.1.Counts f.2.length ∧ ∀ x ∈ f.2, g.contains x := by
  induction fuel with
  | zero =>
    intro s hend
    cases hend
  | succ fuel ih =>
    intro s hend
    rw [Graph.followStates] at hend ⊢
    split at hend
    · rename_i shape inputs control outer hn
      dsimp only
      split at hend
      · rename_i hlen
        rw [if_pos hlen]
        have hinputs : shape.Counts inputs.length ∧ ∀ x ∈ inputs, g.contains x :=
          ⟨hcounted _ _ shape hn rfl, fun x hx => contains_input hv hn hx⟩
        cases outer with
        | none => exact ⟨by simp, by simpa using hinputs⟩
        | some outer =>
          obtain ⟨-, hrest⟩ := ih hend
          refine ⟨by simp, fun f hf => ?_⟩
          rcases List.mem_cons.1 hf with rfl | hf
          · exact hinputs
          · exact hrest f hf
      · cases hend
    · cases hend

theorem endsIn_readFrames (arguments : List Value) {frames : List (FrameShape × List NodeId)}
    (overrun : Reading SuspendedFrame)
    (h : ∀ f ∈ frames, f.1.Counts f.2.length ∧ ∀ x ∈ f.2, g.contains x) :
    EndsIn (fun fs => fs.length = frames.length)
      (Graph.readFrames (valueOf g arguments) overrun frames) := by
  induction frames with
  | nil => exact endsIn_pure rfl
  | cons f frames ih =>
    obtain ⟨shape, inputs⟩ := f
    obtain ⟨hcounts, hinputs⟩ := h _ List.mem_cons_self
    refine (endsIn_mapM fun x hx => endsIn_valueOf hv hacyclic arguments (hinputs x hx)).bind
      fun vs hvs => ?_
    rw [takeApart, if_pos (hvs ▸ hcounts.splits), pure_bind]
    refine (ih fun f hf => h f (List.mem_cons_of_mem _ hf)).bind fun fs hfs => ?_
    exact endsIn_pure (by rw [List.length_cons, List.length_cons, hfs])

theorem endsIn_handOver (hcounted : g.FramesCounted) (arguments : List Value) {id s : NodeId}
    (hend : (g.stateChain s).ending = .complete) (result : Option Value) :
    EndsIn (fun _ => True) (handOver g arguments id (some s) result) := by
  obtain ⟨hne, hin⟩ := frames_of_complete hv hcounted _ hend
  unfold handOver Graph.materialize
  dsimp only
  rw [bind_assoc]
  refine (endsIn_readFrames hv hacyclic arguments _ hin).bind fun fs hfs => ?_
  cases fs with
  | nil => exact absurd (List.length_eq_zero_iff.1 hfs.symm) hne
  | cons f callers =>
    rw [hend]
    cases result <;> exact endsIn_pure trivial

/-! ## Merges -/

theorem endsIn_enterMerge (flow : Flow g) (arguments : List Value) {m q : NodeId} {n : Node}
    (hn : g.node? m = some n) (hq : q ∈ n.control) :
    EndsIn (fun _ => True) (enterMerge g flow arguments m n.control (some q)) := by
  obtain ⟨index, hi⟩ : ∃ index, n.control.idxOf? q = some index := by
    rw [← Option.isSome_iff_exists, List.isSome_idxOf?]
    exact hq
  have hlt : index < n.control.length := (List.getElem?_eq_some_iff.1 (getElem?_of_idxOf? hi)).1
  unfold enterMerge
  rw [Option.bind_some, hi]
  dsimp only
  rw [Flow.phisOf_eq]
  cases hps : g.phisOf m with
  | nil => exact endsIn_pure trivial
  | cons first phis =>
    refine EndsIn.bind (endsIn_mapM (Q := fun _ => True) fun phi hphi => ?_) fun _ _ =>
      endsIn_update
    obtain ⟨p, hp, hk, hc⟩ := mem_phisOf.1 (hps ▸ hphi)
    obtain ⟨nm, hnm, -, hlen⟩ := hv.phis phi p m hp hk (List.mem_of_mem_head? hc)
    obtain rfl := Option.some.inj (hn.symm.trans hnm)
    simp only [hp]
    refine (endsIn_inputAt (by omega)).bind fun x hx => ?_
    exact (endsIn_valueOf hv hacyclic arguments
      (contains_input hv hp (List.mem_of_getElem? hx))).bind fun _ _ =>
      endsIn_pure trivial

end

/-! ## Steps -/

variable {σ : Type} {host : Host σ} {c : Code} {arguments : List Value} {here : Position}
    {a : Activation σ}

/-- What one step can come to: control goes on to a successor, the run is
over, a value is not as it should be, or a call fails or does not end. -/
inductive Defined (host : Host σ) (c : Code) (arguments : List Value) (here : Position)
    (a : Activation σ) :
    Outcome GuestError (Activation σ) Progress → Prop
  | goes {next a'} : next ∈ c.graph.successors here.current →
    Defined host c arguments here a (.done (.go ⟨next, some here.current⟩) a')
  | finishes {result a'} : Defined host c arguments here a (.done (.finish result) a')
  | wants {e a'} : e.IsValueError → Defined host c arguments here a (.stop e a')
  | fails {n target site vs r e a'} : c.graph.node? here.current = some n →
      n.kind = .invoke target site →
      n.inputs.mapM (valueOf c.graph arguments) a.registers = .done vs r →
      host.call target vs a.world = .stop e a'.world → Defined host c arguments here a (.stop e a')
  | waits {n target site vs r} : c.graph.node? here.current = some n →
      n.kind = .invoke target site →
      n.inputs.mapM (valueOf c.graph arguments) a.registers = .done vs r →
      host.call target vs a.world = .exhausted → Defined host c arguments here a .exhausted

/-- Control is at a fixed node, and has come to a merge over one of its
edges. -/
def Placed (g : Graph) (here : Position) : Prop :=
  ∃ n, g.node? here.current = some n ∧ n.kind.isFixed ∧
    (n.kind.isMerge → ∃ q, here.previous = some q ∧ q ∈ n.control)

/-- A step that reads first is defined if it is defined with all that can be
read. -/
theorem Defined.reading {α : Type} {P : α → Prop} {x : Reading α} (hx : EndsIn P x)
    {f : α → Comp GuestError (Activation σ) Progress} (a₁ : Activation σ)
    (hf : ∀ v r, x a₁.registers = .done v r → P v →
        Defined host c arguments here a (f v { a₁ with registers := r })) :
    Defined host c arguments here a ((Code.reading x >>= f) a₁) := by
  rcases hx a₁.registers with ⟨v, r, h, hv⟩ | ⟨e, r, h, he⟩
  · have hread : Code.reading x a₁ = .done v { a₁ with registers := r } := by
      rw [Code.reading, Comp.within, h]
    rw [Comp.bind_done hread]
    exact hf v r h hv
  · have hread : Code.reading x a₁ = .stop e { a₁ with registers := r } := by
      rw [Code.reading, Comp.within, h]
    rw [Comp.bind_stop hread]
    exact .wants he

theorem defined_goTo {next : Option NodeId} {missing : InternalFault} {x : NodeId}
    (h : next = some x) (hx : x ∈ c.graph.successors here.current) (a' : Activation σ) :
    Defined host c arguments here a (goTo here.current next missing a') := by
  subst h
  exact .goes hx

theorem defined_advance {n : Node} (hv : c.graph.Verified)
    (hn : c.graph.node? here.current = some n) (hk : n.kind.isFixed)
    (hone : successorCount n.kind = 1) (a' : Activation σ) :
    Defined host c arguments here a (advance c here.current a') := by
  have hlen := hv.successors _ n hn hk
  rw [hone] at hlen
  obtain ⟨x, hx⟩ := List.length_eq_one_iff.1 hlen
  refine defined_goTo (x := x) ?_ (by simp [hx]) a'
  rw [Flow.successors_eq, hx]
  rfl

section

variable (hv : c.graph.Verified) (hframes : c.graph.verifyFrameStates = .ok ())
    (hcounted : c.graph.FramesCounted) (hacyclic : ∀ x, ¬ TransGen c.graph.OperatorReads x x)

include hv hframes hcounted hacyclic

/-- Where control is placed, the step from there is defined. -/
theorem step_defined (hplaced : Placed c.graph here) :
    Defined host c arguments here a (step host c arguments here a) := by
  obtain ⟨n, hn, hfixed, hmerge⟩ := hplaced
  have harity := hv.arity _ n hn
  unfold Node.Arity at harity
  have hadvance : successorCount n.kind = 1 → ∀ a', Defined host c arguments here a
      (advance c here.current a') := fun hone => defined_advance hv hn hfixed hone
  have hinput : 0 < n.inputs.length →
      EndsIn _ (do valueOf c.graph arguments (← inputAt here.current n.inputs 0)) :=
    fun hi => endsIn_input hv hacyclic arguments hn hi
  have hover : n.kind.canDeoptimize → ∀ result,
      EndsIn (fun _ => True) (handOver c.graph arguments here.current n.state result) := by
    intro hk result
    obtain ⟨s, hs, hend⟩ := verifyFrameStates_eq_ok_iff.1 hframes _ n hn hk
    rw [hs]
    exact endsIn_handOver hv hacyclic hcounted arguments hend result
  unfold step
  simp only [hn]
  cases hk : n.kind with
  | start | onTrue | onFalse => exact hadvance (by rw [hk]; rfl) a
  | merge | loopBegin =>
    obtain ⟨q, hq, hmem⟩ := hmerge (by rw [hk]; rfl)
    dsimp only
    rw [hq]
    exact .reading (endsIn_enterMerge hv hacyclic c.flow arguments hn hmem) a fun _ r _ _ =>
      hadvance (by rw [hk]; rfl) _
  | branch =>
    simp only [hk] at harity
    refine .reading (hinput (by omega)) a fun v r _ _ => ?_
    cases hcond : v.condition with
    | error e => exact .wants (.inl (Value.kind_of_condition hcond))
    | ok taken =>
      have hlen := hv.successors _ n hn hfixed
      rw [hk] at hlen
      obtain ⟨x, y, hxy⟩ := List.length_eq_two.1 hlen
      cases taken with
      | false =>
        exact defined_goTo (x := y) (by rw [Flow.successors_eq, hxy]; rfl) (by simp [hxy]) _
      | true => exact defined_goTo (x := x) (by rw [Flow.successors_eq, hxy]; rfl) (by simp [hxy]) _
  | guard check reason =>
    simp only [hk] at harity
    refine .reading (hinput (by omega)) a fun v r _ _ => ?_
    split
    · exact hadvance (by rw [hk]; rfl) _
    · exact .reading (hover (by rw [hk]; rfl) none) _ fun _ _ _ _ => .finishes
  | deoptimize reason => exact .reading (hover (by rw [hk]; rfl) none) a fun _ _ _ _ => .finishes
  | invoke target site =>
    have hargs : EndsIn _ (n.inputs.mapM (valueOf c.graph arguments)) :=
      endsIn_mapM fun x hx => endsIn_valueOf hv hacyclic arguments (contains_input hv hn hx)
    refine .reading hargs a fun vs r hread _ => ?_
    cases hcall : host.call target vs a.world with
    | exhausted =>
      rw [Comp.bind_exhausted (by rw [outside, Comp.within]; dsimp only; rw [hcall])]
      exact .waits hn hk hread hcall
    | stop e w =>
      have houtside : outside (host.call target vs) { a with registers := r } = .stop e ⟨r, w⟩ := by
        rw [outside, Comp.within]
        dsimp only
        rw [hcall]
      rw [Comp.bind_stop houtside]
      exact .fails hn hk hread hcall
    | done v w =>
      have houtside : outside (host.call target vs) { a with registers := r } = .done v ⟨r, w⟩ := by
        rw [outside, Comp.within]
        dsimp only
        rw [hcall]
      rw [Comp.bind_done houtside]
      refine .reading endsIn_update _ fun _ r' _ _ => ?_
      rw [Comp.state_bind]
      split
      · exact hadvance (by rw [hk]; rfl) _
      · exact .reading (hover (by rw [hk]; rfl) (some v)) _ fun _ _ _ _ => .finishes
  | ret =>
    simp only [hk] at harity
    exact .reading (hinput (by omega)) a fun _ _ _ _ => .finishes
  | parameter | constant | binary | unary | phi | frameState => rw [hk] at hfixed; cases hfixed

/-- Control stays placed. -/
theorem Placed.goes {next : Position} {a' : Activation σ} (h : Placed c.graph here)
    (hgo : Goes host c arguments (here, a) (next, a')) : Placed c.graph next := by
  have hd : Defined host c arguments here a (step host c arguments here a) :=
    step_defined hv hframes hcounted hacyclic h
  rw [show step host c arguments here a = .done (.go next) a' from hgo] at hd
  cases hd with
  | goes hnext =>
    obtain ⟨n, hn, hk, hmem⟩ := mem_successors.1 hnext
    exact ⟨n, hn, hk, fun _ => ⟨_, rfl, hmem⟩⟩

theorem placed_of_comes {world : σ} (h : Comes host c arguments world here a) :
    Placed c.graph here := by
  have general : ∀ x, ReflTransGen (Goes host c arguments) (entrance world) x →
      Placed c.graph x.1 := by
    intro x hx
    induction hx with
    | refl =>
      obtain ⟨n, hn, hk⟩ := kind?_eq_some.1 hv.start
      exact ⟨n, hn, by rw [hk]; rfl, fun hm => by rw [hk] at hm; cases hm⟩
    | tail _ hgo ih => exact ih.goes hv hframes hcounted hacyclic hgo
  exact general (here, a) h

end

/-- What the backend accepts is verified, and it is the graph of the code. -/
theorem verified_of_emit {g : Graph} {target : TargetId} {name : String}
    (h : Backend.direct.emit g target name = .ok c) :
    c.graph.Verified ∧ c.graph.verifyFrameStates = .ok () ∧ c.graph = g := by
  unfold Backend.direct at h
  dsimp only at h
  split at h
  · cases h
  · cases hv : g.verify with
    | error e => rw [hv] at h; cases h
    | ok u =>
      cases hf : g.verifyFrameStates with
      | error e => rw [hv, hf] at h; cases h
      | ok u' =>
        rw [hv, hf, Code.ofGraph, hv] at h
        cases h
        exact ⟨verify_eq_ok_iff.1 hv, hf, rfl⟩

/-- Control never gets stuck in emitted code. Take a graph that the backend
accepts, in which no operator depends on itself and no frame state counts more
values than a word can, and any host, arguments and world. Wherever a run
comes to, control is at a fixed node and has come to a merge over one of its
edges, and the step from there is defined: control goes on to a successor or
the run is over, unless a call does not end or the step fails. An internal
fault that ends a run is the want of a value, or one that a call gave. -/
theorem emitted_code_never_stuck {g : Graph} {target : TargetId} {name : String}
    (hemit : Backend.direct.emit g target name = .ok c)
    (hacyclic : ∀ x, ¬ TransGen g.OperatorReads x x) (hfits : g.FramesFit) (host : Host σ)
    (arguments : List Value) (world : σ) :
    (∀ here a, Comes host c arguments world here a →
      Placed g here ∧ Defined host c arguments here a (step host c arguments here a)) ∧
    ∀ (bound : ℕ) (fault : InternalFault) (w : σ),
      c.run host bound arguments world = .stop (.internal fault) w →
      (∃ id, fault = .readBeforeSet id) ∨ (∃ id kind, fault = .producesNoValue id kind) ∨
      ∃ here a callee vs, Comes host c arguments world here a ∧
        host.call callee vs a.world = .stop (.internal fault) w := by
  obtain ⟨hv, hframes, rfl⟩ := verified_of_emit hemit
  have hcounted := hv.framesCounted hfits
  have hcomes : ∀ here a, Comes host c arguments world here a →
      Placed c.graph here ∧ Defined host c arguments here a (step host c arguments here a) := by
    intro here a h
    have hplaced := placed_of_comes hv hframes hcounted hacyclic h
    exact ⟨hplaced, step_defined hv hframes hcounted hacyclic hplaced⟩
  refine ⟨hcomes, fun bound fault w hrun => ?_⟩
  obtain ⟨here, a, a', h, hstop, rfl⟩ := exists_stop_of_run hrun
  have hd := (hcomes here a h).2
  rw [hstop] at hd
  cases hd with
  | wants he =>
    rcases he with hkind | ⟨id, hid⟩ | ⟨id, kind, hid⟩
    · cases hkind
    · cases hid
      exact .inl ⟨id, rfl⟩
    · cases hid
      exact .inr (.inl ⟨id, kind, rfl⟩)
  | fails _ _ _ hcall => exact .inr (.inr ⟨here, a, _, _, h, hcall⟩)

/-- A graph that doubles the answer of a call which control never comes to. -/
def doubleUncalled : Graph where
  name := "double"
  nodes := #[some { kind := .start }, some { kind := .ret, inputs := [2], control := [0] },
    some { kind := .binary .add, inputs := [3, 3] },
    some { kind := .invoke 0 0, control := [3], state := some 4 },
    some { kind := .frameState ⟨0, 0, .afterCall, 0, 0, 0⟩ }]
  shared := []

/-- No operator of it reads another. -/
theorem doubleUncalled_acyclic (x : NodeId) :
    ¬ TransGen doubleUncalled.OperatorReads x x := acyclic_of_flat (by decide) x

/-- The backend accepts it, control comes to the return, and there the answer
is wanted and is not set. -/
theorem emitted_code_never_stuck_uncalled :
    ∃ c, Backend.direct.emit doubleUncalled 0 "double" = .ok c ∧
      (∀ here a, Comes (⟨fun _ _ w => .done .null w, fun _ => true⟩ : Host Unit) c [] () here a →
        Placed doubleUncalled here ∧
          Defined (⟨fun _ _ w => .done .null w, fun _ => true⟩ : Host Unit) c [] here a
            (step (⟨fun _ _ w => .done .null w, fun _ => true⟩ : Host Unit) c [] here a)) ∧
      c.run (⟨fun _ _ w => .done .null w, fun _ => true⟩ : Host Unit) 2 [] () =
        .stop (.internal (.readBeforeSet 3)) () := by
  have hemit : Backend.direct.emit doubleUncalled 0 "double" =
      .ok ⟨0, doubleUncalled, doubleUncalled.flow⟩ := rfl
  exact ⟨_, hemit, (emitted_code_never_stuck hemit doubleUncalled_acyclic (by decide) _ _ _).1, rfl⟩

/-- A graph that hands over a frame of four billion values and has none of
them. -/
def overcounted : Graph where
  name := "overcounted"
  nodes := #[some { kind := .start },
    some { kind := .deoptimize .transferToInterpreter, control := [0], state := some 2 },
    some { kind := .frameState ⟨0, 0, .start, 0x80000000, 0x80000000, 0⟩ }]
  shared := []

/-- The sum of its counts is zero, so the backend accepts it, but its values
cannot be taken apart. -/
theorem overcounted_breaks_off :
    (∃ c, Backend.direct.emit overcounted 0 "overcounted" = .ok c ∧
      c.run (⟨fun _ _ w => .done .null w, fun _ => true⟩ : Host Unit) 2 [] () =
        .stop (.internal .frameOverrun) ()) ∧
    ∀ x, ¬ TransGen overcounted.OperatorReads x x := by
  have hemit : Backend.direct.emit overcounted 0 "overcounted" =
      .ok ⟨0, overcounted, overcounted.flow⟩ := rfl
  exact ⟨⟨_, hemit, rfl⟩, acyclic_of_flat (by decide)⟩

end Code

end TieredEngine

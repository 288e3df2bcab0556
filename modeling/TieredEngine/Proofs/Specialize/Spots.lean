import TieredEngine.Specialize.Eval
import TieredEngine.Proofs.Graph.Verified
import TieredEngine.Proofs.Interpreter.Unfolding
/-!
# Spots

Where the specializer is while it walks through routines: a moment of the
interpreter with graph nodes in place of values, the types that guards have
established, and the frames of the routines that wait because the present one
was inlined into them. Once the nodes have values a spot is a moment, so the
computation that is left at a spot is the interpreter's, and a step of the
interpreter leads from one spot to the next: `Spot.ends_step`.
-/

namespace TieredEngine

namespace Specialize

open Interpreter (Slot Moment Activation Step Within)

/-- A slot that holds nodes back. -/
structure NodeSlot where
  parent : Expr
  index : Nat
  pending : List NodeId

/-- A frame of nodes, with the slots around the expression it is at. -/
structure NodeFrame where
  target : TargetId
  routine : Routine
  arguments : List NodeId
  locals : List NodeId
  context : List NodeSlot

/-- A frame that waits for a call. -/
structure Caller where
  frame : NodeFrame
  site : Expr
  /-- The frame state that describes the frame behind the call. -/
  state : NodeId

/-- What an expression is about: the innermost slot may also get a value that
has no node yet. -/
inductive Doing where
  | enter (e : Expr)
  | ready (e : Expr) (values : List NodeId)
  | literal (v : Value)
  | value (v : NodeId)

/-- Where the specializer is. -/
structure Spot where
  frame : NodeFrame
  doing : Doing
  facts : Facts
  callers : List Caller

/-! ## The nodes of a spot -/

/-- The operands that the slots of a context hold back. -/
def pendingNodes (ss : List NodeSlot) : List NodeId := ss.flatMap NodeSlot.pending

@[simp]
theorem pendingNodes_concat (ss : List NodeSlot) (s : NodeSlot) :
    pendingNodes (ss ++ [s]) = pendingNodes ss ++ s.pending := by
  simp [pendingNodes]

/-- The nodes that a frame is made of. -/
def NodeFrame.nodes (F : NodeFrame) : List NodeId :=
  F.arguments ++ F.locals ++ pendingNodes F.context

/-- The nodes that have to have a value for a spot to make sense. -/
def Doing.nodes : Doing → List NodeId
  | .enter _ | .literal _ => []
  | .ready _ vs => vs
  | .value v => [v]

/-- All the nodes of a spot. -/
def Spot.nodes (S : Spot) : List NodeId :=
  S.frame.nodes ++ S.doing.nodes ++ S.callers.flatMap fun c => c.frame.nodes

/-- How many loop bodies enclose an expression in its routine. -/
def loopDepth (ss : List NodeSlot) : ℕ :=
  (ss.map fun s => match s.parent with | .whileLoop .. => min s.index 1 | _ => 0).sum

@[simp]
theorem loopDepth_concat (ss : List NodeSlot) (s : NodeSlot) : loopDepth
    (ss ++ [s]) = loopDepth ss + match s.parent with | .whileLoop .. => min s.index 1 | _ => 0 := by
  simp [loopDepth]

/-- How many loop bodies enclose a spot, in all its frames. -/
def Spot.depth (S : Spot) : ℕ :=
  loopDepth S.frame.context + (S.callers.map fun c => loopDepth c.frame.context).sum

/-! ## Spots as moments -/

section

variable (f : NodeId → Value)

/-- The slot whose nodes have values. -/
def NodeSlot.slot (s : NodeSlot) : Slot := ⟨s.parent, s.index, s.pending.map f⟩

/-- The slots of a frame. -/
def NodeFrame.slots (F : NodeFrame) : List Slot := F.context.map (NodeSlot.slot f)

/-- The activation of a frame. -/
def NodeFrame.activation (F : NodeFrame) (w : ℕ) : Activation ℕ :=
  ⟨⟨F.arguments.map f, F.locals.map f⟩, w⟩

/-- The moment of a spot, with a count. -/
def Spot.moment (S : Spot) (w : ℕ) : Moment ℕ :=
  match S.doing with
  | .enter e => .enter (S.frame.slots f) e (S.frame.activation f w)
  | .ready e vs => .ready (S.frame.slots f) e (vs.map f) (S.frame.activation f w)
  | .literal v => .value (S.frame.slots f) v (S.frame.activation f w)
  | .value v => .value (S.frame.slots f) (f v) (S.frame.activation f w)

/-- The moment of a caller when its call has returned. -/
def Caller.moment (c : Caller) (v : Value) (w : ℕ) : Moment ℕ :=
  .back (c.frame.slots f) c.site v (c.frame.activation f w)

/-- What the callers make of an outcome. -/
inductive After (h : Host ℕ) :
    List Caller → Outcome GuestError ℕ Value → Outcome GuestError ℕ Value → Prop
  | nil {o} : After h [] o o
  | stop {cs e w} : After h cs (.stop e w) (.stop e w)
  | back {c cs v w k o₁ o} : (c.moment f v w).rest h k = o₁ → o₁ ≠ .exhausted → After h cs o₁ o →
    After h (c :: cs) (.done v w) o

/-- The computation that is left at a spot ends so. -/
def Spot.Ends (h : Host ℕ) (S : Spot) (w : ℕ) (o : Outcome GuestError ℕ Value) : Prop :=
  ∃ k o₁, (S.moment f w).rest h k = o₁ ∧ o₁ ≠ .exhausted ∧ After f h S.callers o₁ o

end

section

variable {f : NodeId → Value} {h : Host ℕ} {S T : Spot} {w w' : ℕ} {o : Outcome GuestError ℕ Value}

/-- A step of the interpreter leads from one spot to the next. -/
theorem Spot.ends_step (hs : Step h (S.moment f w) (T.moment f w')) (hc : T.callers = S.callers)
    (he : S.Ends f h w o) : T.Ends f h w' o := by
  obtain ⟨k, o₁, h1, h2, h3⟩ := he
  obtain ⟨k', hk'⟩ := (Interpreter.rest_iff_of_step hs h2).1 ⟨k, h1⟩
  exact ⟨k', o₁, hk', h2, hc ▸ h3⟩

theorem After.of_stop {cs : List Caller} {e : GuestError} (ha : After f h cs (.stop e w) o) :
    o = .stop e w := by
  generalize ho : Outcome.stop e w = o₁ at ha
  cases ha with
  | nil => rfl
  | stop => rfl
  | back => cases ho

/-- Where the interpreter stops, the spot has ended. -/
theorem Spot.ends_stop {e : GuestError} (hs : Interpreter.Ends h (S.moment f w) (.stop e w'))
    (he : S.Ends f h w o) : o = .stop e w' := by
  obtain ⟨k, o₁, h1, -, h3⟩ := he
  rw [Interpreter.rest_of_ends hs k] at h1
  subst h1
  exact h3.of_stop

/-- What the nodes of a spot are is all that matters of them. -/
theorem NodeFrame.slots_congr {f' : NodeId → Value} {F : NodeFrame}
    (hf : ∀ x ∈ F.nodes, f x = f' x) :
    F.slots f = F.slots f' ∧ ∀ w, F.activation f w = F.activation f' w := by
  simp only [NodeFrame.nodes, pendingNodes, List.mem_append, List.mem_flatMap] at hf
  refine ⟨List.map_congr_left fun s hs => ?_, fun w => ?_⟩
  · have : s.pending.map f = s.pending.map f' :=
      List.map_congr_left fun x hx => hf x (.inr ⟨s, hs, hx⟩)
    rw [NodeSlot.slot, NodeSlot.slot, this]
  · have h1 : F.arguments.map f = F.arguments.map f' :=
      List.map_congr_left fun x hx => hf x (.inl (.inl hx))
    have h2 : F.locals.map f = F.locals.map f' :=
      List.map_congr_left fun x hx => hf x (.inl (.inr hx))
    rw [NodeFrame.activation, NodeFrame.activation, h1, h2]

theorem After.congr {f' : NodeId → Value} {cs : List Caller} {o₁ : Outcome GuestError ℕ Value}
    (hf : ∀ c ∈ cs, ∀ x ∈ c.frame.nodes, f x = f' x) (ha : After f h cs o₁ o) :
    After f' h cs o₁ o := by
  induction ha with
  | nil => exact .nil
  | stop => exact .stop
  | @back c cs v w k o₁ o h1 h2 _ ih =>
    obtain ⟨h3, h4⟩ := NodeFrame.slots_congr (hf c List.mem_cons_self)
    refine .back (k := k) ?_ h2 (ih fun c hc => hf c (List.mem_cons_of_mem _ hc))
    rw [← h1, Caller.moment, Caller.moment, h3, h4]

theorem Spot.Ends.congr {f' : NodeId → Value} (hf : ∀ x ∈ S.nodes, f x = f' x)
    (he : S.Ends f h w o) :
    S.Ends f' h w o := by
  simp only [Spot.nodes, List.mem_append, List.mem_flatMap] at hf
  obtain ⟨k, o₁, h1, h2, h3⟩ := he
  obtain ⟨h4, h5⟩ := NodeFrame.slots_congr (F := S.frame) fun x hx => hf x (.inl (.inl hx))
  refine ⟨k, o₁, ?_, h2, h3.congr fun c hc x hx => hf x (.inr ⟨c, hc, hx⟩)⟩
  rw [← h1]
  obtain ⟨F, d, facts, cs⟩ := S
  cases d with
  | enter e => simp only [Spot.moment, h4, h5]
  | ready e vs =>
    have : vs.map f = vs.map f' := List.map_congr_left fun x hx => hf x (.inl (.inr hx))
    simp only [Spot.moment, h4, h5, this]
  | literal v => simp only [Spot.moment, h4, h5]
  | value v =>
    have : f v = f' v := hf v (.inl (.inr (by simp [Doing.nodes])))
    simp only [Spot.moment, h4, h5, this]

variable {routines : TargetId → Routine → Prop} {ignored : GuestError → Prop}

theorem Spot.activation_moment (S : Spot) : (S.moment f w).activation = S.frame.activation f w := by
  obtain ⟨F, d, facts, cs⟩ := S
  cases d <;> rfl

theorem After.counts (hh : h.Counts) {cs : List Caller} {o₁ : Outcome GuestError ℕ Value}
    (ha : After f h cs o₁ o) : o₁.final ≤ o.final := by
  induction ha with
  | nil => exact Nat.le_refl _
  | stop => exact Nat.le_refl _
  | @back c cs v w k o₁ o h1 h2 _ ih =>
    subst h1
    exact (Interpreter.rest_counts hh h2).trans ih

/-- A spot does not count backwards. -/
theorem Spot.Ends.counts (hh : h.Counts) (he : S.Ends f h w o) : w ≤ o.final := by
  obtain ⟨k, o₁, rfl, h2, h3⟩ := he
  have := Interpreter.rest_counts hh h2
  rw [S.activation_moment] at this
  exact this.trans (h3.counts hh)

/-! ## Entering and leaving inlined routines -/

/-- The spot where an inlined routine begins. -/
def Spot.inlined (F : NodeFrame) (site : Expr) (state : NodeId) (target : TargetId) (r : Routine)
    (arguments locals : List NodeId) (facts : Facts) (callers : List Caller) : Spot :=
  ⟨⟨target, r, arguments, locals, []⟩, .enter r.body, facts, ⟨F, site, state⟩ :: callers⟩

/-- What comes of a call: it fails, or its result goes to the frame that waits
for it. -/
theorem Spot.ends_call {F : NodeFrame} {id : ExprId} {target : TargetId} {es : List Expr}
    {vs : List NodeId} {facts : Facts} {cs : List Caller} (state : NodeId)
    (he : Spot.Ends f h ⟨F, .ready (.call id target es) vs, facts, cs⟩ w o) :
    (∃ e w', h.call target (vs.map f) w = .stop e w' ∧ o = .stop e w') ∨
      ∃ v w', h.call target (vs.map f) w = .done v w' ∧ ∃ k o₁,
        (Caller.moment f ⟨F, .call id target es, state⟩ v w').rest h k = o₁ ∧ o₁ ≠ .exhausted ∧
          After f h cs o₁ o := by
  cases hc : h.call target (vs.map f) w with
  | exhausted =>
    obtain ⟨k, o₁, h1, h2, -⟩ := he
    refine absurd (h1 ▸ ?_) h2
    simp only [Spot.moment, Moment.rest, Moment.todo, Moment.activation, Interpreter.act]
    exact Interpreter.conclude_fill_exhausted (a := F.activation f w)
      (by simp only [Interpreter.dispatch, NodeFrame.activation, hc]) _
  | stop e w' => exact .inl ⟨e, w', rfl, Spot.ends_stop (.call hc) he⟩
  | done v w' =>
    obtain ⟨k, o₁, h1, h2, h3⟩ := he
    have hstep : Step h (Spot.moment f ⟨F, .ready (.call id target es) vs, facts, cs⟩ w)
        (Caller.moment f ⟨F, .call id target es, state⟩ v w') := .call hc
    obtain ⟨k', hk'⟩ := (Interpreter.rest_iff_of_step hstep h2).1 ⟨k, h1⟩
    exact .inr ⟨v, w', rfl, k', o₁, hk', h2, h3⟩

/-- Instead of making a call, its routine may be run in place. -/
theorem Spot.ends_inline (hh : h.Unfolds routines ignored) {F : NodeFrame} {id : ExprId}
    {target : TargetId} {es : List Expr} {vs locals : List NodeId} {facts facts' : Facts}
    {cs : List Caller} {r : Routine} {state : NodeId} (hr : routines target r)
    (hl : locals.map f = List.replicate r.localCount .null)
    (ho : ∀ e w, o = .stop e w → ¬ ignored e)
    (he : Spot.Ends f h ⟨F, .ready (.call id target es) vs, facts, cs⟩ w o) :
    (Spot.inlined F (.call id target es) state target r vs locals facts' cs).Ends f h w o := by
  have hstart : ∀ k,
      ((Spot.inlined F (.call id target es) state target r vs locals facts' cs).moment f w).rest h
      k = Interpreter.execute h k r (vs.map f) w := by
    intro k
    simp only [Spot.moment, Spot.inlined, NodeFrame.slots, NodeFrame.activation, List.map_nil, hl]
    rfl
  rcases Spot.ends_call state he with ⟨e, w', hc, rfl⟩ | ⟨v, w', hc, k, o₁, h1, h2, h3⟩
  · obtain ⟨k', hk'⟩ := hh.unfold target r (vs.map f) w hr (by simp [hc]) fun e' w'' h' => by
      rw [hc] at h'
      cases h'
      exact ho e w' rfl
    exact ⟨k', _, (hstart k').trans (hk'.trans hc), by simp, .stop⟩
  · obtain ⟨k', hk'⟩ := hh.unfold target r (vs.map f) w hr (by simp [hc]) fun e' w'' h' => by
      rw [hc] at h'
      cases h'
    exact ⟨k', _, (hstart k').trans (hk'.trans hc), by simp, .back h1 h2 h3⟩

/-- The value of an inlined routine goes to its caller. -/
theorem Spot.ends_return {F G : NodeFrame} {site : Expr} {state v : NodeId} {facts : Facts}
    {cs : List Caller} (hF : F.context = [])
    (he : Spot.Ends f h ⟨F, .value v, facts, ⟨G, site, state⟩ :: cs⟩ w o) (facts' : Facts) :
    Spot.Ends f h ⟨G, .value v, facts', cs⟩ w o := by
  obtain ⟨k, o₁, h1, h2, h3⟩ := he
  have hend : Interpreter.Ends h (Spot.moment f ⟨F, .value v, facts, ⟨G, site, state⟩ :: cs⟩ w)
      (.done (f v) w) := by
    simp only [Spot.moment, NodeFrame.slots, hF, List.map_nil]
    exact .finished
  rw [Interpreter.rest_of_ends hend k] at h1
  subst h1
  cases h3 with
  | back h4 h5 h6 =>
    have hstep : Step h (Caller.moment f ⟨G, site, state⟩ (f v) w)
        (Spot.moment f ⟨G, .value v, facts', cs⟩ w) := .returned
    obtain ⟨k', hk'⟩ := (Interpreter.rest_iff_of_step hstep h5).1 ⟨_, h4⟩
    exact ⟨k', _, hk', h5, h6⟩

end

/-! ## Suspended frames -/

/-- The frame suspended at an expression, with some values on top of its
stack. -/
def NodeFrame.suspended (F : NodeFrame) (f : NodeId → Value) (node : ExprId) (mode : ResumeMode)
    (top : List Value) :
    SuspendedFrame :=
  ⟨F.target, node, mode, F.arguments.map f, F.locals.map f, (pendingNodes F.context).map f ++ top⟩

/-- The frame of a caller, suspended behind its call. -/
def Caller.suspended (f : NodeId → Value) (c : Caller) : SuspendedFrame :=
  c.frame.suspended f c.site.id .afterCall []

/-- The frame is one of a registered routine. -/
structure NodeFrame.Placed (routines : TargetId → Routine → Prop) (F : NodeFrame) : Prop where
  routine : routines F.target F.routine
  locals : F.locals.length = F.routine.localCount

/-- The caller is at a call of a registered routine. -/
structure Caller.Placed (routines : TargetId → Routine → Prop) (c : Caller) : Prop extends
    NodeFrame.Placed routines c.frame where
  inside : ∀ f, Within c.frame.routine.body (c.frame.slots f) c.site
  call : ∃ id target arguments, c.site = .call id target arguments

theorem pendingOf_slots (F : NodeFrame) (f : NodeId → Value) :
    Interpreter.pendingOf (F.slots f) = (pendingNodes F.context).map f := by
  simp [Interpreter.pendingOf, NodeFrame.slots, pendingNodes, List.flatMap_map, List.map_flatMap,
    NodeSlot.slot]

section

variable {f : NodeId → Value} {h : Host ℕ} {w : ℕ} {o o₁ : Outcome GuestError ℕ Value}
  {routines : TargetId → Routine → Prop}

/-- A caller with the result of its call resumes with what is left there. -/
theorem Caller.resume_eq {c : Caller} (hc : c.Placed routines) (v : Value) (k : ℕ) :
    Interpreter.resume h k c.frame.routine
      ((c.suspended f).push v) w = (c.moment f v w).rest h k := by
  refine Interpreter.resume_eq_rest h k (m := c.moment f v w) ⟨hc.inside f, hc.call⟩ ?_
    (t := c.frame.target) ?_
  · simpa [Caller.moment, Moment.activation, NodeFrame.activation] using hc.locals
  · simp [Caller.moment, Moment.suspended, Caller.suspended, NodeFrame.suspended,
      SuspendedFrame.push, pendingOf_slots, NodeFrame.activation]

/-- A frame that resumes to what its callers go on with resumes, in a chain,
to the end. -/
theorem After.resumes {cs : List Caller} (hcs : ∀ c ∈ cs, c.Placed routines)
    (ha : After f h cs o₁ o) (hne : o₁ ≠ .exhausted) {r : Routine} {s : SuspendedFrame} {k : ℕ}
    (hr : routines s.target r) (hs : Interpreter.resume h k r s w = o₁) :
    Interpreter.Resumes routines h s (cs.map (Caller.suspended f)) w o := by
  induction ha generalizing r s k w with
  | nil => exact .last hr hs hne
  | @stop cs e w' =>
    cases cs with
    | nil => exact .last hr hs hne
    | cons c cs => exact .fail hr hs
  | @back c cs v w' k' o₁ o h1 h2 _ ih =>
    have hc := hcs c List.mem_cons_self
    refine .more hr hs
      (ih (fun c hc => hcs c (List.mem_cons_of_mem _ hc)) h2 (r := c.frame.routine) (k := k') ?_ ?_)
    · exact hc.routine
    · rw [Caller.resume_eq hc, h1]

/-- The frame suspended where an expression is about to act resumes, in a
chain, to the end. -/
theorem Spot.ends_resumes {F : NodeFrame} {e : Expr} {vs : List NodeId} {facts : Facts}
    {cs : List Caller} (hF : F.Placed routines) (hcs : ∀ c ∈ cs, c.Placed routines)
    (hi : ∀ w, ((⟨F, .ready e vs, facts, cs⟩ : Spot).moment f w).Inside F.routine.body)
    (he : Spot.Ends f h ⟨F, .ready e vs, facts, cs⟩ w o) :
    Interpreter.Resumes routines h (F.suspended f e.id .beforeNode (vs.map f))
      (cs.map (Caller.suspended f)) w o := by
  obtain ⟨k, o₁, h1, h2, h3⟩ := he
  refine h3.resumes hcs h2 (r := F.routine) (k := k) hF.routine ?_
  rw [← h1]
  refine Interpreter.resume_eq_rest h k (m := Spot.moment f ⟨F, .ready e vs, facts, cs⟩ w) (hi w) ?_
    (t := F.target) ?_
  · simpa [Spot.moment, Moment.activation, NodeFrame.activation] using hF.locals
  · simp [Spot.moment, Moment.suspended, NodeFrame.suspended, pendingOf_slots, NodeFrame.activation]

end

/-! ## Spots in a graph -/

/-- The frame state behind which callers wait. -/
def outerOf (cs : List Caller) : Option NodeId := cs.head?.map Caller.state

/-- Every caller's frame is described by its frame state. -/
inductive Chain (g : Graph) : List Caller → Prop
  | nil : Chain g []
  | cons {n c cs} : g.node? c.state = some n →
      n.kind = .frameState (.ofLengths c.frame.target c.site.id .afterCall
      c.frame.arguments.length c.frame.locals.length (pendingNodes c.frame.context).length) →
    n.inputs = c.frame.nodes → n.state = outerOf cs → Chain g cs → Chain g (c :: cs)

variable (g : Graph) (arguments : List Value) (ρ : Bindings)

/-- The nodes of a spot have values, its facts are true, and its callers'
frames are described. -/
structure Spot.Good (S : Spot) : Prop where
  known : ∀ x ∈ S.nodes, Known g arguments ρ x
  facts : ∀ fact ∈ S.facts, ∃ v, Denotes g arguments ρ fact.1 v ∧ v.type = fact.2
  chain : Chain g S.callers

variable {g arguments ρ}

/-- The frame that a frame state stands for. -/
theorem NodeFrame.fill_eq (F : NodeFrame) (f : NodeId → Value) (node : ExprId) (mode : ResumeMode)
    (top : List NodeId) (hfits : (F.nodes ++ top).length < 2 ^ 32) :
    (FrameShape.ofLengths F.target node mode F.arguments.length F.locals.length
      (pendingNodes F.context ++ top).length).fill
        ((F.nodes ++ top).map f) = F.suspended f node mode (top.map f) := by
  have hlengths : (F.arguments.map f).length + (F.locals.map f).length +
      ((pendingNodes F.context ++ top).map f).length < 2 ^ 32 := by
    simpa [NodeFrame.nodes, Nat.add_assoc] using hfits
  have hnodes : (F.nodes ++ top).map f =
      F.arguments.map f ++ F.locals.map f ++ (pendingNodes F.context ++ top).map f := by
    simp [NodeFrame.nodes]
  rw [hnodes, ← List.length_map f, ← List.length_map f, ← List.length_map f,
    FrameShape.fill_ofLengths hlengths, List.map_append, NodeFrame.suspended]

/-- A frame state and the chain behind it stand for the suspended frames. -/
theorem Chain.framesAt {cs : List Caller} (hcounted : g.FramesCounted) (hc : Chain g cs) :
    ∀ {s : NodeId} {n : Node} {F : NodeFrame} {node : ExprId}
    {mode : ResumeMode} {t : List NodeId}, g.node? s = some n →
    n.kind = .frameState (.ofLengths F.target node mode F.arguments.length F.locals.length
      (pendingNodes F.context ++ t).length) →
    n.inputs = F.nodes ++ t → n.state = outerOf cs →
    (∀ x ∈ F.nodes ++ t ++ cs.flatMap fun c => c.frame.nodes, Known g arguments ρ x) →
    FramesAt g arguments ρ s
      (F.suspended (valueAt g arguments ρ) node mode (t.map (valueAt g arguments ρ)) ::
      cs.map (Caller.suspended (valueAt g arguments ρ))) := by
  induction hc with
  | nil =>
    intro s n F node mode t hn hk hin hst hknown
    have hv := @forall₂_valueAt g arguments ρ n.inputs fun x hx =>
      hknown x (by rw [hin] at hx; simpa using hx)
    have hcounts := hcounted s n _ hn hk
    rw [← F.fill_eq _ node mode t (hin ▸ hcounts.fits), ← hin]
    exact .last hn hk hcounts hst hv
  | @cons n' c cs hn' hk' hin' hst' _ ih =>
    intro s n F node mode t hn hk hin hst hknown
    have hv := @forall₂_valueAt g arguments ρ n.inputs fun x hx =>
      hknown x (by rw [hin] at hx; exact List.mem_append_left _ hx)
    have hrest :=
      @ih c.state n' c.frame _ _ [] hn' (by simpa using hk') (by simpa using hin') hst' fun x hx =>
      hknown x (by simp only [List.append_nil, List.mem_append, List.flatMap_cons] at hx ⊢; tauto)
    have hcounts := hcounted s n _ hn hk
    rw [← F.fill_eq _ node mode t (hin ▸ hcounts.fits), ← hin]
    exact .more hn hk hcounts hst hv hrest

end Specialize

end TieredEngine

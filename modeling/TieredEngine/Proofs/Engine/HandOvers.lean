import TieredEngine.Proofs.Engine.Optimization
import TieredEngine.Proofs.Specialize.Frames
/-!
# What code hands over can be resumed

The frames that running code hands over are those that its frame states
describe. In a specialized graph these have the size that resumption asks for,
so no frame of a snapshot is turned away, neither the innermost one nor, when
the result of the frame inside it has been pushed, any that waits. Optimizing
the graph changes nothing about it: `specialize_frames_fit`.
-/

namespace TieredEngine

open Interpreter (Accepts accepts_of_fits accepts_of_start)

/-! ## Frames of a shape -/

namespace FrameShape.Describes

variable {shape : FrameShape} {r : Routine} {vs : List Value}

/-- A frame before an expression is accepted, and so is one at the start. -/
theorem accepts (h : shape.Describes r) (hc : shape.Counts vs.length)
    (hm : shape.mode ≠ .afterCall) :
    Accepts r (shape.fill vs) := by
  cases hmode : shape.mode with
  | afterCall => exact absurd hmode hm
  | start => exact accepts_of_start hmode
  | beforeNode =>
    have hfill : (shape.fill vs).mode = .beforeNode := hmode
    refine accepts_of_fits (by simp [hfill]) ⟨h.node, by simp [hfill], ?_⟩
    rw [hc.length_stack, h.stack, hmode, hfill]
    rfl

/-- A frame behind a call is accepted with the result of the call. -/
theorem accepts_push (h : shape.Describes r) (hc : shape.Counts vs.length)
    (hm : shape.mode = .afterCall) (v : Value) :
    Accepts r ((shape.fill vs).push v) := by
  have hpush : ((shape.fill vs).push v).mode = .afterCall := hm
  refine accepts_of_fits (by simp [hpush]) ⟨h.node, fun _ => h.call hm, ?_⟩
  have hlen : ((shape.fill vs).push v).stack.length = shape.stack.toNat + 1 := by
    rw [SuspendedFrame.push, List.length_append, hc.length_stack]
    rfl
  rw [hlen, h.stack, hm, hpush]
  rfl

end FrameShape.Describes

namespace Specialize

variable {targets : Registry} {id : TargetId} {t : CallTarget} {plan : Plan} {g : Graph}
    {arguments : List Value} {ρ : Bindings}

/-- A routine that a specialization meets takes the frame, when it is about to
be picked up, and the frame with any result on top of it, when it waits. -/
def Takes (targets : Registry) (id : TargetId) (t : CallTarget) (f : SuspendedFrame) : Prop :=
  ∃ u, Involves targets id t f.target u ∧ (f.mode ≠ .afterCall → Accepts u.routine f) ∧
    (f.mode = .afterCall → ∀ v, Accepts u.routine (f.push v))

theorem takes_fill {shape : FrameShape} {o : Option NodeId} {vs : List Value}
    (h : g.Chained ⟨targets, id, t.routine, plan⟩ shape o) (hc : shape.Counts vs.length) :
    Takes targets id t (shape.fill vs) := by
  cases h with
  | root ht hs => exact ⟨t, .inl ⟨ht, rfl⟩, hs.accepts hc, hs.accepts_push hc⟩
  | inlined _ _ _ _ _ _ _ _ hv _ hs => exact ⟨_, .inr hv, hs.accepts hc, hs.accepts_push hc⟩

/-- The frames that a chain stands for are taken; all but the first wait. -/
theorem takes_of_framesAt
    (hg : ∀ m n, g.node? m = some n → g.Framed ⟨targets, id, t.routine, plan⟩ n) {s : NodeId}
    {fs : List SuspendedFrame} (h : FramesAt g arguments ρ s fs) :
    (∀ f ∈ fs, Takes targets id t f) ∧ ∀ f ∈ fs.tail, f.mode = .afterCall := by
  have hchained : ∀ {s n shape}, g.node? s = some n → n.kind = .frameState shape →
      shape.Counts n.inputs.length →
      g.Chained ⟨targets, id, t.routine, plan⟩ shape n.state := fun hn hk hc => by
    have hframed := hg _ _ hn
    rw [Graph.Framed, hk] at hframed
    exact hframed.2 hc
  induction h with
  | last hn hk hl _ hvs =>
    refine ⟨fun f hf => ?_, by simp⟩
    obtain rfl := List.mem_singleton.1 hf
    exact takes_fill (hchained hn hk hl) (hvs.length_eq ▸ hl)
  | @more s n shape vs o fs hn hk hl hstate hvs hrest ih =>
    refine ⟨fun f hf => ?_, fun f hf => ?_⟩
    · rcases List.mem_cons.1 hf with rfl | hf
      · exact takes_fill (hchained hn hk hl) (hvs.length_eq ▸ hl)
      · exact ih.1 f hf
    · have hc := hchained hn hk hl
      rw [hstate] at hc
      cases hc with
      | inlined ho hko hm =>
        cases fs with
        | nil => cases hf
        | cons f' fs =>
          rcases List.mem_cons.1 hf with rfl | hf
          · exact (hrest.mode_eq ho hko).trans hm
          · exact ih.2 f hf

end Specialize

namespace Code

open Specialize

variable {σ : Type} {host : Host σ} {c : Code} {arguments : List Value} {world world' : σ}
    {m : NodeId} {reason : DeoptReason} {snapshot : Snapshot}

/-- Where code gives up, it hands over the frames that the node's frame state
stands for; a call's answer is on top. -/
theorem GivesUpAt.frames (h : GivesUpAt host c arguments world m reason snapshot world') :
    ∃ n s ρ f, c.graph.node? m = some n ∧ n.state = some s ∧ n.kind.canDeoptimize ∧
      FramesAt c.graph arguments ρ s (f :: snapshot.callers) ∧
      ((n.kind.isInvoke = false ∧ snapshot.innermost = f) ∨
          (n.kind.isInvoke ∧ ∃ v, snapshot.innermost = f.push v)) := by
  rcases h.effects with ⟨-, target, site, hk⟩ | ⟨ρ, previous, heff⟩
  · obtain ⟨previous, a, a', -, hstep, -⟩ := h
    obtain ⟨n, hn, hk⟩ := Graph.kind?_eq_some.1 hk
    simp only [step, hn, hk] at hstep
    obtain ⟨vs, a₁, -, h2⟩ := Comp.bind_eq_done hstep
    obtain ⟨result, a₂, -, h4⟩ := Comp.bind_eq_done h2
    obtain ⟨⟨⟩, a₃, h5, h6⟩ := Comp.bind_eq_done h4
    cases h5
    rw [Comp.state_bind] at h6
    split at h6
    · obtain ⟨-, position, hp⟩ := goTo_eq_done h6
      cases hp
    · obtain ⟨snapshot', a₄, h7, h8⟩ := Comp.bind_eq_done h6
      cases h8
      obtain ⟨-, -, s, f, hstate, hf, hpush⟩ := reading_givesOnly
        (givesOnly_handOver_answer m n.state result) (fun id v hv => by cases hv) h7
      exact ⟨n, s, _, f, hn, hstate, by rw [hk]; rfl, hf, .inr ⟨by rw [hk]; rfl, result, hpush⟩⟩
  · cases heff with
    | violated hn hk _ _ _ hs hf =>
      exact ⟨_, _, _, _, hn, hs, by rw [hk]; rfl, hf, .inl ⟨by rw [hk]; rfl, rfl⟩⟩
    | deoptimize hn hk hs hf =>
      exact ⟨_, _, _, _, hn, hs, by rw [hk]; rfl, hf, .inl ⟨by rw [hk]; rfl, rfl⟩⟩

/-- No frame that the code hands over is turned away: not the innermost one,
and none of those that wait once a result has been pushed. The routines of the
frames are those that a specialization meets. -/
def HandsOverFitting (c : Code) (targets : Registry) (id : TargetId) (t : CallTarget) : Prop :=
  ∀ {σ : Type} (host : Host σ) (bound : ℕ) (arguments : List Value) (world world' : σ) (reason :
    DeoptReason)
    (snapshot : Snapshot),
      c.run host bound arguments world = .done (.deoptimized reason snapshot) world' →
    (∃ u, Involves targets id t snapshot.innermost.target u ∧
        Accepts u.routine snapshot.innermost) ∧
    ∀ f ∈ snapshot.callers, ∃ u, Involves targets id t f.target u ∧
      ∀ v, Accepts u.routine (f.push v)

/-- The code of a graph whose frame states are as they should be. -/
theorem handsOverFitting_of_framed {targets : Registry} {id : TargetId} {t : CallTarget}
    {plan : Plan}
    (hg : ∀ m n, c.graph.node? m = some n → c.graph.Framed ⟨targets, id, t.routine, plan⟩ n) :
    c.HandsOverFitting targets id t := by
  intro σ host bound arguments world world' reason snapshot hrun
  obtain ⟨m, hgives⟩ := givesUpAt_of_run hrun
  obtain ⟨n, s, ρ, f, hn, hs, hk, hf, hinner⟩ := hgives.frames
  obtain ⟨htakes, hwait⟩ := takes_of_framesAt hg hf
  constructor
  · obtain ⟨u, hu, hbefore, hafter⟩ := htakes f List.mem_cons_self
    have hframed := hg m n hn
    have hshape : ∃ ns shape, c.graph.node? s = some ns ∧ ns.kind = .frameState shape ∧
        (shape.mode = .afterCall ↔ n.kind.isInvoke) := by
      unfold Graph.Framed at hframed
      revert hframed hk
      cases n.kind <;> intro hk hframed <;>
        simp only [NodeKind.canDeoptimize, Bool.false_eq_true] at hk
      all_goals
        obtain ⟨s', ns, shape, h1, h2, h3, h4⟩ := hframed
        obtain rfl := Option.some.inj (hs.symm.trans h1)
        exact ⟨ns, shape, h2, h3, by simp [h4, NodeKind.isInvoke]⟩
    obtain ⟨ns, shape, hns, hks, hiff⟩ := hshape
    have hfmode : f.mode = shape.mode := hf.mode_eq hns hks
    rcases hinner with ⟨hno, heq⟩ | ⟨hyes, v, heq⟩
    · rw [heq]
      exact ⟨u, hu, hbefore fun h => by rw [hfmode, hiff, hno] at h; cases h⟩
    · rw [heq]
      exact ⟨u, hu, hafter (hfmode.trans (hiff.2 hyes)) v⟩
  · intro f' hf'
    obtain ⟨u, hu, -, hafter⟩ := htakes f' (List.mem_cons_of_mem _ hf')
    exact ⟨u, hu, hafter (hwait f' hf')⟩

end Code

namespace Engine

open Specialize

variable {targets : Registry} {id : TargetId} {t : CallTarget} {plan : Plan} {g : Graph}

/-- The code of the optimized graph behaves like that of the graph as it was
made. -/
theorem optimized_behaveAlike (hg : specialize targets id t plan = .ok g) (cap : ℕ) :
    ∃ g' summary, Optimize.optimize cap g = .ok (g', summary) ∧
      Code.ofGraph id g' = .ok ⟨id, g', g'.flow⟩ ∧
      Code.BehaveAlike ⟨id, g, g.flow⟩ ⟨id, g', g'.flow⟩ := by
  have hf := formed_of_specialize hg
  have hsafe := safe_of_specialize hg
  obtain ⟨g', summary, ho, hrw, hclean⟩ := Optimize.optimize_rewrites cap hf
  have hf' := Graph.Rewrites.formed hrw hf
  refine ⟨g', summary, ho, Code.ofGraph_of_verify id (Graph.verify_of_formed hf' hclean), ?_⟩
  exact Code.behaveAlike_of_runsAlike hf.runnable hf'.runnable hsafe fun arguments =>
    Code.runsAlike_of_rewrites hrw hf (hsafe arguments)

/-- Frame states have the shape that resumption consumes. In the graph of a
target under any plan, every frame state is the root's and ends its chain, or
it is that of a routine inlined at the call behind which its caller waits; its
node is one of the routine's, a call if it waits behind one, its local slots
are the routine's, and its stack is as large as the path to the node asks for.
After any number of optimizer rounds, no frame that the code hands over is
turned away when it is resumed. -/
theorem specialize_frames_fit (hg : specialize targets id t plan = .ok g) :
    (∀ m n shape, g.node? m = some n → n.kind = .frameState shape →
      g.Chained ⟨targets, id, t.routine, plan⟩ shape n.state) ∧
    ∀ cap, ∃ g' summary c, Optimize.optimize cap g = .ok (g', summary) ∧
      Code.ofGraph id g' = .ok c ∧ c.HandsOverFitting targets id t := by
  have hframed := framed_of_specialize hg
  refine ⟨fun m n shape hn hk => ?_, fun cap => ?_⟩
  · have hframe := hframed m n hn
    rw [Graph.Framed, hk] at hframe
    exact hframe.2 ((formed_of_specialize hg).frames m n shape hn hk)
  · obtain ⟨g', summary, ho, hcode, halike⟩ := optimized_behaveAlike hg cap
    refine ⟨g', summary, _, ho, hcode, ?_⟩
    intro σ host bound arguments world world' reason snapshot hrun
    obtain ⟨bound', hrun'⟩ := (halike.ends host arguments world _ (by simp)).2 ⟨bound, hrun⟩
    exact Code.handsOverFitting_of_framed hframed host bound' arguments world world' reason
      snapshot hrun'

/-- A loop inlined into both calls of a routine, one of them the argument of
the other, and ten rounds. -/
theorem specialize_frames_fit_countdownTwice :
    ∃ (plan : Plan) (g : Graph), plan.inlinedCount = 2 ∧
      specialize #[countdown, countdownTwice] 1 countdownTwice plan = .ok g ∧
      (∀ m n shape, g.node? m = some n → n.kind = .frameState shape →
        g.Chained ⟨#[countdown, countdownTwice], 1, countdownTwice.routine, plan⟩ shape n.state) ∧
      ∃ g' summary c, Optimize.optimize 10 g = .ok (g', summary) ∧ Code.ofGraph 1 g' = .ok c ∧
        c.HandsOverFitting #[countdown, countdownTwice] 1 countdownTwice := by
  obtain ⟨plan, hcount, g, hg⟩ : ∃ plan : Plan, plan.inlinedCount = 2 ∧
      ∃ g, specialize #[countdown, countdownTwice] 1 countdownTwice plan = .ok g := by
    refine ⟨_, ?_, specialize_succeeds (.inr ⟨#[countdown, countdownTwice], ⟨fun _ _ => .inline⟩,
      100, 3, rfl, fun _ _ h => h⟩) fitsWords_countdownTwice⟩
    decide +kernel
  obtain ⟨hframes, hover⟩ := specialize_frames_fit hg
  exact ⟨plan, g, hcount, hg, hframes, hover 10⟩

end Engine

end TieredEngine

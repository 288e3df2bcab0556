import TieredEngine.Proofs.Graph.Wellformed
/-!
# Chains of frame states

`FramesFrom` says which frames the state edges lead through, with no bound on
how many there are. A walk that may take as many frames as the arena has
positions finds the end of every chain that ends, because such a chain meets
no frame state twice, and no other walk finds one. So the check of the frame
states is exact: it accepts a graph if and only if whatever can hand over
starts such a chain, and then the frames of the chain are handed over, each
with its own values: `verifyFrameStates_exact`.
-/

namespace TieredEngine

/-- The frame is one of this shape: it picks up at the point that the shape
names, and the values are its arguments, its local slots and its stack, in
this order and as many of each as the shape has. -/
structure SuspendedFrame.Carries (f : SuspendedFrame) (shape : FrameShape) (values : List Value) :
    Prop where
  target : f.target = shape.target
  node : f.node = shape.node
  mode : f.mode = shape.mode
  arguments : f.arguments.length = shape.arguments.toNat
  locals : f.locals.length = shape.locals.toNat
  stack : f.stack.length = shape.stack.toNat
  values : f.arguments ++ f.locals ++ f.stack = values

theorem FrameShape.Counts.carries_fill {shape : FrameShape} {values : List Value}
    (h : shape.Counts values.length) : (shape.fill values).Carries shape values where
  target := rfl
  node := rfl
  mode := rfl
  arguments := h.length_arguments
  locals := h.length_locals
  stack := h.length_stack
  values := h.append_fill

namespace Graph

/-- The state edge leads through these frames: each of them belongs to a frame
state that has as many inputs as the frame has values, and the state edge of
the last one leads nowhere. -/
inductive FramesFrom (g : Graph) : Option NodeId → List (FrameShape × List NodeId) → Prop
  | done : g.FramesFrom none []
  | frame {s n shape frames} : g.node? s = some n → n.kind = .frameState shape →
      n.inputs.length = shape.valueCount →
      g.FramesFrom n.state frames → g.FramesFrom (some s) ((shape, n.inputs) :: frames)

variable {g : Graph} {s : NodeId} {frames : List (FrameShape × List NodeId)}

/-! ## Following a chain -/

theorem FramesFrom.exists_cons (h : g.FramesFrom (some s) frames) :
    ∃ f callers, frames = f :: callers := by
  cases h with
  | frame => exact ⟨_, _, rfl⟩

/-- The frames are determined by the edge. -/
theorem FramesFrom.unique {state : Option NodeId} {frames' : List (FrameShape × List NodeId)}
    (h : g.FramesFrom state frames) (h' : g.FramesFrom state frames') : frames = frames' := by
  induction h generalizing frames' with
  | done =>
    cases h'
    rfl
  | frame hn hk _ _ ih =>
    cases h' with
    | frame hn' hk' _ hrest =>
      obtain rfl := Option.some.inj (hn.symm.trans hn')
      obtain rfl := NodeKind.frameState.inj (hk.symm.trans hk')
      rw [ih hrest]

/-- Each frame has a value for each of its inputs. -/
theorem FramesFrom.counts {state : Option NodeId} (hfits : g.FramesFit)
    (h : g.FramesFrom state frames) : ∀ f ∈ frames, f.1.Counts f.2.length := by
  induction h with
  | done => simp
  | @frame s n shape frames hn hk hl _ ih =>
    exact List.forall_mem_cons.2 ⟨hl ▸ (hfits s n shape hn hk).counts, ih⟩

theorem FramesFrom.frameChain {state : Option NodeId} (h : g.FramesFrom state frames) :
    ∀ s, state = some s → g.FrameChain s frames.length := by
  induction h with
  | done => exact fun _ h => by cases h
  | @frame s n shape frames hn hk hl hrest ih =>
    rintro _ ⟨⟩
    cases hs : n.state with
    | none =>
      rw [hs] at hrest
      cases hrest
      exact .last hn hk hl hs
    | some outer => exact .more hn hk hl hs (ih outer hs)

/-- A chain that ends meets no frame state twice, so it has no more frames
than the arena has positions. -/
theorem FramesFrom.length_le (h : g.FramesFrom (some s) frames) : frames.length ≤ g.nodes.size :=
  (h.frameChain s rfl).le_size

/-- A walk that may take all the frames of a chain finds them and the end. -/
theorem FramesFrom.followStates_eq {state : Option NodeId} (h : g.FramesFrom state frames) :
    ∀ s, state = some s → ∀ k, frames.length ≤ k → g.followStates k s = ⟨frames, .complete⟩ := by
  induction h with
  | done => exact fun _ h => by cases h
  | @frame s n shape frames hn hk hl hrest ih =>
    rintro _ ⟨⟩ k hlen
    obtain ⟨k, rfl⟩ : ∃ j, k = j + 1 := Nat.exists_eq_add_of_le' (Nat.le_of_add_left_le hlen)
    obtain ⟨kind, inputs, control, state⟩ := n
    dsimp only at hk hl hrest ih ⊢
    subst hk
    simp only [followStates, hn, if_pos hl]
    cases state with
    | none =>
      cases hrest
      rfl
    | some outer =>
      dsimp only
      rw [ih outer rfl k (Nat.le_of_succ_le_succ hlen)]

/-- A walk finds an end only where there is one. -/
theorem framesFrom_of_followStates (k : ℕ) : ∀ {s}, (g.followStates k s).ending = .complete →
    g.FramesFrom (some s) (g.followStates k s).frames := by
  induction k with
  | zero =>
    intro s h
    cases h
  | succ k ih =>
    intro s h
    rw [followStates] at h ⊢
    split at h
    · rename_i shape inputs control outer hn
      split at h
      · rename_i hl
        dsimp only
        rw [if_pos hl]
        cases outer with
        | none => exact .frame hn rfl hl .done
        | some outer => exact .frame hn rfl hl (ih h)
      · cases h
    · cases h

theorem ending_stateChain_iff :
    (g.stateChain s).ending = .complete ↔ ∃ frames, g.FramesFrom (some s) frames := by
  constructor
  · intro h
    exact ⟨_, framesFrom_of_followStates _ h⟩
  · rintro ⟨frames, h⟩
    rw [stateChain, h.followStates_eq s rfl _ h.length_le]

/-! ## Reading a chain -/

section

variable {m : Type → Type} [Monad m] [LawfulMonad m]

theorem readFrames_pure (value : NodeId → Value) (overrun : m SuspendedFrame)
    (hcounts : ∀ f ∈ frames, f.1.Counts f.2.length) :
    readFrames (fun x => (pure (value x) : m Value)) overrun frames =
      pure (frames.map fun f => f.1.fill (f.2.map value)) := by
  induction frames with
  | nil => rfl
  | cons f frames ih =>
    obtain ⟨shape, inputs⟩ := f
    obtain ⟨hf, hrest⟩ := List.forall_mem_cons.1 hcounts
    have hsplits : shape.splits (inputs.map value).length := by
      rw [List.length_map]
      exact hf.splits
    rw [readFrames, List.mapM_pure, pure_bind, takeApart, if_pos hsplits, pure_bind, ih hrest,
      pure_bind, List.map_cons]

/-- Where every value is known, the snapshot of a chain is made of its frames,
and nothing is reported. -/
theorem FramesFrom.materialize_eq {f : FrameShape × List NodeId} (hfits : g.FramesFit)
    (h : g.FramesFrom (some s) (f :: frames)) (value : NodeId → Value) (overrun : m SuspendedFrame)
    (report : ChainEnd → m Snapshot) {k : ℕ} (hk : (f :: frames).length ≤ k) :
    materialize (fun x => pure (value x)) overrun report (g.followStates k s) =
      pure ⟨f.1.fill (f.2.map value), frames.map fun f => f.1.fill (f.2.map value)⟩ := by
  rw [h.followStates_eq s rfl k hk, materialize, readFrames_pure value overrun (h.counts hfits),
    pure_bind]
  rfl

end

/-- The frames that are made carry the values of the chain's inputs. -/
theorem FramesFrom.carries {state : Option NodeId} (hfits : g.FramesFit)
    (h : g.FramesFrom state frames) (value : NodeId → Value) :
    List.Forall₂ (fun f (frame : SuspendedFrame) => frame.Carries f.1 (f.2.map value)) frames
      (frames.map fun f => f.1.fill (f.2.map value)) := by
  rw [List.forall₂_map_right_iff, List.forall₂_same]
  intro f hf
  have hcounts : f.1.Counts (f.2.map value).length := by
    rw [List.length_map]
    exact h.counts hfits f hf
  exact hcounts.carries_fill

/-! ## The check -/

/-- The check of the frame states accepts a graph exactly if the state edges
of every node that can hand over lead through frame states with the right
number of inputs, through one at least, and end. Then, unless the counts of a
frame state overflow in sum, and whatever values the nodes have, the snapshot
of such a node is made, also by a walk that may take any larger number of
frames: it has as many frames as the chain, and each of them, from the
innermost on, is at the point of its frame state and carries the values of the
frame state's inputs. -/
theorem verifyFrameStates_exact (g : Graph) :
    (g.verifyFrameStates = .ok () ↔ ∀ m n, g.node? m = some n → n.kind.canDeoptimize →
      ∃ frames, frames ≠ [] ∧ g.FramesFrom n.state frames) ∧
    (g.FramesFit → g.verifyFrameStates = .ok () →
      ∀ m n, g.node? m = some n → n.kind.canDeoptimize →
      ∃ s frames, n.state = some s ∧ g.FramesFrom (some s) frames ∧
        ∀ value : NodeId → Value, ∃ snapshot : Snapshot,
        g.materialize? s (fun x => some (value x)) = .ok (some snapshot) ∧
        (∀ k, frames.length ≤ k → materialize (fun x => some (value x)) none (fun _ => none)
          (g.followStates k s) = some snapshot) ∧
        snapshot.depth = frames.length ∧
        List.Forall₂ (fun f frame => frame.Carries f.1 (f.2.map value)) frames
          (snapshot.innermost :: snapshot.callers)) := by
  simp only [verifyFrameStates_eq_ok_iff, ending_stateChain_iff]
  refine ⟨forall₄_congr fun m n _ _ => ⟨?_, ?_⟩, fun hfits h m n hn hk => ?_⟩
  · rintro ⟨s, hs, frames, hframes⟩
    obtain ⟨f, callers, rfl⟩ := hframes.exists_cons
    exact ⟨_, by simp, hs ▸ hframes⟩
  · rintro ⟨frames, hne, hframes⟩
    cases hs : n.state with
    | none =>
      rw [hs] at hframes
      cases hframes
      exact absurd rfl hne
    | some s => exact ⟨s, rfl, frames, hs ▸ hframes⟩
  · obtain ⟨s, hs, frames, hframes⟩ := h m n hn hk
    refine ⟨s, frames, hs, hframes, fun value => ?_⟩
    have hcarries := hframes.carries hfits value
    have hlen := hframes.length_le
    obtain ⟨f, callers, rfl⟩ := hframes.exists_cons
    have hmade := hframes.materialize_eq (m := OptionT (Except InternalFault)) hfits value
      (.mk (.error .frameOverrun)) (fun _ => .mk (.ok none)) hlen
    refine ⟨_, hmade, fun k hk => hframes.materialize_eq hfits value none _ hk, ?_, hcarries⟩
    simp [Snapshot.depth]

/-- A guard in an inlined routine: the frame of the routine, with an argument
and a local slot, and behind it the frame of the caller, with an argument and
a value on its stack. -/
def guardedInline : Graph where
  name := "guarded"
  nodes := #[some { kind := .start }, some { kind := .parameter 0 },
    some { kind := .constant .null },
    some { kind := .frameState ⟨0, 4, .afterCall, 1, 0, 1⟩, inputs := [1, 2] },
    some { kind := .frameState ⟨7, 1, .beforeNode, 1, 1, 0⟩, inputs := [2, 1], state := some 3 },
    some {
      kind := .guard (.type .int) .typeGuardFailure
      inputs := [1]
      control := [0]
      state := some 4 },
    some { kind := .ret, inputs := [1], control := [5] }]
  shared := []

/-- The guard hands over both frames. -/
theorem verifyFrameStates_guardedInline : guardedInline.verifyFrameStates = .ok () ∧
    ∀ value : NodeId → Value, ∃ snapshot : Snapshot,
      guardedInline.materialize? 4 (fun x => some (value x)) = .ok (some snapshot) ∧
        snapshot.depth = 2 ∧
      List.Forall₂ (fun f frame => frame.Carries f.1 (f.2.map value))
        [(⟨7, 1, .beforeNode, 1, 1, 0⟩, [2, 1]), (⟨0, 4, .afterCall, 1, 0, 1⟩, [1, 2])]
        (snapshot.innermost :: snapshot.callers) := by
  have hok : guardedInline.verifyFrameStates = .ok () := rfl
  have hfits : guardedInline.FramesFit := by decide
  obtain ⟨s, frames, hs, hframes, hall⟩ :=
    (verifyFrameStates_exact guardedInline).2 hfits hok 5 _ rfl rfl
  cases hs
  have hboth : guardedInline.FramesFrom (some 4) _ := .frame rfl rfl rfl (.frame rfl rfl rfl .done)
  refine ⟨hok, fun value => ?_⟩
  obtain ⟨snapshot, hmade, -, hdepth, hcarries⟩ := hall value
  obtain rfl := hframes.unique hboth
  exact ⟨snapshot, hmade, hdepth, hcarries⟩

end Graph

end TieredEngine

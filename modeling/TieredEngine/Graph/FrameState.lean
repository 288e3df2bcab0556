import TieredEngine.Graph.Basic
/-!
# Chains of frame states

The state edge of a node that can hand over starts a chain of frame states,
one per frame, innermost first. `stateChain` follows it; `materialize` turns a
chain into a snapshot once the values of its inputs are known. Values are
asked for frame by frame, so an unavailable value of an inner frame is noticed
before a broken outer frame.
-/

namespace TieredEngine

/-- How a chain of state edges ends. -/
inductive ChainEnd where
  /-- The last frame has no caller. -/
  | complete
  /-- An edge leads to something that is no frame state with the right number
  of inputs. -/
  | broken
  /-- The edges run in a circle. -/
  | endless
deriving DecidableEq

/-- A followed chain: its good frames with their inputs, innermost first, and
how it ends. -/
structure StateChain where
  frames : List (FrameShape × List NodeId)
  ending : ChainEnd

namespace Graph

/-- Follow state edges for at most `fuel` frames. -/
def followStates (g : Graph) : (fuel : Nat) → (state : NodeId) → StateChain
  | 0, _ => ⟨[], .endless⟩
  | fuel + 1, state =>
    match g.node? state with
    | some { kind := .frameState shape, inputs, state := outer, .. } =>
      if inputs.length = shape.valueCount then
        match outer with
        | none => ⟨[(shape, inputs)], .complete⟩
        | some outer =>
          let rest := g.followStates fuel outer
          { rest with frames := (shape, inputs) :: rest.frames }
      else ⟨[], .broken⟩
    | _ => ⟨[], .broken⟩

/-- The chain that starts at a state edge. A chain with more frames than the
arena has positions meets some frame twice, so it never ends. -/
def stateChain (g : Graph) (state : NodeId) : StateChain := g.followStates g.nodes.size state

/-- Take the values of a frame apart; `overrun` if the counts do not fit
them. -/
def takeApart {m : Type → Type} [Monad m] (overrun : m SuspendedFrame) (shape : FrameShape)
    (values : List Value) : m SuspendedFrame :=
  if shape.splits values.length then pure (shape.fill values) else overrun

/-- Read the values of a chain's frames one after the other. -/
def readFrames {m : Type → Type} [Monad m] (valueOf : NodeId → m Value)
    (overrun : m SuspendedFrame) : List (FrameShape × List NodeId) → m (List SuspendedFrame)
  | [] => pure []
  | (shape, inputs) :: frames => do
    let frame ← takeApart overrun shape (← inputs.mapM valueOf)
    let rest ← readFrames valueOf overrun frames
    return frame :: rest

/-- The snapshot of a chain: all its values are read, then a chain that does
not end well is reported. -/
def materialize {m : Type → Type} [Monad m] (valueOf : NodeId → m Value)
    (overrun : m SuspendedFrame) (report : ChainEnd → m Snapshot) (chain : StateChain) :
    m Snapshot := do
  let frames ← readFrames valueOf overrun chain.frames
  match chain.ending, frames with
  | .complete, innermost :: callers => pure ⟨innermost, callers⟩
  | ending, _ => report ending

/-- The snapshot of a state when values may be unavailable. -/
def materialize? (g : Graph) (state : NodeId) (valueOf : NodeId → Option Value) :
    Except InternalFault (Option Snapshot) :=
  materialize (m := OptionT (Except InternalFault)) (fun id => .mk (.ok (valueOf id)))
    (.mk (.error .frameOverrun)) (fun _ => .mk (.ok none)) (g.stateChain state)

end Graph

end TieredEngine

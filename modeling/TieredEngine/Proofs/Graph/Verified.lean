import TieredEngine.Graph.Verify
import TieredEngine.Proofs.Graph.Shapes
import TieredEngine.Proofs.Graph.Views
/-!
# What verification promises

`Verified` says what `verify` checks: one start node, edges that lead to
nodes, the number of edges that each kind asks for, control that comes from
fixed nodes and goes on as the kinds ask for. The check accepts exactly these
graphs: `verify_eq_ok_iff`.
-/

namespace TieredEngine

/-- The node has as many inputs and control edges as its kind asks for; the
number of a phi's inputs depends on its merge, that of a frame state's on its
counts. -/
def Node.Arity (n : Node) : Prop :=
  match n.kind with
  | .start | .parameter _ | .constant _ => n.inputs.length = 0 ∧ n.control.length = 0
  | .ret | .branch | .guard .. => n.inputs.length = 1 ∧ n.control.length = 1
  | .onTrue | .onFalse | .deoptimize _ => n.inputs.length = 0 ∧ n.control.length = 1
  | .merge | .loopBegin => n.inputs.length = 0 ∧ 1 ≤ n.control.length
  | .invoke .. | .phi => n.control.length = 1
  | .binary _ => n.inputs.length = 2 ∧ n.control.length = 0
  | .unary _ => n.inputs.length = 1 ∧ n.control.length = 0
  | .frameState _ => n.control.length = 0

/-- Whether the node is a side of a branch. -/
def NodeKind.isSide : NodeKind → Bool
  | .onTrue | .onFalse => true
  | _ => false

/-- Whether the counts of a frame state, if the node is one, do not overflow
in sum. -/
def NodeKind.fits : NodeKind → Bool
  | .frameState shape => decide shape.Fits
  | _ => true

theorem NodeKind.isFixed_of_isMerge {k : NodeKind} (h : k.isMerge) : k.isFixed := by
  cases k <;> simp_all [NodeKind.isMerge, NodeKind.isFixed]

theorem NodeKind.isFixed_of_isSide {k : NodeKind} (h : k.isSide) : k.isFixed := by
  cases k <;> simp_all [NodeKind.isSide, NodeKind.isFixed]

/-- If the node is a frame state, its counts are words for numbers that its
inputs add up to. -/
def Node.Narrowed (n : Node) : Prop :=
  ∀ shape, n.kind = .frameState shape → shape.NarrowedFrom n.inputs.length

/-- A node that is no frame state has nothing to count. -/
theorem Node.narrowed_of_ne {n : Node} (h : n.kind.isFrameState = false) : n.Narrowed := by
  intro shape hk
  simp [hk, NodeKind.isFrameState] at h

theorem Node.narrowed_of_isFixed {n : Node} (h : n.kind.isFixed) : n.Narrowed := by
  refine narrowed_of_ne ?_
  revert h
  cases n.kind <;> simp [NodeKind.isFixed, NodeKind.isFrameState]

namespace Graph

/-- No edge leads to a removed node. -/
def Clean (g : Graph) : Prop := ∀ m n, g.node? m = some n → ∀ x ∈ n.edges, g.contains x

/-- Every frame state counts its inputs, sort by sort, and no sum of the
counts overflows. -/
def FramesCounted (g : Graph) : Prop :=
  ∀ m n shape, g.node? m = some n → n.kind = .frameState shape → shape.Counts n.inputs.length

/-- The frame states of the second graph are ones of the first, with as many
inputs. -/
def KeepsFrames (g g' : Graph) : Prop :=
  ∀ x n', g'.node? x = some n' → n'.kind.isFrameState →
    ∃ y n, g.node? y = some n ∧ n'.kind = n.kind ∧ n'.inputs.length = n.inputs.length

/-- The counts of no frame state overflow in sum. -/
def FramesFit (g : Graph) : Prop :=
  ∀ m n shape, g.node? m = some n → n.kind = .frameState shape → shape.Fits

/-- What the check of a graph's shape looks at. -/
structure Verified (g : Graph) : Prop where
  start : g.kind? Graph.start = some .start
  only : ∀ m n, g.node? m = some n → n.kind = .start → m = Graph.start
  clean : g.Clean
  arity : ∀ m n, g.node? m = some n → n.Arity
  frames : ∀ m n shape, g.node? m = some n → n.kind = .frameState shape →
    n.inputs.length = shape.valueCount
  sides : ∀ m n q, g.node? m = some n → n.kind.isSide → q ∈ n.control → g.kind? q = some .branch
  /-- A phi belongs to a merge and has an input for each of its edges. -/
  phis : ∀ x n m, g.node? x = some n → n.kind = .phi → m ∈ n.control →
    ∃ nm, g.node? m = some nm ∧ nm.kind.isMerge ∧ n.inputs.length = nm.control.length
  behind : ∀ m n q, g.node? m = some n → n.kind.isFixed → q ∈ n.control →
    ∃ k, g.kind? q = some k ∧ k.isFixed
  successors : ∀ m n, g.node? m = some n → n.kind.isFixed →
    (g.successors m).length = successorCount n.kind

variable {g g' : Graph} {id m : NodeId} {n : Node}

/-! ## Frame states -/

theorem framesFit_iff : g.FramesFit ↔ ∀ e ∈ g.entries, e.2.kind.fits := by
  constructor
  · intro h e he
    cases hk : e.2.kind with
    | frameState shape => exact decide_eq_true (h e.1 e.2 shape (mem_entries.1 he) hk)
    | _ => rfl
  · intro h m n shape hn hk
    have hfits := h (m, n) (mem_entries.2 hn)
    rw [hk] at hfits
    exact of_decide_eq_true hfits

instance : Decidable g.FramesFit := decidable_of_iff _ framesFit_iff.symm

/-- What holds of the counts and the number of inputs of every frame state
goes on to hold. -/
theorem KeepsFrames.transfer {P : FrameShape → ℕ → Prop} (hkept : g.KeepsFrames g')
    (h : ∀ m n shape, g.node? m = some n → n.kind = .frameState shape → P shape n.inputs.length) :
    ∀ m n shape, g'.node? m = some n → n.kind = .frameState shape → P shape n.inputs.length := by
  intro x n' shape hn' hk
  obtain ⟨y, n, hn, hkind, hlen⟩ := hkept x n' hn' (by rw [hk]; rfl)
  rw [hlen]
  exact h y n shape hn (hkind.symm.trans hk)

theorem KeepsFrames.trans {g₁ g₂ g₃ : Graph} (h : g₁.KeepsFrames g₂) (h' : g₂.KeepsFrames g₃) :
    g₁.KeepsFrames g₃ := by
  intro x n₃ hn₃ hs
  obtain ⟨y, n₂, hn₂, hkind, hlen⟩ := h' x n₃ hn₃ hs
  obtain ⟨z, n₁, hn₁, hkind', hlen'⟩ := h y n₂ hn₂ (hkind ▸ hs)
  exact ⟨z, n₁, hn₁, hkind.trans hkind', hlen.trans hlen'⟩

theorem FramesCounted.kept (h : g.FramesCounted) (hkept : g.KeepsFrames g') : g'.FramesCounted :=
  hkept.transfer h

theorem Verified.framesCounted (h : g.Verified) (hfits : g.FramesFit) : g.FramesCounted := by
  intro m n shape hn hk
  rw [h.frames m n shape hn hk]
  exact (hfits m n shape hn hk).counts

/-- Counts that were narrowed pass the check only if nothing was lost. -/
theorem Verified.framesCounted_of_narrowed (h : g.Verified)
    (hnarrowed : ∀ m n, g.node? m = some n → n.Narrowed) : g.FramesCounted := by
  intro m n shape hn hk
  refine (hnarrowed m n hn shape hk).counts ?_
  rw [h.frames m n shape hn hk]
  exact UInt32.toNat_lt _

/-! ## Checks one after the other -/

theorem require_eq_ok_iff {e : GraphError} {ok : Bool} : require e ok = .ok () ↔ ok = true := by
  unfold require
  split <;> simp_all

theorem require_ok {e : GraphError} {ok : Bool} (h : ok = true) :
    require e ok = .ok () := require_eq_ok_iff.2 h

theorem bind_eq_ok {ε α β : Type} {x : Except ε α} {f : α → Except ε β} {b : β}
    (h : (x >>= f) = .ok b) : ∃ a, x = .ok a ∧ f a = .ok b := by
  cases x with
  | error e => cases h
  | ok a => exact ⟨a, rfl, h⟩

theorem bind_eq_ok_iff {x : Except GraphError Unit} {f : Unit → Except GraphError Unit} :
    (x >>= f) = .ok () ↔ x = .ok () ∧ f () = .ok () := by
  constructor
  · intro h
    obtain ⟨_, hx, hf⟩ := bind_eq_ok h
    exact ⟨hx, hf⟩
  · rintro ⟨rfl, hf⟩
    exact hf

theorem forM_eq_ok_iff {α : Type} {f : α → Except GraphError Unit} {xs : List α} :
    xs.forM f = .ok () ↔ ∀ x ∈ xs, f x = .ok () := by
  induction xs with
  | nil => exact ⟨fun _ => by simp, fun _ => rfl⟩
  | cons x xs ih =>
    rw [List.forM_eq_forM, List.forM_cons, bind_eq_ok_iff, ← List.forM_eq_forM, ih,
      List.forall_mem_cons]

theorem forM_ok {α : Type} {f : α → Except GraphError Unit} {xs : List α}
    (h : ∀ x ∈ xs, f x = .ok ()) :
    xs.forM f = .ok () := forM_eq_ok_iff.2 h

theorem exactly_inputs_eq_ok_iff {k : ℕ} :
    exactly id n .input k = .ok () ↔ n.inputs.length = k := by
  rw [exactly, require_eq_ok_iff, decide_eq_true_eq]

theorem exactly_control_eq_ok_iff {k : ℕ} :
    exactly id n .control k = .ok () ↔ n.control.length = k := by
  rw [exactly, require_eq_ok_iff, decide_eq_true_eq]

/-! ## One node -/

/-- The counts are right if the node's own ones are, a frame state has the
inputs it counts, a side comes from a branch and a phi fits its merge. -/
theorem verifyCounts_eq_ok_iff : g.verifyCounts id n = .ok () ↔ n.Arity ∧
    (∀ shape, n.kind = .frameState shape → n.inputs.length = shape.valueCount) ∧
    (n.kind.isSide → ∀ q ∈ n.control, g.kind? q = some .branch) ∧
    (n.kind = .phi → ∀ m ∈ n.control, ∃ nm, g.node? m = some nm ∧ nm.kind.isMerge ∧
        n.inputs.length = nm.control.length) := by
  unfold verifyCounts Node.Arity
  cases n.kind with
  | phi =>
    simp only [bind_eq_ok_iff, forM_eq_ok_iff, exactly_control_eq_ok_iff, NodeKind.isSide,
      Bool.false_eq_true, false_implies, true_and, forall_const, reduceCtorEq, implies_true]
    refine and_congr_right fun _ => forall₂_congr fun m _ => ?_
    cases hm : g.node? m with
    | none => simp
    | some nm =>
      by_cases hk : nm.kind.isMerge
      · simp [hk, exactly_inputs_eq_ok_iff]
      · simp [hk]
  | frameState shape =>
    simp [bind_eq_ok_iff, exactly_inputs_eq_ok_iff, exactly_control_eq_ok_iff,
      NodeKind.isSide, and_comm]
  | _ =>
    simp only [bind_eq_ok_iff, forM_eq_ok_iff, require_eq_ok_iff, exactly_inputs_eq_ok_iff,
      exactly_control_eq_ok_iff, NodeKind.isSide, decide_eq_true_eq, and_assoc, reduceCtorEq,
      false_implies, forall_const, Bool.false_eq_true, and_true, true_and, implies_true]

theorem verifyNode_eq_ok_iff :
    g.verifyNode g.flow id n = .ok () ↔ (n.kind = .start → id = Graph.start) ∧
    (∀ x ∈ n.edges, g.contains x) ∧ g.verifyCounts id n = .ok () ∧ (n.kind.isFixed →
      (∀ q ∈ n.control, ∃ k, g.kind? q = some k ∧ k.isFixed) ∧
        (g.successors id).length = successorCount n.kind) := by
  unfold verifyNode
  rw [bind_eq_ok_iff, bind_eq_ok_iff, bind_eq_ok_iff, require_eq_ok_iff, forM_eq_ok_iff]
  refine and_congr ?_ (and_congr ?_ (and_congr Iff.rfl ?_))
  · rw [Bool.or_eq_true, decide_eq_true_eq, decide_eq_true_eq]
    exact ⟨fun h hk => h.resolve_left (not_not_intro hk),
      fun h => Decidable.or_iff_not_imp_left.2 fun hk => h (not_not.1 hk)⟩
  · exact forall₂_congr fun _ _ => require_eq_ok_iff
  · by_cases hk : n.kind.isFixed
    · rw [if_pos hk, bind_eq_ok_iff, forM_eq_ok_iff, require_eq_ok_iff]
      simp [hk, require_eq_ok_iff, Option.any_eq_true]
    · rw [if_neg hk]
      exact ⟨fun _ h => absurd h hk, fun _ => rfl⟩

/-! ## The whole graph -/

theorem verify_eq_ok_iff : g.verify = .ok () ↔ g.Verified := by
  have hnodes : g.verify = .ok () ↔ g.kind? Graph.start = some .start ∧
      ∀ m n, g.node? m = some n → g.verifyNode g.flow m n = .ok () := by
    unfold verify
    rw [bind_eq_ok_iff, require_eq_ok_iff, decide_eq_true_eq, forM_eq_ok_iff]
    exact and_congr_right fun _ =>
      ⟨fun h m n hn => h (m, n) (mem_entries.2 hn), fun h e he => h _ _ (mem_entries.1 he)⟩
  simp only [hnodes, verifyNode_eq_ok_iff, verifyCounts_eq_ok_iff]
  constructor
  · rintro ⟨hs, h⟩
    refine ⟨hs, fun m n hn => (h m n hn).1, fun m n hn => (h m n hn).2.1,
      fun m n hn => (h m n hn).2.2.1.1, fun m n shape hn => (h m n hn).2.2.1.2.1 shape,
      fun m n q hn hk => (h m n hn).2.2.1.2.2.1 hk q,
        fun x n m hn hk => (h x n hn).2.2.1.2.2.2 hk m,
      fun m n q hn hk => ((h m n hn).2.2.2 hk).1 q, fun m n hn hk => ((h m n hn).2.2.2 hk).2⟩
  · intro h
    exact ⟨h.start, fun m n hn => ⟨h.only m n hn, h.clean m n hn, ⟨h.arity m n hn, fun shape =>
      h.frames m n shape hn, fun hk q => h.sides m n q hn hk, fun hk q => h.phis m n q hn hk⟩,
      fun hk => ⟨fun q => h.behind m n q hn hk, h.successors m n hn hk⟩⟩⟩

/-- The frame states are right if whatever can hand over has a chain of them
that ends. -/
theorem verifyFrameStates_eq_ok_iff :
    g.verifyFrameStates = .ok () ↔ ∀ m n, g.node? m = some n → n.kind.canDeoptimize →
      ∃ s, n.state = some s ∧ (g.stateChain s).ending = .complete := by
  have hnode : ∀ m n, g.verifyFrames m n = .ok () ↔
      (n.kind.canDeoptimize → ∃ s, n.state = some s ∧ (g.stateChain s).ending = .complete) := by
    intro m n
    unfold verifyFrames
    by_cases hk : n.kind.canDeoptimize
    · cases hs : n.state with
      | none => simp [hk]
      | some s => simp [hk, require_eq_ok_iff]
    · simp [hk]
  unfold verifyFrameStates
  rw [forM_eq_ok_iff]
  exact ⟨fun h m n hn => (hnode m n).1 (h (m, n) (mem_entries.2 hn)),
    fun h e he => (hnode _ _).2 (h _ _ (mem_entries.1 he))⟩

/-- A verified graph starts at its start node. -/
theorem kind?_start_of_verify (h : g.verify = .ok ()) :
    g.kind? start = some .start := (verify_eq_ok_iff.1 h).start

/-- A fixed node of a verified graph has as many successors as its kind asks
for. -/
theorem length_successors_of_verify (h : g.verify = .ok ()) (hn : g.node? id = some n)
    (hk : n.kind.isFixed) :
    (g.successors id).length = successorCount n.kind := (verify_eq_ok_iff.1 h).successors id n hn hk

end Graph

end TieredEngine

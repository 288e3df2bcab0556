import Mathlib.Order.CompletePartialOrder
import TieredEngine.Proofs.Specialize.Growth
/-!
# Where the calls of a graph stand

A call in a graph stands at a place: its site, and the sites around it at
which its routine was entered, as its frame states name them. `Leaves` says
which calls a building step adds: each below one of the sites of a routine and
at a place of its own, so that what is added below different sites is at
different places (`Leaves.trans`). Most steps add no call, they are `Silent`.
-/

namespace TieredEngine

/-- Where a frame stands: the routine and the expression, and the same of
every frame around it. -/
abbrev Place := List (TargetId × ExprId)

namespace Graph

variable {g g' g'' : Graph} {x y : NodeId} {s : Option NodeId} {k l : NodeKind}
    {place place' : Place}

/-- The kind of a node and the frame that it hands over. -/
def mark (g : Graph) (x : NodeId) : Option (NodeKind × Option NodeId) :=
  (g.node? x).map fun n => (n.kind, n.state)

theorem lt_size_of_mark (h : g.mark x = some (k, s)) : x < g.nodes.size := by
  obtain ⟨n, hn, -⟩ := Option.map_eq_some_iff.1 h
  exact lt_size_of_node? hn

/-- The frames from a state edge on are at the place. -/
inductive Stands (g : Graph) : Option NodeId → Place → Prop
  | root : Stands g none []
  | frame {s shape outer place} : g.mark s = some (.frameState shape, outer) →
      Stands g outer place → Stands g (some s) ((shape.target, shape.node) :: place)

/-- The nodes of the first graph are in the second one too, with their kinds
and frames. -/
structure SameMarks (g g' : Graph) : Prop where
  size : g.nodes.size ≤ g'.nodes.size
  mark : ∀ x < g.nodes.size, g'.mark x = g.mark x

theorem SameMarks.trans (h : g.SameMarks g') (h' : g'.SameMarks g'') : g.SameMarks g'' :=
  ⟨h.size.trans h'.size, fun x hx => (h'.mark x (hx.trans_le h.size)).trans (h.mark x hx)⟩

theorem Stands.grown (h : g.Stands s place) (hg : g.SameMarks g') : g'.Stands s place := by
  induction h with
  | root => exact .root
  | frame hm _ ih => exact .frame ((hg.mark _ (lt_size_of_mark hm)).trans hm) ih

theorem Stands.unique (h : g.Stands s place) (h' : g.Stands s place') : place = place' := by
  induction h generalizing place' with
  | root =>
    cases h'
    rfl
  | frame hm _ ih =>
    cases h' with
    | frame hm' hrest =>
      obtain ⟨⟨rfl⟩, rfl⟩ := Prod.mk.inj (Option.some.inj (hm.symm.trans hm'))
      rw [ih hrest]

/-- A call of this kind stands at the place. -/
def CallAt (g : Graph) (x : NodeId) (k : NodeKind) (place : Place) : Prop :=
  k.isInvoke ∧ ∃ s, g.mark x = some (k, s) ∧ g.Stands s place

theorem CallAt.grown (h : g.CallAt x k place) (hg : g.SameMarks g') : g'.CallAt x k place := by
  obtain ⟨hk, s, hm, hs⟩ := h
  exact ⟨hk, s, (hg.mark x (lt_size_of_mark hm)).trans hm, hs.grown hg⟩

theorem CallAt.unique (h : g.CallAt x k place) (h' : g.CallAt x l place') :
    k = l ∧ place = place' := by
  obtain ⟨-, s, hm, hs⟩ := h
  obtain ⟨-, t, hm', ht⟩ := h'
  obtain ⟨rfl, rfl⟩ := Prod.mk.inj (Option.some.inj (hm.symm.trans hm'))
  exact ⟨rfl, hs.unique ht⟩

end Graph

namespace Specialize

open TieredEngine.Graph

variable {α β : Type} {g g' g'' : Graph}

/-! ## What steps leave -/

/-- The calls that the second graph has and the first has not stand below
sites of the routine `target`, which is itself entered at `up`. Each stands at
a place of its own, which is one of the places looked for. -/
structure Leaves (wanted : NodeKind → Place → Prop) (target : TargetId) (up : Place)
    (sites : Set ExprId) (g g' : Graph) :
    Prop where
  marks : g.SameMarks g'
  place : ∀ x k s, g.nodes.size ≤ x → g'.mark x = some (k, s) → k.isInvoke →
    ∃ site ∈ sites, ∃ place, g'.CallAt x k place ∧ wanted k place ∧ (target, site) :: up <:+ place
  apart : ∀ x y k l place, g.nodes.size ≤ x → g.nodes.size ≤ y → g'.CallAt x k place →
    g'.CallAt y l place → x = y

section

variable {wanted : NodeKind → Place → Prop} {target : TargetId} {up : Place}
    {sites sites' : Set ExprId}

theorem Leaves.mono (h : Leaves wanted target up sites g g') (hs : sites ⊆ sites') :
    Leaves wanted target up sites' g g' where
  marks := h.marks
  place x k s hx hm hk := by
    obtain ⟨site, hsite, hplace⟩ := h.place x k s hx hm hk
    exact ⟨site, hs hsite, hplace⟩
  apart := h.apart

/-- A place is below one site of a routine only. -/
theorem site_eq_of_suffix {site site' : ExprId} {place : Place} (h : (target, site) :: up <:+ place)
    (h' : (target, site') :: up <:+ place) : site = site' := by
  have heq : (target, site) :: up = (target, site') :: up :=
    (List.suffix_of_suffix_length_le h h' (by simp)).eq_of_length (by simp)
  simpa using heq

/-- What is left below different sites is at different places. -/
theorem Leaves.trans (h : Leaves wanted target up sites g g')
    (h' : Leaves wanted target up sites' g' g'') (hd : Disjoint sites sites') :
    Leaves wanted target up (sites ∪ sites') g g'' := by
  have hold : ∀ {x k place}, g.nodes.size ≤ x → x < g'.nodes.size → g''.CallAt x k place →
      g'.CallAt x k place ∧ ∃ site ∈ sites, (target, site) :: up <:+ place := by
    rintro x k place hx hlt ⟨hk, s, hm, hs⟩
    have hm' : g'.mark x = some (k, s) := (h'.marks.mark x hlt) ▸ hm
    obtain ⟨site, hsite, place', hcall, -, hbelow⟩ := h.place x k s hx hm' hk
    obtain ⟨-, rfl⟩ := (hcall.grown h'.marks).unique ⟨hk, s, hm, hs⟩
    exact ⟨hcall, site, hsite, hbelow⟩
  have hnew : ∀ {x k place}, g'.nodes.size ≤ x → g''.CallAt x k place →
      ∃ site ∈ sites', (target, site) :: up <:+ place := by
    rintro x k place hx ⟨hk, s, hm, hs⟩
    obtain ⟨site, hsite, place', hcall, -, hbelow⟩ := h'.place x k s hx hm hk
    obtain ⟨-, rfl⟩ := hcall.unique ⟨hk, s, hm, hs⟩
    exact ⟨site, hsite, hbelow⟩
  have hcross : ∀ {x y k l place}, g.nodes.size ≤ x → x < g'.nodes.size → g'.nodes.size ≤ y →
      g''.CallAt x k place → ¬ g''.CallAt y l place := by
    intro x y k l place hx hlt hy hcx hcy
    obtain ⟨-, site, hsite, hbelow⟩ := hold hx hlt hcx
    obtain ⟨site', hsite', hbelow'⟩ := hnew hy hcy
    exact Set.disjoint_left.1 hd hsite (site_eq_of_suffix hbelow hbelow' ▸ hsite')
  refine ⟨h.marks.trans h'.marks, fun x k s hx hm hk => ?_, fun x y k l place hx hy hcx hcy => ?_⟩
  · rcases Nat.lt_or_ge x g'.nodes.size with hlt | hge
    · obtain ⟨site, hsite, place, hcall, hwanted, hbelow⟩ :=
        h.place x k s hx ((h'.marks.mark x hlt) ▸ hm) hk
      exact ⟨site, .inl hsite, place, hcall.grown h'.marks, hwanted, hbelow⟩
    · obtain ⟨site, hsite, hplace⟩ := h'.place x k s hge hm hk
      exact ⟨site, .inr hsite, hplace⟩
  · rcases Nat.lt_or_ge x g'.nodes.size with hlx | hgx <;>
      rcases Nat.lt_or_ge y g'.nodes.size with hly | hgy
    · exact h.apart x y k l place hx hy (hold hx hlx hcx).1 (hold hy hly hcy).1
    · exact absurd hcy (hcross hx hlx hgy hcx)
    · exact absurd hcx (hcross hy hly hgx hcy)
    · exact h'.apart x y k l place hgx hgy hcx hcy

/-- What is left inside a routine that was entered at a site is left below the
site. -/
theorem Leaves.outer {callee : TargetId} {site : ExprId}
    (h : Leaves wanted callee ((target, site) :: up) sites g g') :
    Leaves wanted target up {site} g g' where
  marks := h.marks
  place x k s hx hm hk := by
    obtain ⟨_, -, place, hcall, hwanted, hbelow⟩ := h.place x k s hx hm hk
    exact ⟨site, rfl, place, hcall, hwanted, (List.suffix_cons _ _).trans hbelow⟩
  apart := h.apart

end

/-! ## Silent steps -/

/-- The step adds no call. -/
structure Silent (x : Build α) : Prop where
  quiet : ∀ b r b', x.run b = .ok (r, b') → b.graph.SameMarks b'.graph ∧
    ∀ y k s, b.graph.nodes.size ≤ y → b'.graph.mark y = some (k, s) → k.isInvoke = false

theorem Silent.of_marks {x : Build α} (h : ∀ b r b', x.run b = .ok (r, b') →
      b'.graph.nodes.size = b.graph.nodes.size ∧ ∀ y, b'.graph.mark y = b.graph.mark y) :
    Silent x := by
  refine ⟨fun b r b' hrun => ?_⟩
  obtain ⟨hsize, hmark⟩ := h b r b' hrun
  refine ⟨⟨hsize.ge, fun y _ => hmark y⟩, fun y k s hy hm => ?_⟩
  rw [hmark] at hm
  exact absurd (lt_size_of_mark hm) (Nat.not_lt.2 hy)

theorem Silent.pure (a : α) : Silent (pure a : Build α) := .of_marks fun b r b' h => by
  obtain ⟨-, rfl⟩ := run_pure h
  exact ⟨rfl, fun _ => rfl⟩

theorem Silent.throw (e : CompileError) :
    Silent (throw e : Build α) := ⟨fun _ _ _ h => (run_throw h).elim⟩

theorem Silent.bind {x : Build α} {f : α → Build β} (hx : Silent x) (hf : ∀ a, Silent (f a)) :
    Silent (x >>= f) := by
  refine ⟨fun b r b' h => ?_⟩
  obtain ⟨a, b₁, h1, h2⟩ := run_bind h
  obtain ⟨hm₁, hno₁⟩ := hx.quiet b a b₁ h1
  obtain ⟨hm₂, hno₂⟩ := (hf a).quiet b₁ r b' h2
  refine ⟨hm₁.trans hm₂, fun y k s hy hm => ?_⟩
  rcases Nat.lt_or_ge y b₁.graph.nodes.size with hlt | hge
  · exact hno₁ y k s hy ((hm₂.mark y hlt) ▸ hm)
  · exact hno₂ y k s hge hm

theorem Silent.get : Silent (get : Build Building) := .of_marks fun b r b' h => by
  cases h
  exact ⟨rfl, fun _ => rfl⟩

theorem Silent.mapM {ι : Type} {f : ι → Build β} (hf : ∀ i, Silent (f i)) :
    ∀ is : List ι, Silent (is.mapM f)
  | [] => by
    rw [List.mapM_nil]
    exact .pure _
  | i :: is => by
    rw [List.mapM_cons]
    exact (hf i).bind fun _ => (Silent.mapM hf is).bind fun _ => .pure _

theorem Silent.foldlM {ι : Type} {f : α → ι → Build α} (hf : ∀ a i, Silent (f a i)) :
    ∀ (is : List ι) (a : α), Silent (is.foldlM f a)
  | [], a => .pure a
  | i :: is, a => by
    rw [List.foldlM_cons]
    exact (hf a i).bind fun a' => Silent.foldlM hf is a'

theorem silent_modifyReturns (f : List Arrival → List Arrival) :
    Silent (modify fun b => { b with returns := f b.returns } : Build Unit) :=
      .of_marks fun b r b' h => by
  cases h
  exact ⟨rfl, fun _ => rfl⟩

theorem mark_push (b : Building) (n : Node) (y : NodeId) :
    (b.push n).graph.mark y = if y = b.graph.nodes.size then some
      (n.kind, n.state) else b.graph.mark y := by
  rw [mark, Building.node?_push]
  split <;> rfl

theorem sameMarks_push (b : Building) (n : Node) : b.graph.SameMarks (b.push n).graph :=
  ⟨by simp, fun y hy => by rw [mark_push, if_neg (Nat.ne_of_lt hy)]⟩

theorem silent_addNode {n : Node} (hn : n.kind.isInvoke = false) : Silent (addNode n) := by
  refine ⟨fun b r b' h => ?_⟩
  obtain ⟨-, rfl⟩ := run_addNode h
  refine ⟨sameMarks_push b n, fun y k s hy hm => ?_⟩
  rw [mark_push] at hm
  split at hm
  · cases hm
    exact hn
  · exact absurd (lt_size_of_mark hm) (Nat.not_lt.2 hy)

theorem silent_constant (v : Value) : Silent (constant v) := by
  refine ⟨fun b r b' h => ?_⟩
  have hnew : b.graph.SameMarks (b.graph.newConstant v).1 ∧ ∀ y k s, b.graph.nodes.size ≤ y →
      (b.graph.newConstant v).1.mark y = some (k, s) → k.isInvoke = false := by
    obtain ⟨hm, hno⟩ := (silent_addNode (n := { kind := .constant v }) rfl).quiet b _ _ rfl
    exact ⟨⟨hm.size, hm.mark⟩, hno⟩
  cases h
  dsimp only [Graph.constant]
  split
  · split
    · exact (Silent.pure ()).quiet b () b rfl
    · exact hnew
  · exact hnew

theorem silent_constantAt (id : NodeId) : Silent (constantAt id) := Silent.get.bind fun _ => .pure _

theorem silent_knownType (p : Path) (id : NodeId) :
    Silent (knownType p id) := Silent.get.bind fun _ => .pure _

theorem silent_frameState (c : Context) (node : ExprId) (mode : ResumeMode) (stack : List NodeId)
    (p : Path) :
    Silent (frameState c node mode stack p) := silent_addNode rfl

theorem silent_guardWith (state value : NodeId) (check : GuardCheck) (reason : DeoptReason)
    (p : Path) :
    Silent (guardWith state value check reason p) := (silent_addNode rfl).bind fun _ => .pure _

section

variable {c : Context} {node : ExprId} {stack : List NodeId} {p : Path}

theorem silent_guardBefore (value : NodeId) (check : GuardCheck) (reason : DeoptReason) :
    Silent (guardBefore c node value check reason stack p) :=
  (silent_frameState ..).bind fun _ => silent_guardWith ..

theorem silent_giveUp : Silent (giveUp c node stack p) :=
  (silent_frameState ..).bind fun _ => (silent_addNode rfl).bind fun _ => .pure _

theorem silent_ensureType (value : NodeId) (expected : ValueType) :
    Silent (ensureType c node value expected stack p) := by
  unfold ensureType
  refine (silent_knownType p value).bind fun known => ?_
  split
  · split
    · exact .pure _
    · exact silent_giveUp.bind fun _ => .pure _
  · exact (silent_guardBefore ..).bind fun _ => .pure _

theorem silent_fold (folded : Except GuestError Value) : Silent (fold c node folded stack p) := by
  unfold fold
  split
  · exact (silent_constant _).bind fun _ => .pure _
  · exact silent_giveUp.bind fun _ => .pure _

theorem silent_emitBinary (op : BinaryOp) (lhs rhs : NodeId) :
    Silent (emitBinary c node op lhs rhs stack p) := by
  unfold emitBinary
  refine (silent_constantAt lhs).bind fun a => (silent_constantAt rhs).bind fun b => ?_
  split
  · exact silent_fold _
  · split
    · exact (silent_addNode rfl).bind fun _ => .pure _
    · refine (silent_ensureType ..).bind fun o => ?_
      split
      · refine (silent_ensureType ..).bind fun o => ?_
        split
        · exact (silent_addNode rfl).bind fun _ => .pure _
        · exact .pure _
      · exact .pure _

theorem silent_emitUnary (op : UnaryOp) (operand : NodeId) :
    Silent (emitUnary c node op operand stack p) := by
  unfold emitUnary
  refine (silent_constantAt operand).bind fun a => ?_
  split
  · exact silent_fold _
  · refine (silent_ensureType ..).bind fun o => ?_
    split
    · exact (silent_addNode rfl).bind fun _ => .pure _
    · exact .pure _

theorem silent_branching (condition : NodeId) : Silent (branching c node condition stack p) := by
  unfold branching
  refine (silent_knownType p condition).bind fun known => ?_
  split
  · exact silent_giveUp.bind fun _ => .pure _
  · refine (silent_constantAt condition).bind fun v => ?_
    split
    · exact .pure _
    · split
      · exact (silent_guardBefore ..).bind fun _ => .pure _
      · exact .pure _

end

theorem silent_joinValues (merge : NodeId) (inputs : List NodeId) :
    Silent (joinValues merge inputs) := by
  unfold joinValues
  split
  · exact silent_addNode rfl
  · split
    · exact .pure _
    · exact silent_addNode rfl

theorem silent_join (arrivals : List Arrival) : Silent (join arrivals) := by
  unfold join
  split
  · exact .pure _
  · exact .pure _
  · exact (silent_addNode rfl).bind fun _ => (silent_joinValues ..).bind fun _ =>
      (Silent.mapM (fun _ => silent_joinValues ..) _).bind fun _ => .pure _

theorem silent_split (condition : NodeId) (p : Path) : Silent (split condition p) :=
  (silent_addNode rfl).bind fun _ => (silent_addNode rfl).bind fun _ =>
    (silent_addNode rfl).bind fun _ => .pure _

theorem silent_openLoop (p : Path) : Silent (openLoop p) :=
  (silent_addNode rfl).bind fun _ =>
    (Silent.mapM (fun _ => silent_addNode rfl) _).bind fun _ => .pure _

theorem mark_modify {f : Node → Node} (hf : ∀ n, (f n).kind = n.kind ∧ (f n).state = n.state)
    (g : Graph) (id y : NodeId) :
    (g.modify id f).mark y = g.mark y := by
  rw [mark, mark, node?_modify]
  split
  · subst y
    cases g.node? id with
    | none => rfl
    | some n => simp [hf n]
  · rfl

/-- The graph of a closed loop. -/
theorem mark_closed (pairs : List (NodeId × NodeId)) : ∀ g : Graph,
    let closed :=
      pairs.foldl (fun g (phi, v) => g.modify phi fun n => { n with inputs := n.inputs ++ [v] }) g
    closed.nodes.size = g.nodes.size ∧ ∀ y, closed.mark y = g.mark y := by
  induction pairs with
  | nil => exact fun g => ⟨rfl, fun _ => rfl⟩
  | cons pair pairs ih =>
    intro g
    obtain ⟨hsize, hmark⟩ := ih (g.modify pair.1 fun n => { n with inputs := n.inputs ++ [pair.2] })
    have hone := mark_modify (f := fun n => { n with inputs := n.inputs ++ [pair.2] })
      (fun _ => ⟨rfl, rfl⟩) g pair.1
    exact ⟨hsize.trans (size_modify ..), fun y => (hmark y).trans (hone y)⟩

/-- Closing a loop changes edges of control and data only. -/
theorem silent_closeLoop (l : OpenLoop) (body : Option Arrival) : Silent (closeLoop l body) := by
  cases body with
  | none => exact .pure ()
  | some a =>
    refine .of_marks fun b r b' h => ?_
    cases h
    obtain ⟨hsize, hmark⟩ := mark_closed (l.phis.zip a.path.locals)
      (b.graph.modify l.header fun n => { n with control := n.control ++ [a.path.control] })
    have hhead := mark_modify (f := fun n => { n with control := n.control ++ [a.path.control] })
      (fun _ => ⟨rfl, rfl⟩) b.graph l.header
    exact ⟨hsize.trans (size_modify ..), fun y => (hmark y).trans (hhead y)⟩

theorem silent_recordReturn (value : NodeId) (p : Path) : Silent (recordReturn value p) := by
  unfold recordReturn
  exact (silent_modifyReturns fun returns => returns ++ [⟨value, { p with locals := [] }⟩]).bind
    fun _ => .pure _

theorem silent_finishRoutine (completed : Option Arrival) : Silent (finishRoutine completed) :=
  Silent.get.bind fun _ => (silent_modifyReturns fun _ => []).bind fun _ => silent_join _

theorem silent_guardEntry (c : Context) (r : Routine) (p : Path) : Silent (guardEntry c r p) := by
  unfold guardEntry
  split
  · exact .pure _
  · refine (silent_frameState ..).bind fun _ => Silent.foldlM (fun p t => ?_) _ _
    dsimp only
    split
    · exact silent_guardWith ..
    · exact .pure _

end Specialize

end TieredEngine

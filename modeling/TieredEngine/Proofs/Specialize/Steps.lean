import TieredEngine.Proofs.Specialize.Assembly
/-!
# Building steps keep the graph sound

`Grows` says of a building step that it succeeds, or fails with an error that
is allowed, and that it takes a sound graph with some open ends to a sound one
with others. Everything that it leaves open is dominated by the node where it
began, so what could be read there can be read everywhere behind it. Steps
compose (`Grows.bind`), and there is one lemma for every step.
-/

namespace TieredEngine

namespace Specialize

open TieredEngine.Graph

variable {α β : Type}

/-! ## Steps that give what they promise -/

/-- The step gives a result as promised; it fails only with an error that is
allowed. -/
def Yields (fails : CompileError → Prop) (b : Building) (x : Build α) (Q : α → Building → Prop) :
    Prop :=
  match x.run b with
  | .ok (a, b') => Q a b'
  | .error e => fails e

section

variable {fails : CompileError → Prop} {b : Building} {x : Build α} {Q : α → Building → Prop}

theorem Yields.of_run {a : α} {b' : Building} (h : x.run b = .ok (a, b')) (hQ : Q a b') :
    Yields fails b x Q := by
  unfold Yields
  rw [h]
  exact hQ

theorem Yields.result {a : α} {b' : Building} (h : Yields fails b x Q)
    (hrun : x.run b = .ok (a, b')) : Q a b' := by
  unfold Yields at h
  rwa [hrun] at h

theorem Yields.error {e : CompileError} (h : Yields fails b x Q) (hrun : x.run b = .error e) :
    fails e := by
  unfold Yields at h
  rwa [hrun] at h

theorem Yields.bind {f : α → Build β} {R : β → Building → Prop} (h : Yields fails b x Q)
    (hf : ∀ a b', Q a b' → Yields fails b' (f a) R) : Yields fails b (x >>= f) R := by
  unfold Yields at h ⊢
  rw [StateT.run_bind]
  cases hx : x.run b with
  | error e =>
    rw [hx] at h
    exact h
  | ok p =>
    rw [hx] at h
    exact hf p.1 p.2 h

/-- The result is one of the step. -/
theorem Yields.with_run (h : Yields fails b x Q) :
    Yields fails b x fun a b' => x.run b = .ok (a, b') ∧ Q a b' := by
  unfold Yields at h ⊢
  cases hx : x.run b with
  | error e =>
    rw [hx] at h
    exact h
  | ok p =>
    rw [hx] at h
    exact ⟨rfl, h⟩

theorem Yields.imp {R : α → Building → Prop} (h : Yields fails b x Q)
    (hR : ∀ a b', Q a b' → R a b') :
    Yields fails b x R := by
  unfold Yields at h ⊢
  cases hx : x.run b with
  | error e =>
    rw [hx] at h
    exact h
  | ok p =>
    rw [hx] at h
    exact hR _ _ h

end

/-! ## What is at hand on a path -/

/-- Control gets from `q` to the end of the path, and its local slots can be
read there. -/
structure Path.Ready (p : Path) (g : Graph) (q : NodeId) (slots : ℕ) : Prop where
  here : p.control < g.nodes.size
  dominated : g.Dominates q p.control
  locals : ∀ x ∈ p.locals, g.Available p.control x
  slots : p.locals.length = slots

/-- So does the value that arrives there. -/
structure Arrival.Ready (a : Arrival) (g : Graph) (q : NodeId) (slots : ℕ) :
    Prop extends a.path.Ready g q slots where
  value : g.Available a.path.control a.value

/-- Everything that a routine uses on a path can be read at its end. -/
structure Stage (c : Context) (g : Graph) (slots : ℕ) (p : Path) (pending : List NodeId) :
    Prop where
  here : p.control < g.nodes.size
  arguments : ∀ x ∈ c.arguments, g.Available p.control x
  outer : ∀ s, c.outer = some s → g.StateAvailable p.control s
  locals : ∀ x ∈ p.locals, g.Available p.control x
  slots : p.locals.length = slots
  pending : ∀ x ∈ pending, g.Available p.control x

section

variable {g g' : Graph} {q q' : NodeId} {n : ℕ} {p p' : Path} {a : Arrival} {c : Context}
    {xs ys : List NodeId}

theorem Path.Ready.kept (h : p.Ready g q n) (hk : g.Kept g') : p.Ready g' q n where
  here := h.here.trans_le hk.size
  dominated := hk.dominates _ _ h.here h.dominated
  locals x hx := hk.available _ x h.here (h.locals x hx)
  slots := h.slots

theorem Path.Ready.after (h : p.Ready g q n) (hd : g.Dominates q' q) : p.Ready g q' n :=
  { h with dominated := hd.trans h.dominated }

theorem Arrival.Ready.kept (h : a.Ready g q n) (hk : g.Kept g') : a.Ready g' q n :=
  ⟨h.toReady.kept hk, hk.available _ _ h.here h.value⟩

theorem Arrival.Ready.after (h : a.Ready g q n) (hd : g.Dominates q' q) : a.Ready g q' n :=
  ⟨h.toReady.after hd, h.value⟩

theorem Stage.kept (h : Stage c g n p xs) (hk : g.Kept g') : Stage c g' n p xs where
  here := h.here.trans_le hk.size
  arguments x hx := hk.available _ x h.here (h.arguments x hx)
  outer s hs := hk.stateAvailable _ s h.here (h.outer s hs)
  locals x hx := hk.available _ x h.here (h.locals x hx)
  slots := h.slots
  pending x hx := hk.available _ x h.here (h.pending x hx)

/-- Further along a path. -/
theorem Stage.move (h : Stage c g n p xs) (hp : p'.Ready g p.control n) : Stage c g n p' xs where
  here := hp.here
  arguments x hx := (h.arguments x hx).dominated hp.dominated
  outer s hs := (h.outer s hs).dominated hp.dominated
  locals := hp.locals
  slots := hp.slots
  pending x hx := (h.pending x hx).dominated hp.dominated

theorem Stage.with (h : Stage c g n p xs) (hy : ∀ y ∈ ys, g.Available p.control y) :
    Stage c g n p (xs ++ ys) :=
  { h with pending := fun x hx => (List.mem_append.1 hx).elim (h.pending x) (hy x) }

theorem Stage.ready (h : Stage c g n p xs) :
    p.Ready g p.control n := ⟨h.here, .refl _, h.locals, h.slots⟩

end

/-- Where control is at some arrivals. -/
def tips (as : List Arrival) : List NodeId := as.map fun a => a.path.control

/-! ## Growing -/

/-- A step that begins at `q` takes the open ends `A` to others, and notes
some returns. Nothing of `base` changes. -/
def Grows (fails : CompileError → Prop) (base : Graph) (q : NodeId) (A : List NodeId) (b : Building)
    (x : Build α) (Q : Graph → α → Prop) (K : α → List NodeId) : Prop :=
  ∀ C, base.Grown b.graph → Sound b.graph (A ++ C) → Yields fails b x fun a b' =>
    base.Grown b'.graph ∧ b.graph.Kept b'.graph ∧ Q b'.graph a ∧
      ∃ new, b'.returns = b.returns ++ new ∧
      (∀ r ∈ new, r.Ready b'.graph q 0) ∧ Sound b'.graph (K a ++ (tips new ++ C))

section

variable {fails : CompileError → Prop} {base : Graph} {q q' : NodeId} {A : List NodeId}
    {b : Building} {x : Build α} {Q : Graph → α → Prop} {K : α → List NodeId}

theorem Grows.pure {a : α} (hK : K a = A) (hQ : Q b.graph a) :
    Grows fails base q A b (pure a) Q K := by
  intro C hbase hs
  exact .of_run rfl ⟨hbase, .refl _, hQ, [], by simp, by simp, by simpa [tips, hK] using hs⟩

theorem Grows.throw {error : CompileError} (h : fails error) :
    Grows fails base q A b (throw error : Build α) Q K := fun _ _ _ => h

/-- A step that only looks at the building. -/
theorem Grows.read {a : α} {f : α → Build β} {R : Graph → β → Prop} {L : β → List NodeId}
    (hx : x.run b = .ok (a, b)) (h : Grows fails base q A b (f a) R L) :
    Grows fails base q A b (x >>= f) R L := by
  intro C hbase hs
  refine Yields.bind (Q := fun a' b' => a' = a ∧ b' = b) (.of_run hx ⟨rfl, rfl⟩) ?_
  rintro _ _ ⟨rfl, rfl⟩
  exact h C hbase hs

/-- One step after the other. -/
theorem Grows.bind {f : α → Build β} {R : Graph → β → Prop} {L : β → List NodeId}
    (h : Grows fails base q A b x Q K)
    (hf : ∀ a b₁, b.graph.Kept b₁.graph → Q b₁.graph a → Grows fails base q (K a) b₁ (f a) R L) :
    Grows fails base q A b (x >>= f) R L := by
  intro C hbase hs
  refine (h C hbase hs).bind ?_
  rintro a b₁ ⟨hbase₁, hkept, hQ, new, hnew, hready, hs₁⟩
  refine (hf a b₁ hkept hQ (tips new ++ C) hbase₁ hs₁).imp ?_
  rintro r b₂ ⟨hbase₂, hkept₂, hR, new₂, hnew₂, hready₂, hs₂⟩
  refine ⟨hbase₂, hkept.trans hkept₂, hR, new ++ new₂, by rw [hnew₂, hnew, List.append_assoc],
    fun r hr => ?_, hs₂.perm ?_⟩
  · exact (List.mem_append.1 hr).elim (fun hr => (hready r hr).kept hkept₂) (hready₂ r)
  · simp only [tips, List.map_append, List.append_assoc]
    exact List.Perm.append_left _ (List.perm_append_comm_assoc _ _ _)

/-- A step may be seen as beginning further up. -/
theorem Grows.after (h : Grows fails base q A b x Q K) (hq : q < b.graph.nodes.size)
    (hd : b.graph.Dominates q' q) :
    Grows fails base q' A b x Q K := by
  intro C hbase hs
  refine (h C hbase hs).imp ?_
  rintro a b' ⟨hbase', hkept, hQ, new, hnew, hready, hs'⟩
  exact ⟨hbase', hkept, hQ, new, hnew,
    fun r hr => (hready r hr).after (hkept.dominates _ _ hq hd), hs'⟩

/-- What is known about the result, and the ends, may be said in another way. -/
theorem Grows.imp {R : Graph → α → Prop} {L : α → List NodeId} (h : Grows fails base q A b x Q K)
    (hR : ∀ g a, b.graph.Kept g → Q g a → R g a) (hL : ∀ g a, Q g a → (K a).Perm (L a)) :
    Grows fails base q A b x R L := by
  intro C hbase hs
  refine (h C hbase hs).imp ?_
  rintro a b' ⟨hbase', hkept, hQ, new, hnew, hready, hs'⟩
  exact ⟨hbase', hkept, hR _ _ hkept hQ, new, hnew, hready, hs'.perm ((hL _ _ hQ).append_right _)⟩

/-- Other ends stay open meanwhile. -/
theorem Grows.frame {D : List NodeId} (h : Grows fails base q A b x Q K) :
    Grows fails base q (A ++ D) b x Q fun a => K a ++ D := by
  intro C hbase hs
  refine (h (D ++ C) hbase (List.append_assoc A D C ▸ hs)).imp ?_
  rintro a b' ⟨hbase', hkept, hQ, new, hnew, hready, hs'⟩
  refine ⟨hbase', hkept, hQ, new, hnew, hready, hs'.perm ?_⟩
  rw [List.append_assoc]
  exact List.Perm.append_left _ (List.perm_append_comm_assoc _ _ _)

/-- The order of the ends does not matter. -/
theorem Grows.perm {A' : List NodeId} (h : Grows fails base q A b x Q K) (hp : A'.Perm A) :
    Grows fails base q A' b x Q K := fun C hbase hs => h C hbase (hs.perm (hp.append_right C))

/-- A step whose ends are known to be part of a sound graph. -/
theorem Grows.of_sound
    (h : base.Grown b.graph → (∃ C, Sound b.graph (A ++ C)) → Grows fails base q A b x Q K) :
    Grows fails base q A b x Q K := fun C hbase hs => h hbase ⟨C, hs⟩ C hbase hs

/-- What a step that changes no node leaves as it was. -/
theorem Grows.keep (h : ∀ base, Grows fails base q A b x Q K) :
    Grows fails base q A b x (fun g a => b.graph.Grown g ∧ Q g a) K := by
  intro C hbase hs
  refine (h b.graph C (.refl _) hs).imp ?_
  rintro a b' ⟨hbase', hkept, hQ, hrest⟩
  exact ⟨hbase.trans hbase', hkept, ⟨hbase', hQ⟩, hrest⟩

/-! ## Nodes -/

theorem addNode_run (b : Building) (n : Node) :
    (addNode n).run b = .ok (b.graph.nodes.size, b.push n) := rfl

/-- A floating node that is no phi. -/
theorem grows_float {n : Node} (hk : n.kind.isFixed = false) (hp : n.kind ≠ .phi) (hc : n.Counted)
    (hb : ∀ y ∈ n.edges, y < b.graph.nodes.size) :
    Grows fails base q A b (addNode n) (fun g id => g.node? id = some n) fun _ => A := by
  intro C hbase hs
  exact .of_run (addNode_run b n) ⟨hbase.push fun h => absurd h hp, hs.kept (.add _ n),
    node?_add_new _ n, [], by simp, by simp, hs.float hk hp hc hb⟩

/-- A fixed node behind some ends. -/
theorem grows_behind {n : Node} (hf : n.kind.isFixed) (hb : n.kind ≠ .branch) (hs : n.kind ≠ .start)
    (hside : n.kind.isSide = false) (hc : n.Counted)
    (hi : ∀ p ∈ n.control, ∀ y ∈ n.inputs, b.graph.Available p y)
    (hst : ∀ p ∈ n.control, ∀ s, n.state = some s → b.graph.StateAvailable p s) :
    Grows fails base q n.control b (addNode n)
      (fun g id => id = b.graph.nodes.size ∧ g.node? id = some n ∧
        ∀ d, (∀ p ∈ n.control, b.graph.Dominates d p) → g.Dominates d id)
      fun id => if n.kind.isTerminal then [] else [id] := by
  intro C hbase hsound
  have hsound' := hsound.behind hf hb hs hside hc hi hst
  have hkept := hsound.kept (.add _ n)
  refine .of_run (addNode_run b n) ⟨hbase.push fun h => ?_, hkept,
    ⟨rfl, node?_add_new _ n, fun d hd => ?_⟩, [], by simp, by simp, ?_⟩
  · rw [h] at hf
    cases hf
  · have hne : b.graph.nodes.size ≠ Graph.start := by
      obtain ⟨n', hn', -⟩ := kind?_eq_some.1 hsound.wired.start
      exact Nat.ne_of_gt (Nat.zero_lt_of_lt (lt_size_of_node? hn'))
    refine dominates_of_follows hne fun p hp => ?_
    rcases (follows_add hf).1 hp with ⟨n', hn', -⟩ | ⟨-, hp⟩
    · exact absurd (lt_size_of_node? hn') (Nat.lt_irrefl _)
    · exact hkept.dominates d p (hsound.lt_of_mem (List.mem_append_left _ hp)) (hd p hp)
  · dsimp only
    split at hsound'
    · rwa [if_pos ‹_›]
    · rwa [if_neg ‹_›]

/-- The constant node of a value. -/
theorem grows_constant (v : Value) :
    Grows fails base q A b (constant v) (fun g id => ∀ p, g.Available p id) fun _ => A := by
  intro C hbase hs
  have hnew : let r := b.graph.newConstant v
      base.Grown r.1 ∧ b.graph.Kept r.1 ∧ (∀ p, r.1.Available p r.2) ∧ Sound r.1 (A ++ C) := by
    have hnodes : (b.graph.newConstant v).1.nodes = (b.graph.add { kind := .constant v }).1.nodes :=
      rfl
    have hext : b.graph.Extends (b.graph.newConstant v).1 :=
      ⟨(Extends.add b.graph { kind := .constant v }).size,
        (Extends.add b.graph { kind := .constant v }).same⟩
    have hsound : Sound (b.graph.add { kind := .constant v }).1 (A ++ C) :=
      hs.float rfl (by simp) (by simp [Node.Counted]) (by simp [Node.edges])
    have hgrown : base.Grown (b.graph.add { kind := .constant v }).1 := hbase.push (by simp)
    refine ⟨⟨hbase.toExtends.trans hext, hgrown.apart⟩, hs.kept hext, fun p => ?_, ?_⟩
    · exact .constant (n := { kind := .constant v }) (node?_add_new b.graph _) rfl
    · exact ⟨⟨hsound.wired.congr hnodes, hsound.trim.congr hnodes, hsound.full, hsound.ordered⟩,
        hsound.openAt.congr hnodes⟩
  have hall : base.Grown (b.graph.constant v).1 ∧ b.graph.Kept (b.graph.constant v).1 ∧
      (∀ p, (b.graph.constant v).1.Available p (b.graph.constant v).2) ∧
      Sound (b.graph.constant v).1 (A ++ C) := by
    unfold Graph.constant
    split
    · split
      · obtain ⟨n, hn, hk⟩ := kind?_eq_some.1 ‹_›
        exact ⟨hbase, .refl _, fun p => .constant hn hk, hs⟩
      · exact hnew
    · exact hnew
  obtain ⟨h1, h2, h3, h4⟩ := hall
  exact .of_run rfl ⟨h1, h2, h3, [], by simp, by simp, h4⟩

end

/-! ## From a path to a value -/

/-- The step goes on from the end of a path and gives a value there, unless
all control ends in it. -/
def Evaluates (fails : CompileError → Prop) (base : Graph) (slots : ℕ) (p : Path) (b : Building)
    (x : Build (Option Arrival)) :
    Prop :=
  Grows fails base p.control [p.control] b x (fun g o => ∀ a ∈ o, a.Ready g p.control slots)
    fun o => tips o.toList

section

variable {fails : CompileError → Prop} {base : Graph} {slots : ℕ} {p p' : Path} {b : Building}
    {q : NodeId} {A : List NodeId} {c : Context} {stack : List NodeId} {node : ExprId}

theorem grows_ended (h : A = []) :
    Grows fails base q A b (pure (none : Option Arrival)) (fun g o => ∀ a ∈ o, a.Ready g q slots)
      fun o => tips o.toList := .pure (by simp [tips, h]) (by simp)

/-- From a path that is further along. -/
theorem Evaluates.from {x : Build (Option Arrival)} (h : Evaluates fails base slots p' b x)
    (hp : p'.Ready b.graph p.control slots) :
    Grows fails base p.control [p'.control] b x (fun g o => ∀ a ∈ o, a.Ready g p.control slots)
      fun o => tips o.toList :=
  (h.after hp.here hp.dominated).imp (fun _ _ hkept ho a ha =>
    (ho a ha).after (hkept.dominates _ _ hp.here hp.dominated)) fun _ _ _ => List.Perm.refl _

/-- A value, and on from there. -/
theorem Evaluates.bind {x : Build (Option Arrival)} {f : Option Arrival → Build (Option Arrival)}
    (h : Evaluates fails base slots p b x) (hnone : f none = pure none)
    (hf : ∀ a b₁, b.graph.Kept b₁.graph → a.Ready b₁.graph p.control slots →
        Evaluates fails base slots a.path b₁ (f (some a))) :
    Evaluates fails base slots p b (x >>= f) := by
  refine Grows.bind h fun o b₁ hkept ho => ?_
  cases o with
  | none =>
    rw [hnone]
    exact grows_ended rfl
  | some a => exact (hf a b₁ hkept (ho a rfl)).from (ho a rfl).toReady

theorem evaluates_pure {v : NodeId} (h : p'.Ready b.graph p.control slots)
    (hv : b.graph.Available p'.control v) (hc : p'.control = p.control) :
    Evaluates fails base slots p b (pure (some ⟨v, p'⟩)) := by
  refine .pure (by simp [tips, hc]) ?_
  rintro _ ⟨⟩
  exact ⟨h, hv⟩

/-! ## Guards and hand-overs -/

/-- The frame of a routine where everything it uses can be read. -/
theorem grows_frameState (h : Stage c b.graph slots p stack) (mode : ResumeMode) :
    Grows fails base q A b (frameState c node mode stack p)
      (fun g s => g.StateAvailable p.control s) fun _ => A := by
  have hall : ∀ x ∈ c.arguments ++ p.locals ++ stack, b.graph.Available p.control x := by
    intro x hx
    rcases List.mem_append.1 hx with hx | hx
    · exact (List.mem_append.1 hx).elim (h.arguments x) (h.locals x)
    · exact h.pending x hx
  rw [frameState_eq]
  refine (grows_float (n := stateNode c node mode stack p) rfl (by simp [stateNode]) ?_ fun y hy =>
    ?_).imp (fun g s hkept hs => ?_) fun _ _ _ => List.Perm.refl _
  · exact ⟨narrowed_stateNode _ rfl, rfl⟩
  · simp only [Node.edges, stateNode, List.append_nil, List.mem_append (t := c.outer.toList),
      Option.mem_toList] at hy
    rcases hy with hy | hy
    · exact Sound.lt_of_available (hall y hy)
    · obtain ⟨n, hn⟩ := (h.outer y hy).exists_node
      exact lt_size_of_node? hn
  · exact .frame hs rfl (fun y hy => hkept.available _ y h.here (hall y hy)) fun outer ho =>
      hkept.stateAvailable _ outer h.here (h.outer outer ho)

theorem grows_guardWith {state value : NodeId} (h : Stage c b.graph slots p stack)
    (check : GuardCheck) (reason : DeoptReason) (hs : b.graph.StateAvailable p.control state)
    (hv : b.graph.Available p.control value) :
    Grows fails base p.control [p.control] b (guardWith state value check reason p)
      (fun g p' => p'.Ready g p.control slots) fun p' => [p'.control] := by
  unfold guardWith
  have hadd : Grows fails base p.control _ b _ _ _ := grows_behind
    (n := { kind := .guard check reason, inputs := [value],
            control := [p.control], state := some state })
    rfl (by simp) (by simp) rfl (by simp [Node.Counted]) (by simpa using hv) (by simpa using hs)
  refine Grows.bind hadd fun guard b₁ hkept hg => .pure (by simp [NodeKind.isTerminal]) ?_
  have hdom : b₁.graph.Dominates p.control guard := hg.2.2 _ (by simpa using Dominates.refl _)
  exact ⟨lt_size_of_node? hg.2.1, hdom,
    fun x hx => (hkept.available _ x h.here (h.locals x hx)).dominated hdom, h.slots⟩

theorem grows_guardBefore {value : NodeId} (h : Stage c b.graph slots p stack) (check : GuardCheck)
    (reason : DeoptReason) (hv : value ∈ stack) :
    Grows fails base p.control [p.control] b (guardBefore c node value check reason stack p)
      (fun g p' => p'.Ready g p.control slots) fun p' => [p'.control] :=
  (grows_frameState h .beforeNode).bind fun _ _ hkept hs =>
    grows_guardWith (h.kept hkept) check reason hs (hkept.available _ _ h.here (h.pending _ hv))

theorem grows_giveUp (h : Stage c b.graph slots p stack) :
    Grows fails base p.control [p.control] b (giveUp c node stack p) (fun _ _ => True)
      fun _ => [] := by
  unfold giveUp
  refine (grows_frameState h .beforeNode).bind fun state b₁ hkept hs => ?_
  have hadd : Grows fails base p.control _ b₁ _ _ _ := grows_behind
    (n := { kind := .deoptimize .transferToInterpreter,
            control := [p.control], state := some state })
    rfl (by simp) (by simp) rfl (by simp [Node.Counted]) (by simp) (by simpa using hs)
  exact Grows.bind hadd fun _ _ _ _ => .pure (by simp [NodeKind.isTerminal]) trivial

theorem grows_ensureType {value : NodeId} (h : Stage c b.graph slots p stack) (expected : ValueType)
    (hv : value ∈ stack) :
    Grows fails base p.control [p.control] b (ensureType c node value expected stack p)
      (fun g o => ∀ p' ∈ o, p'.Ready g p.control slots) fun o => o.toList.map Path.control := by
  unfold ensureType
  refine .read rfl ?_
  split
  · split
    · exact .pure (by simp) (by simpa using h.ready)
    · exact (grows_giveUp h).bind fun _ _ _ _ => .pure (by simp) (by simp)
  · exact (grows_guardBefore h _ _ hv).bind fun p' _ _ hp => .pure (by simp) (by simpa using hp)

theorem evaluates_constant (h : Stage c b.graph slots p stack) (v : Value) :
    Evaluates fails base slots p b (do return some ⟨← constant v, p⟩) :=
  Grows.bind (grows_constant v) fun _ _ hkept hid =>
    evaluates_pure ((h.kept hkept).ready) (hid _) rfl

theorem evaluates_fold (h : Stage c b.graph slots p stack) (folded : Except GuestError Value) :
    Evaluates fails base slots p b (fold c node folded stack p) := by
  unfold fold
  split
  · exact evaluates_constant h _
  · exact (grows_giveUp h).bind fun _ _ _ _ => grows_ended rfl

/-! ## Operators -/

/-- An operator on values that can be read. -/
theorem evaluates_operator {n : Node} (h : Stage c b.graph slots p stack)
    (hi : ∀ x ∈ n.inputs, b.graph.Available p.control x) (hk : n.kind.isOperator) (hc : n.Counted) :
    Evaluates fails base slots p b (do return some ⟨← addNode n, p⟩) := by
  have hkind : n.kind.isFixed = false ∧ n.kind ≠ .phi ∧ n.control = [] ∧ n.state = none := by
    revert hc hk
    unfold Node.Counted
    cases n.kind <;> simp +contextual [NodeKind.isOperator, NodeKind.isFixed]
  obtain ⟨hf, hp, hcontrol, hstate⟩ := hkind
  have hadd : Grows fails base p.control [p.control] b (addNode n) _ _ :=
    grows_float hf hp hc fun y hy => by
    simp only [Node.edges, hcontrol, hstate, Option.toList_none, List.append_nil] at hy
    exact Sound.lt_of_available (hi y hy)
  refine Grows.bind hadd fun id b₁ hkept hn => evaluates_pure ((h.kept hkept).ready) ?_ rfl
  have hin : ∀ y ∈ n.inputs, b₁.graph.Available p.control y :=
    fun y hy => hkept.available _ y h.here (hi y hy)
  cases hkind : n.kind with
  | binary op => exact .binary hn hkind hin
  | unary op => exact .unary hn hkind hin
  | _ => simp [hkind, NodeKind.isOperator] at hk

theorem evaluates_emitBinary {lhs rhs : NodeId} (h : Stage c b.graph slots p stack) (op : BinaryOp)
    (hl : b.graph.Available p.control lhs) (hr : b.graph.Available p.control rhs) :
    Evaluates fails base slots p b (emitBinary c node op lhs rhs stack p) := by
  have hfull : Stage c b.graph slots p (stack ++ [lhs, rhs]) := h.with (by simp [hl, hr])
  unfold emitBinary
  refine .read rfl (.read rfl ?_)
  split
  · exact evaluates_fold hfull _
  · split
    · exact evaluates_operator h (by simp [hl, hr]) rfl (by simp [Node.Counted])
    · refine (grows_ensureType hfull _ (by simp)).bind fun o b₁ hkept ho => ?_
      cases o with
      | none => exact grows_ended rfl
      | some p₁ =>
        have hp₁ : p₁.Ready b₁.graph p.control slots := ho p₁ rfl
        have hfull₁ := (hfull.kept hkept).move hp₁
        refine Evaluates.from ?_ hp₁
        refine (grows_ensureType hfull₁ _ (by simp)).bind fun o b₂ hkept₂ ho₂ => ?_
        cases o with
        | none => exact grows_ended rfl
        | some p₂ =>
          have hp₂ : p₂.Ready b₂.graph p₁.control slots := ho₂ p₂ rfl
          have hfull₂ := (hfull₁.kept hkept₂).move hp₂
          refine Evaluates.from ?_ hp₂
          exact evaluates_operator hfull₂
            (fun x hx => hfull₂.pending x (List.mem_append_right _ hx)) rfl (by simp [Node.Counted])

theorem evaluates_emitUnary {operand : NodeId} (h : Stage c b.graph slots p stack) (op : UnaryOp)
    (ho : b.graph.Available p.control operand) :
    Evaluates fails base slots p b (emitUnary c node op operand stack p) := by
  have hfull : Stage c b.graph slots p (stack ++ [operand]) := h.with (by simp [ho])
  unfold emitUnary
  refine .read rfl ?_
  split
  · exact evaluates_fold hfull _
  · refine (grows_ensureType hfull _ (by simp)).bind fun o b₁ hkept hp => ?_
    cases o with
    | none => exact grows_ended rfl
    | some p₁ =>
      have hp₁ : p₁.Ready b₁.graph p.control slots := hp p₁ rfl
      have hfull₁ := (hfull.kept hkept).move hp₁
      refine Evaluates.from ?_ hp₁
      exact evaluates_operator hfull₁
        (fun x hx => hfull₁.pending x (List.mem_append_right _ hx)) rfl (by simp [Node.Counted])

/-! ## Calls and returns -/

theorem evaluates_emitInvoke {target : TargetId} {arguments : List NodeId}
    (h : Stage c b.graph slots p stack) (ha : ∀ x ∈ arguments, b.graph.Available p.control x) :
    Evaluates fails base slots p b (emitInvoke c node target arguments stack p) := by
  unfold emitInvoke
  refine (grows_frameState h .afterCall).bind fun state b₁ hkept hs => ?_
  have h₁ := h.kept hkept
  have hadd : Grows fails base p.control _ b₁ _ _ _ := grows_behind
    (n := { kind := .invoke target node, inputs := arguments,
            control := [p.control], state := some state })
    rfl (by simp) (by simp) rfl (by simp [Node.Counted])
    (by simpa using fun x hx => hkept.available _ x h.here (ha x hx)) (by simpa using hs)
  refine Grows.bind hadd fun invoke b₂ hkept₂ hn => ?_
  obtain ⟨-, hn, hd⟩ := hn
  have hdom : b₂.graph.Dominates p.control invoke := hd _ (by simpa using Dominates.refl _)
  refine .pure (by simp [NodeKind.isTerminal, tips]) ?_
  rintro _ ⟨⟩
  refine ⟨⟨lt_size_of_node? hn, hdom, fun x hx => ?_, h.slots⟩, ?_⟩
  · exact (hkept₂.available _ x h₁.here (h₁.locals x hx)).dominated hdom
  · exact .register (.inr ⟨rfl, by simp [kind?, hn, NodeKind.isInvoke]⟩) (.refl _)

theorem evaluates_recordReturn {v : NodeId} (h : Stage c b.graph slots p stack)
    (hv : b.graph.Available p.control v) :
    Evaluates fails base slots p b (recordReturn v p) := by
  intro C hbase hs
  refine .of_run rfl
    ⟨hbase, .refl _, by simp, [⟨v, { p with locals := [] }⟩], rfl, ?_, by simpa [tips] using hs⟩
  intro r hr
  obtain rfl := List.mem_singleton.1 hr
  exact ⟨⟨h.here, .refl _, by simp, rfl⟩, hv⟩

end

end Specialize

end TieredEngine

import TieredEngine.Proofs.Specialize.Wiring
/-!
# Building steps and the spots they lead through

A scope is a routine under specialization, with the frames that wait for it.
`Scope.Builds` is what a building step does there: from some open ends it
emits a piece that leaves other open ends, and notes some returns. Steps
compose (`Builds.bind`) and do not care about ends they do not touch
(`Builds.frame`).
-/

namespace TieredEngine

namespace Specialize

open Interpreter (Within)

variable {X : Setting} {α β : Type}

/-- Only the nodes of a graph matter to a piece. -/
theorem Emits.congr_nodes {A B : List End} {g g₁ g₂ : Graph} (h : g₂.nodes = g₁.nodes)
    (he : Emits X A g g₁ B) :
    Emits X A g g₂ B := by
  have hnode : ∀ id, g₂.node? id = g₁.node? id := fun id => by rw [Graph.node?, Graph.node?, h]
  refine ⟨he.before, h ▸ he.size, fun id hid => by rw [hnode, he.old id hid], he.nodup, h ▸ he.ends,
    fun m n hm hn => ?_, fun whole hf => ?_⟩
  · exact (he.nodes m n hm (by rw [← hnode, hn])).mono (Nat.le_refl _) (fun q hq => .inl hq)
      (by rw [h]) fun id _ _ => hnode id
  · have hf₁ : Fits g g₁ whole :=
      ⟨fun id n hn => hf.plain id n (by rw [hnode, hn]),
        fun id h1 h2 => by rw [hf.new id h1 (h ▸ h2), hnode],
        h ▸ hf.later, hf.owned, hf.counted⟩
    rw [h]
    exact he.labels whole hf₁

/-- A routine under specialization and the frames that wait for it. -/
structure Scope (X : Setting) where
  context : Context
  routine : Routine
  callers : List Caller
  registered : X.routines context.target routine
  outer : context.outer = outerOf callers
  placed : ∀ c ∈ callers, c.Placed X.routines

namespace Scope

variable (s : Scope X)

/-- The frame on a path, inside some slots. -/
def frame (ss : List NodeSlot) (p : Path) : NodeFrame :=
  ⟨s.context.target, s.routine, s.context.arguments, p.locals, ss⟩

/-- The spot on a path, inside some slots, where some facts are known. -/
def spotOn (facts : Facts) (ss : List NodeSlot) (p : Path) (d : Doing) : Spot :=
  ⟨s.frame ss p, d, facts, s.callers⟩

/-- The spot on a path, inside some slots. -/
def spot (ss : List NodeSlot) (p : Path) (d : Doing) : Spot := s.spotOn p.facts ss p d

/-- The open end of a path. -/
def tip (ss : List NodeSlot) (p : Path) (d : Doing) : End := (p.control, s.spot ss p d)

/-- The open end of a path with a value. -/
def arrive (ss : List NodeSlot) (a : Arrival) : End := s.tip ss a.path (.value a.value)

/-- The slots lead down to the expression. -/
def Inside (ss : List NodeSlot) (e : Expr) : Prop :=
  ∀ f, Within s.routine.body (ss.map (NodeSlot.slot f)) e

/-- The path has the routine's local slots. -/
def Keeps (p : Path) : Prop := p.locals.length = s.routine.localCount

/-- What a building step does: a fact about its result, the ends it leaves
open, and the returns it notes. -/
def Builds (A : List End) (b : Building) (x : Build α) (Φ : α → Prop) (Q : α → List End) : Prop :=
  (keys A).Nodup → (∀ q ∈ keys A, q < b.graph.nodes.size) → ∀ a b', x.run b = .ok (a, b') →
    Φ a ∧ ∃ new : List Arrival, b'.returns = b.returns ++ new ∧ (∀ r ∈ new, r.path.locals = []) ∧
      Emits X A b.graph b'.graph (Q a ++ new.map (s.arrive []))

variable {s} {A A' C : List End} {b : Building} {x : Build α} {Φ : α → Prop} {Q : α → List End}

theorem Builds.pure {a : α} (hQ : Q a = A) (hΦ : Φ a) : s.Builds A b (pure a) Φ Q := by
  subst hQ
  intro hn hb a' b' h
  obtain ⟨rfl, rfl⟩ := run_pure h
  exact ⟨hΦ, [], by simp, by simp, by simpa using Emits.refl hn hb⟩

theorem Builds.throw (e : CompileError) :
    s.Builds A b (throw e) Φ Q := fun _ _ _ _ h => (run_throw h).elim

/-- What is left at the ends may be said in another way before a step. -/
theorem Builds.pre (h : s.Builds A b x Φ Q) (hA : (keys A).Nodup)
    (hto : ∀ e ∈ A, ∃ e' ∈ A', e'.1 = e.1 ∧
      ∀ whole, Fits b.graph b.graph whole → X.To whole e'.2 e.2) :
    s.Builds A' b x Φ Q := by
  intro hn hb a b' hx
  have hpre : Emits X A' b.graph b.graph A := (Emits.refl hn hb).imp hA hto
  obtain ⟨hΦ, new, h1, h2, h3⟩ := h hA hpre.after a b' hx
  exact ⟨hΦ, new, h1, h2, hpre.trans h3⟩

/-- One end said in another way. -/
theorem Builds.pre_one {q : NodeId} {S T : Spot} (h : s.Builds [(q, T)] b x Φ Q)
    (hto : ∀ whole, Fits b.graph b.graph whole → X.To whole S T) : s.Builds [(q, S)] b x Φ Q :=
  h.pre (by simp) fun e he => ⟨(q, S), by simp, by simp_all⟩

/-- The order of the ends does not matter. -/
theorem Builds.perm (h : s.Builds A b x Φ Q) (hp : A.Perm A') : s.Builds A' b x Φ Q := by
  intro hn
  refine h.pre ((hp.map Prod.fst).nodup_iff.2 hn)
    (fun e he => ⟨e, hp.subset he, rfl, fun _ _ => .refl⟩) hn

/-- Other ends stay as they are. -/
theorem Builds.frame (h : s.Builds A b x Φ Q) : s.Builds (A ++ C) b x Φ fun a => Q a ++ C := by
  intro hn hb a b' hx
  have hsub : keys (A ++ C) = keys A ++ keys C := by simp [keys]
  rw [hsub] at hb
  obtain ⟨hΦ, new, h1, h2, h3⟩ := h (by rw [hsub] at hn; exact (List.nodup_append.1 hn).1)
    (fun q hq => hb q (List.mem_append_left _ hq)) a b' hx
  have hframe := h3.frame hn fun q hq => hb q (List.mem_append_right _ hq)
  refine ⟨hΦ, new, h1, h2, hframe.imp ?_ fun e he => ⟨e, ?_, rfl, fun _ _ => .refl⟩⟩
  · refine (List.Perm.nodup_iff ?_).1 hframe.nodup
    simp only [keys]
    refine List.Perm.map _ ?_
    rw [List.append_assoc, List.append_assoc]
    exact List.Perm.append_left _ List.perm_append_comm
  · simp only [List.mem_append] at he ⊢
    tauto

/-- One step after the other. -/
theorem Builds.bind {f : α → Build β} {Ψ : β → Prop} {R : β → List End} (h : s.Builds A b x Φ Q)
    (hf : ∀ a b₁, Φ a → s.Builds (Q a) b₁ (f a) Ψ R) : s.Builds A b (x >>= f) Ψ R := by
  intro hn hb r b₂ hx
  obtain ⟨a, b₁, h1, h2⟩ := run_bind hx
  obtain ⟨hΦ, new, h3, h4, h5⟩ := h hn hb a b₁ h1
  obtain ⟨hΨ, new', h6, h7, h8⟩ := (hf a b₁ hΦ).frame h5.nodup h5.after r b₂ h2
  refine ⟨hΨ, new ++ new', by rw [h6, h3, List.append_assoc], fun r hr => (List.mem_append.1
    hr).elim (h4 r) (h7 r), h5.trans (h8.imp ?_ fun e he => ⟨e, ?_, rfl, fun _ _ => .refl⟩)⟩
  · refine (List.Perm.nodup_iff ?_).1 h8.nodup
    simp only [keys, List.map_append, List.append_assoc]
    exact List.Perm.refl _
  · simpa only [List.map_append, List.append_assoc] using he

/-- A step that only looks at the building. -/
theorem Builds.read {a : α} {f : α → Build β} {Ψ : β → Prop} {R : β → List End}
    (hx : x.run b = .ok (a, b)) (h : s.Builds A b (f a) Ψ R) : s.Builds A b (x >>= f) Ψ R := by
  intro hn hb r b' hrun
  obtain ⟨a', b₁, h1, h2⟩ := run_bind hrun
  cases hx.symm.trans h1
  exact h hn hb r b' h2

/-- What is left at the end that a step may leave open, said in another way. -/
theorem Builds.post_to {γ : Type} {y : Build (Option γ)} {Ψ : Option γ → Prop} {T T' : γ → End}
    (h : s.Builds A b y Ψ fun o => o.toList.map T) (hk : ∀ c, (T' c).1 = (T c).1)
    (hto : ∀ c whole, X.To whole (T c).2 (T' c).2) : s.Builds A b y Ψ fun o => o.toList.map T' := by
  intro hn hb o b' hrun
  obtain ⟨hΨ, new, h1, h2, h3⟩ := h hn hb o b' hrun
  refine ⟨hΨ, new, h1, h2, h3.imp ?_ fun e he => ?_⟩
  · have hkeys : keys (o.toList.map T' ++ new.map (s.arrive [])) =
        keys (o.toList.map T ++ new.map (s.arrive [])) := by
      simp [keys, hk]
    exact hkeys ▸ h3.nodup
  · rcases List.mem_append.1 he with he | he
    · obtain ⟨c, hc, rfl⟩ := List.mem_map.1 he
      exact ⟨T c, List.mem_append_left _ (List.mem_map_of_mem hc), (hk c).symm,
        fun whole _ => hto c whole⟩
    · exact ⟨e, List.mem_append_right _ he, rfl, fun _ _ => .refl⟩

/-! ## What the interpreter does on its own -/

variable {facts facts' : Facts} {ss ss' : List NodeSlot} {p p' : Path} {d d' : Doing}
    {whole : Graph} {ρ : Bindings}

/-- The nodes of a spot in a scope. -/
theorem mem_nodes {x : NodeId} :
    x ∈ (s.spotOn facts ss p d).nodes ↔ x ∈ s.context.arguments ∨ x ∈ p.locals ∨
      x ∈ pendingNodes ss ∨ x ∈ d.nodes ∨ ∃ c ∈ s.callers, x ∈ c.frame.nodes := by
  simp only [Spot.nodes, spotOn, Scope.frame, NodeFrame.nodes, List.mem_append,
    List.mem_flatMap, or_assoc]

/-- A spot is good where its nodes were known before or are known now. -/
theorem good_of (h : (s.spotOn facts ss p d).Good whole X.arguments ρ)
    (hn : ∀ x, x ∈ p'.locals ∨ x ∈ pendingNodes ss' ∨ x ∈ d'.nodes →
      x ∈ (s.spotOn facts ss p d).nodes ∨ Known whole X.arguments ρ x)
    (hf : ∀ fact ∈ facts', fact ∈ facts ∨ ∃ v, Denotes whole X.arguments ρ fact.1 v ∧
        v.type = fact.2) :
    (s.spotOn facts' ss' p' d').Good whole X.arguments ρ where
  known x hx := by
    have hknown : ∀ x, x ∈ (s.spotOn facts ss p d).nodes → Known whole X.arguments ρ x := h.known
    rcases mem_nodes.1 hx with hx | hx | hx | hx | hx
    · exact hknown x (mem_nodes.2 (.inl hx))
    · exact (hn x (.inl hx)).elim (hknown x) id
    · exact (hn x (.inr (.inl hx))).elim (hknown x) id
    · exact (hn x (.inr (.inr hx))).elim (hknown x) id
    · exact hknown x (mem_nodes.2 (.inr (.inr (.inr (.inr hx)))))
  facts fact hfact := (hf fact hfact).elim (h.facts fact) id
  chain := h.chain

/-- The moment inside one more slot, where an expression is entered. -/
theorem moment_enter_concat (f : NodeId → Value) (t : NodeSlot) (e : Expr) (w : ℕ) :
    (s.spotOn facts (ss ++ [t]) p (.enter e)).moment f w =
      .enter ((s.frame ss p).slots f ++ [t.slot f]) e ((s.frame ss p).activation f w) := by
  simp [Spot.moment, spotOn, Scope.frame, NodeFrame.slots, NodeFrame.activation]

/-- The moment inside one more slot, where the slot gets a value. -/
theorem moment_value_concat (f : NodeId → Value) (t : NodeSlot) (v : NodeId) (w : ℕ) :
    (s.spotOn facts (ss ++ [t]) p (.value v)).moment f w =
      .value ((s.frame ss p).slots f ++ [t.slot f]) (f v) ((s.frame ss p).activation f w) := by
  simp [Spot.moment, spotOn, Scope.frame, NodeFrame.slots, NodeFrame.activation]

/-- A step of the interpreter that needs no new nodes. -/
theorem silent (hs : ∀ f w, ∃ w', Interpreter.Step X.host ((s.spotOn facts ss p d).moment f w)
      ((s.spotOn facts' ss' p' d').moment f w') ∧ w + loopDepth ss' ≤ w' + loopDepth ss)
    (hn : ∀ x, x ∈ p'.locals ∨ x ∈ pendingNodes ss' ∨
        x ∈ d'.nodes → x ∈ (s.spotOn facts ss p d).nodes) (hf : facts' ⊆ facts) :
    X.To whole (s.spotOn facts ss p d) (s.spotOn facts' ss' p' d') := by
  refine .step (fun ρ h => good_of h (fun x hx => .inl (hn x hx)) fun fact hfact => .inl (hf hfact))
    rfl fun ρ w _ => ?_
  obtain ⟨w', h1, h2⟩ := hs (valueAt whole X.arguments ρ) w
  refine ⟨w', h1, ?_⟩
  simp only [Spot.depth, spotOn, Scope.frame]
  omega

theorem spotOn_congr (h : p'.locals = p.locals) :
    s.spotOn facts ss p' d = s.spotOn facts ss p d := by
  simp only [spotOn, Scope.frame, h]

/-- Facts may be forgotten. -/
theorem forget (hf : facts' ⊆ facts) :
    X.To whole (s.spotOn facts ss p d) (s.spotOn facts' ss p d) := by
  refine .of_ends (fun ρ h => good_of h (fun x hx => .inl (mem_nodes.2 (by tauto)))
    fun fact hfact => .inl (hf hfact)) fun ρ w o _ _ hw => ⟨w, ?_, Nat.le_refl _⟩
  obtain ⟨k, o₁, h1, h2, h3⟩ := hw
  refine ⟨k, o₁, h1 ▸ ?_, h2, h3⟩
  cases d <;> rfl

end Scope

end Specialize

end TieredEngine

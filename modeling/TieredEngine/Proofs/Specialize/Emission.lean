import TieredEngine.Proofs.Interpreter.Refusals
import TieredEngine.Proofs.Specialize.Growth
import TieredEngine.Proofs.Specialize.Spots
/-!
# Pieces of a graph

A piece of specialization starts at some open ends of control, each with the
spot that control is at there, attaches new nodes, and leaves some open ends
behind. `Emits` is what a piece promises, both about the shape of what it
appended and about running it: whatever whole graph the piece becomes a part
of, the new nodes can be labelled with spots so that every new control edge
satisfies its condition. Pieces compose (`Emits.trans`), leave other ends
alone (`Emits.frame`), and steps that append nothing to the control chain only
change what is said about an end (`Emits.imp`).
-/

namespace TieredEngine

/-- Code that gives up for this reason in a frame with this mode does not give
up on a speculation: it ends a path on which an expression is bound to fail,
or an operand has not the type that an operator asks for. -/
def DeoptReason.Unspeculative (reason : DeoptReason) (mode : ResumeMode) : Prop :=
  reason = .transferToInterpreter ∨ reason = .typeGuardFailure ∧ mode = .beforeNode

namespace Specialize

open Code (Point Effects Leads EdgeOk)

/-- What running code is compared with: the interpreter on a host that counts
tests. -/
structure Setting where
  /-- The arguments of the run. -/
  arguments : List Value
  host : Host ℕ
  /-- The routines that are registered. -/
  routines : TargetId → Routine → Prop
  /-- The errors nobody asks about. -/
  ignored : GuestError → Prop
  counts : host.Counts

namespace Setting

variable (X : Setting)

/-- The frame is one of a registered routine, whose own expression fails. -/
def Fails (f : SuspendedFrame) : Prop := ∃ r err, X.routines f.target r ∧ f.FailsIn r err

/-- What calls do, how suspended frames end, and that code gives up without
speculation only in frames that fail. -/
def meaning : Code.Meaning where
  call := X.host.call
  resumes := Interpreter.Resumes X.routines X.host
  justifies reason f := reason.Unspeculative f.mode → X.Fails f

/-- The outcome is one that somebody asks about. -/
def Heeds (o : Outcome GuestError ℕ Value) : Prop := ∀ e w, o = .stop e w → ¬ X.ignored e

/-- What a spot says about running code. -/
noncomputable def point (g : Graph) (S : Spot) : Point where
  good ρ := S.Good g X.arguments ρ
  ends ρ w o := X.Heeds o ∧ S.Ends (valueAt g X.arguments ρ) X.host w o
  depth := S.depth

/-- Without running any code, what is left at one spot is left at the other. -/
def To (g : Graph) (S T : Spot) : Prop :=
  ∀ ρ, S.Good g X.arguments ρ → (X.point g S).Continues (X.point g T) 0 ρ ρ

variable {X} {g : Graph} {S T U : Spot}

theorem To.refl : X.To g S S := fun _ h => ⟨h, fun w _ hw => ⟨w, hw, by omega⟩⟩

theorem To.trans (h : X.To g S T) (h' : X.To g T U) : X.To g S U :=
  fun ρ hρ => (h ρ hρ).trans (h' ρ (h ρ hρ).1)

/-- The rule for what the interpreter does on its own. -/
theorem To.of_ends (hg : ∀ ρ, S.Good g X.arguments ρ → T.Good g X.arguments ρ)
    (he : ∀ ρ w o, S.Good g X.arguments ρ → X.Heeds o →
      S.Ends (valueAt g X.arguments ρ) X.host w o →
      ∃ w', T.Ends (valueAt g X.arguments ρ) X.host w' o ∧ w + T.depth ≤ w' + S.depth) :
        X.To g S T := by
  refine fun ρ hρ => ⟨hg ρ hρ, fun w o hw => ?_⟩
  obtain ⟨w', h1, h2⟩ := he ρ w o hρ hw.1 hw.2
  exact ⟨w', ⟨hw.1, h1⟩, by simpa [point] using h2⟩

/-- The rule for a step of the interpreter. -/
theorem To.step (hg : ∀ ρ, S.Good g X.arguments ρ → T.Good g X.arguments ρ)
    (hc : T.callers = S.callers)
    (hs : ∀ ρ w, S.Good g X.arguments ρ →
      ∃ w', Interpreter.Step X.host (S.moment (valueAt g X.arguments ρ) w)
      (T.moment (valueAt g X.arguments ρ) w') ∧ w + T.depth ≤ w' + S.depth) : X.To g S T := by
  refine .of_ends hg fun ρ w o hρ _ hw => ?_
  obtain ⟨w', h1, h2⟩ := hs ρ w hρ
  exact ⟨w', Spot.ends_step h1 hc hw, h2⟩

end Setting

/-! ## Pieces -/

/-- An open end of control: the fixed node to attach to, and where control is
behind it. -/
abbrev End := NodeId × Spot

/-- The fixed nodes of open ends. -/
abbrev keys (A : List End) : List NodeId := A.map Prod.fst

/-- The graph that a piece from `g` to `g'` becomes a part of. -/
structure Fits (g g' whole : Graph) : Prop where
  /-- Only headers of open loops and their phis are changed later. -/
  plain : ∀ id n, g'.node? id = some n → n.kind ≠ .phi → n.kind ≠ .loopBegin →
    whole.node? id = some n
  new : ∀ id, g.nodes.size ≤ id → id < g'.nodes.size → whole.node? id = g'.node? id
  /-- What is appended later has its own merges. -/
  later : ∀ id n, g'.nodes.size ≤ id → whole.node? id = some n → n.kind = .phi →
    ∃ m, n.control = [m] ∧ g'.nodes.size ≤ m
  owned : ∀ id n, whole.node? id = some n → n.kind = .phi → ∃ m, n.control = [m] ∧ m < id
  /-- No count of the whole overflows. -/
  counted : whole.FramesCounted

variable (X : Setting)

/-- What a piece that led from the ends `A` to the ends `B` promises. -/
structure Emits (A : List End) (g g' : Graph) (B : List End) : Prop where
  before : ∀ q ∈ keys A, q < g.nodes.size
  size : g.nodes.size ≤ g'.nodes.size
  old : ∀ id < g.nodes.size, g'.node? id = g.node? id
  nodup : (keys B).Nodup
  ends : ∀ q ∈ keys B, q ∈ keys A ∨ (g.nodes.size ≤ q ∧ q < g'.nodes.size)
  nodes : ∀ m n, g.nodes.size ≤ m → g'.node? m = some n → NodeOk (keys A) g.nodes.size g' m n
  /-- The new nodes can be labelled. -/
  labels : ∀ whole, Fits g g' whole → ∀ L : NodeId → Spot, (∀ e ∈ A, X.To whole (L e.1) e.2) →
    ∃ L' : NodeId → Spot, (∀ id < g.nodes.size, L' id = L id) ∧
      (∀ m n q, g.nodes.size ≤ m → m < g'.nodes.size → whole.node? m = some n → n.kind.isFixed →
        q ∈ n.control → EdgeOk whole X.arguments X.meaning (fun id => X.point whole (L' id)) q m) ∧
      ∀ e ∈ B, X.To whole (L' e.1) e.2

namespace Emits

variable {X} {A B C : List End} {g g₁ g₂ whole : Graph}

/-- The ends that a piece leaves are inside the graph. -/
theorem after (h : Emits X A g g₁ B) : ∀ q ∈ keys B, q < g₁.nodes.size := fun q hq =>
  (h.ends q hq).elim (fun hq => (h.before q hq).trans_le h.size) fun hq => hq.2

/-- Doing nothing. -/
theorem refl (hn : (keys A).Nodup) (hb : ∀ q ∈ keys A, q < g.nodes.size) : Emits X A g g A where
  before := hb
  size := Nat.le_refl _
  old _ _ := rfl
  nodup := hn
  ends _ hq := .inl hq
  nodes _ _ hm hn := absurd (Graph.lt_size_of_node? hn) (Nat.not_lt.2 hm)
  labels _ _ L hL := ⟨L, fun _ _ => rfl, fun _ _ _ h1 h2 => absurd h2 (Nat.not_lt.2 h1), hL⟩

/-- A part of a piece is a part of whatever the piece is a part of. -/
theorem fits_left (h' : Emits X B g₁ g₂ C) (hsize : g.nodes.size ≤ g₁.nodes.size)
    (hf : Fits g g₂ whole) :
    Fits g g₁ whole where
  plain id n hn := hf.plain id n (by rw [h'.old id (Graph.lt_size_of_node? hn), hn])
  new id h1 h2 := by rw [hf.new id h1 (h2.trans_le h'.size), h'.old id h2]
  later id n hid hn hk := by
    by_cases hlt : id < g₂.nodes.size
    · rw [hf.new id (hsize.trans hid) hlt] at hn
      obtain ⟨m, h1, h2, -⟩ := (h'.nodes id n hid hn).phi hk
      exact ⟨m, h1, h2⟩
    · obtain ⟨m, h1, h2⟩ := hf.later id n (Nat.not_lt.1 hlt) hn hk
      exact ⟨m, h1, h'.size.trans h2⟩
  owned := hf.owned
  counted := hf.counted

theorem fits_right (h : Emits X A g g₁ B) (hf : Fits g g₂ whole) : Fits g₁ g₂ whole where
  plain := hf.plain
  new id h1 h2 := hf.new id (h.size.trans h1) h2
  later := hf.later
  owned := hf.owned
  counted := hf.counted

/-- The edges of a labelled piece are not about labels of later nodes. -/
theorem edge_mono (h : Emits X A g g₁ B) (hf : Fits g g₁ whole) {L L' : NodeId → Spot}
    (hL : ∀ id < g₁.nodes.size, L' id = L id) {m q : NodeId} {n : Node} (h1 : g.nodes.size ≤ m)
    (h2 : m < g₁.nodes.size) (hn : whole.node? m = some n) (hk : n.kind.isFixed)
    (hq : q ∈ n.control)
    (he : EdgeOk whole X.arguments X.meaning (fun id => X.point whole (L id)) q m) :
    EdgeOk whole X.arguments X.meaning (fun id => X.point whole (L' id)) q m := by
  have hnode := h.nodes m n h1 (by rw [← hf.new m h1 h2, hn])
  have hlt : ∀ q ∈ n.control, q < g₁.nodes.size := by
    intro q hq
    obtain ⟨i, hi⟩ := List.getElem?_of_mem hq
    exact (hnode.edges hk i q hi).2.1
  refine he.congr (by rw [hL q (hlt q hq)]) (by rw [hL m h2]) fun n' e hn' hhead => ?_
  obtain rfl := Option.some.inj (hn.symm.trans hn')
  rw [hL e (hlt e (List.mem_of_mem_head? hhead))]

/-- One piece after the other. -/
theorem trans (h : Emits X A g g₁ B) (h' : Emits X B g₁ g₂ C) : Emits X A g g₂ C where
  before := h.before
  size := h.size.trans h'.size
  old id hid := by rw [h'.old id (hid.trans_le h.size), h.old id hid]
  nodup := h'.nodup
  ends q hq := by
    rcases h'.ends q hq with hq | ⟨h1, h2⟩
    · exact (h.ends q hq).imp_right fun hq => ⟨hq.1, hq.2.trans_le h'.size⟩
    · exact .inr ⟨h.size.trans h1, h2⟩
  nodes m n hm hn := by
    by_cases hm' : m < g₁.nodes.size
    · rw [h'.old m hm'] at hn
      exact (h.nodes m n hm hn).mono (Nat.le_refl _) (fun q hq => .inl hq) h'.size fun id hid _ =>
        h'.old id hid
    · exact (h'.nodes m n (Nat.not_lt.1 hm') hn).mono h.size
        (fun q hq => (h.ends q hq).imp_right fun hq => hq.1) (Nat.le_refl _) fun _ _ _ => rfl
  labels whole hf L hL := by
    have hf₁ := h'.fits_left h.size hf
    obtain ⟨L₁, h1, h2, h3⟩ := h.labels whole hf₁ L hL
    obtain ⟨L₂, h4, h5, h6⟩ := h'.labels whole (h.fits_right hf) L₁ h3
    refine ⟨L₂, fun id hid => by rw [h4 id (hid.trans_le h.size), h1 id hid],
      fun m n q hm hm' hn hk hq => ?_, h6⟩
    by_cases hlt : m < g₁.nodes.size
    · exact h.edge_mono hf₁ h4 hm hlt hn hk hq (h2 m n q hm hlt hn hk hq)
    · exact h5 m n q (Nat.not_lt.1 hlt) hm' hn hk hq

/-- What is left at an end may be said in another way, and ends may be given
up. -/
theorem imp (h : Emits X A g g₁ B) (hn : (keys C).Nodup)
    (hC : ∀ e ∈ C, ∃ e' ∈ B, e'.1 = e.1 ∧ ∀ whole, Fits g g₁ whole → X.To whole e'.2 e.2) :
    Emits X A g g₁ C where
  before := h.before
  size := h.size
  old := h.old
  nodup := hn
  ends q hq := by
    obtain ⟨e, he, rfl⟩ := List.mem_map.1 hq
    obtain ⟨e', he', h1, -⟩ := hC e he
    exact h1 ▸ h.ends e'.1 (List.mem_map_of_mem he')
  nodes := h.nodes
  labels whole hf L hL := by
    obtain ⟨L', h1, h2, h3⟩ := h.labels whole hf L hL
    refine ⟨L', h1, h2, fun e he => ?_⟩
    obtain ⟨e', he', h4, h5⟩ := hC e he
    exact h4 ▸ (h3 e' he').trans (h5 whole hf)

/-- Other ends stay as they are. -/
theorem frame (h : Emits X A g g₁ B) (hn : (keys (A ++ C)).Nodup)
    (hb : ∀ q ∈ keys C, q < g.nodes.size) :
    Emits X (A ++ C) g g₁ (B ++ C) := by
  simp only [keys, List.map_append] at hn
  obtain ⟨-, hnC, hdis⟩ := List.nodup_append.1 hn
  refine ⟨fun q hq => ?_, h.size, h.old, ?_, fun q hq => ?_, fun m n hm hn => ?_,
    fun whole hf L hL => ?_⟩
  · rw [keys, List.map_append, List.mem_append] at hq
    exact hq.elim (h.before q) (hb q)
  · rw [keys, List.map_append]
    refine List.nodup_append.2 ⟨h.nodup, hnC, fun a ha c hc hac => ?_⟩
    subst hac
    rcases h.ends a ha with ha | ha
    · exact hdis a ha a hc rfl
    · exact absurd (hb a hc) (Nat.not_lt.2 ha.1)
  · rw [keys, List.map_append, List.mem_append] at hq ⊢
    rcases hq with hq | hq
    · exact (h.ends q hq).imp_left .inl
    · exact .inl (.inr hq)
  · exact (h.nodes m n hm hn).mono (Nat.le_refl _)
      (fun q hq => .inl (by simp [keys] at hq ⊢; exact .inl hq)) (Nat.le_refl _) fun _ _ _ => rfl
  · obtain ⟨L', h1, h2, h3⟩ := h.labels whole hf L fun e he => hL e (List.mem_append_left _ he)
    refine ⟨L', h1, h2, fun e he => ?_⟩
    rcases List.mem_append.1 he with he | he
    · exact h3 e he
    · rw [h1 e.1 (hb e.1 (List.mem_map_of_mem he))]
      exact hL e (List.mem_append_right _ he)

/-- A floating node that is no phi. -/
theorem float {n : Node} (hk : n.kind.isFixed = false) (hp : n.kind ≠ .phi) (hs : n.Narrowed)
    (hn : (keys A).Nodup) (hb : ∀ q ∈ keys A, q < g.nodes.size) : Emits X A g (g.add n).1 A where
  before := hb
  size := by simp
  old id hid := by rw [Graph.node?_add, if_neg (Nat.ne_of_lt hid)]
  nodup := hn
  ends _ hq := .inl hq
  nodes m n' hm hn' := by
    obtain rfl : m = g.nodes.size := by
      have := Graph.lt_size_of_node? hn'
      rw [Graph.size_add] at this
      exact Nat.le_antisymm (Nat.lt_succ_iff.1 this) hm
    rw [Graph.node?_add, if_pos rfl] at hn'
    cases hn'
    exact .floating hk hp hs
  labels whole hf L hL := by
    refine ⟨L, fun _ _ => rfl, fun m n' q h1 h2 hn' hk' _ => ?_, hL⟩
    obtain rfl : m = g.nodes.size := by
      rw [Graph.size_add] at h2
      exact Nat.le_antisymm (Nat.lt_succ_iff.1 h2) h1
    rw [hf.new _ h1 h2, Graph.node?_add, if_pos rfl] at hn'
    cases hn'
    simp [hk] at hk'

end Emits

end Specialize

end TieredEngine

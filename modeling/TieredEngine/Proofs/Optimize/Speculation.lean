import TieredEngine.Proofs.Optimize.Reductions
import TieredEngine.Proofs.Specialize.Shape
import TieredEngine.Proofs.Specialize.Speculation
/-!
# Guards in optimized graphs

Rewrites take guards out and change what they read, but a guard that stays
keeps its check, its reason and the shape of its frame. So the guards of an
optimized graph rest on what those of the specialized graph rest on:
`Rewrites.grounded`.
-/

namespace TieredEngine

namespace Graph

variable {g g' : Graph} {G : Grounds} {n n' : Node}

/-- A node that hands over does so on the same grounds after its edges were
renamed, if its frame and the parameter that it reads are still there. -/
theorem Grounded.renamed (h : g.Grounded G n) (f : NodeId → NodeId) (hk : n'.kind = n.kind)
    (hi : n'.inputs = n.inputs.map f) (hs : n'.state = n.state.map f)
    (hframe : ∀ s ns, s ∈ n.state → g.node? s = some ns → ns.kind.isFrameState →
      ∃ ns', g'.node? (f s) = some ns' ∧ ns'.kind = ns.kind ∧ ns'.inputs = ns.inputs.map f)
    (hparameter : ∀ x i, x ∈ n.inputs → g.kind? x = some (.parameter i) →
        g'.kind? (f x) = some (.parameter i)) :
    g'.Grounded G n' := by
  unfold Grounded at h ⊢
  rw [hk]
  split
  · rename_i check reason hkind
    rw [hkind] at h
    obtain ⟨x, s, ns, shape, h1, h2, h3, h4, h5, h6⟩ := h
    obtain ⟨ns', hns', hk', hin'⟩ := hframe s ns h2 h3 (by rw [h4]; rfl)
    have hcount : ns'.inputs.length = ns.inputs.length := by rw [hin', List.length_map]
    have hbacks := h5.input fun i => hparameter x i (by simp [h1])
    refine ⟨f x, f s, ns', shape, by rw [hi, h1]; rfl, by rw [hs, h2]; rfl, hns', hk'.trans h4,
      hcount ▸ hbacks, fun expected hcheck => ?_⟩
    rw [hin', List.getLast?_map, h6 expected hcheck]
    rfl
  · rename_i reason hkind
    rw [hkind] at h
    exact h
  · trivial

/-- The same where no edge was renamed. -/
theorem Grounded.same (h : g.Grounded G n) (hk : n'.kind = n.kind) (hi : n'.inputs = n.inputs)
    (hs : n'.state = n.state)
    (hfloat : ∀ x nx, x ∈ n.dataEdges → g.node? x = some nx → nx.kind.isFixed = false →
      nx.kind ≠ .phi →
      nx.kind.isOperator = false → ∃ nx', g'.node? x = some nx' ∧ nx'.kind = nx.kind ∧
        nx'.inputs = nx.inputs) :
    g'.Grounded G n' := by
  refine h.renamed id hk (by simp [hi]) (by simp [hs]) (fun s ns hmem hns hframe => ?_)
    fun x i hx hkx => ?_
  · have hkind : ∃ shape, ns.kind = .frameState shape := by
      revert hframe
      cases ns.kind <;> simp [NodeKind.isFrameState]
    obtain ⟨shape, hkind⟩ := hkind
    obtain ⟨ns', h1, h2, h3⟩ := hfloat s ns (by simp [Node.dataEdges, Option.mem_def.1 hmem]) hns
      (by rw [hkind]; rfl) (by simp [hkind]) (by rw [hkind]; rfl)
    exact ⟨ns', h1, h2, by simp [h3]⟩
  · obtain ⟨nx, hnx, hkx⟩ := kind?_eq_some.1 hkx
    obtain ⟨nx', h1, h2, -⟩ := hfloat x nx (by simp [Node.dataEdges, hx]) hnx (by rw [hkx]; rfl)
      (by simp [hkx]) (by rw [hkx]; rfl)
    exact kind?_eq_some.2 ⟨nx', h1, h2.trans hkx⟩

/-- Replacing a value keeps grounds, if what stands in for a frame or a
parameter is the same. -/
theorem AllGrounded.replaceValue {old new : NodeId} (h : g.AllGrounded G)
    (hold : ∀ no, g.node? old = some no → no.kind.isFrameState ∨ (∃ i, no.kind = .parameter i) →
      new ≠ old ∧ g.node? new = some no) :
    (g.replaceValue old new).AllGrounded G := by
  intro m n' hn'
  obtain ⟨-, n, hn, rfl⟩ := node?_replaceValue_eq_some.1 hn'
  have hthere : ∀ x nx, g.node? x = some nx → nx.kind.isFrameState ∨ (∃ i, nx.kind = .parameter i) →
      (g.replaceValue old new).node? (redirect old new x) = some (nx.redirected old new) := by
    intro x nx hnx hk
    by_cases hx : x = old
    · subst hx
      obtain ⟨hne, hnew⟩ := hold nx hnx hk
      rw [redirect_self]
      exact node?_redirected new hne hnew
    · rw [redirect_of_ne hx]
      exact node?_redirected new hx hnx
  refine (h m n hn).renamed (redirect old new) rfl rfl rfl (fun s ns _ hns hframe => ?_)
    fun x i _ hkx => ?_
  · exact ⟨_, hthere s ns hns (.inl hframe), rfl, rfl⟩
  · obtain ⟨nx, hnx, hkx⟩ := kind?_eq_some.1 hkx
    exact kind?_eq_some.2 ⟨_, hthere x nx hnx (.inr ⟨i, hkx⟩), hkx⟩

theorem AllGrounded.spliced {p first w : NodeId} (h : g.AllGrounded G) (hs : g.Splice p first w) :
    (g.spliced p first w).AllGrounded G := by
  intro m n' hn'
  obtain ⟨-, -, n, hn, rfl⟩ := node?_spliced_eq_some.1 hn'
  exact (h m n hn).same rfl rfl rfl fun x nx _ hnx hk _ _ => ⟨_, hs.node?_floating hnx hk, rfl, rfl⟩

/-- Every rewrite keeps the grounds of guards. -/
theorem Rewrite.grounded (h : g.Rewrite g') (hf : g.Formed) (hg : g.AllGrounded G) :
    g'.AllGrounded G := by
  cases h with
  | constant v =>
    intro m n hn
    have hkeep : g.Extends (g.newConstant v).1 := extends_newConstant g v
    change (g.add { kind := .constant v }).1.node? m = some n at hn
    rw [node?_add] at hn
    split at hn
    · cases hn
      exact .of_other (by simp) (by simp)
    · exact (hg m n hn).same rfl rfl rfl fun x nx _ hnx _ _ _ =>
        ⟨nx, (hkeep.same x (lt_size_of_node? hnx)).trans hnx, rfl, rfl⟩
  | simplify hs =>
    obtain ⟨no, hno, hop⟩ := hs.operator
    refine hg.replaceValue fun no' hno' hk => ?_
    obtain rfl := Option.some.inj (hno.symm.trans hno')
    exfalso
    revert hop hk
    cases no.kind <;> simp [NodeKind.isOperator, NodeKind.isFrameState]
  | share hold hnew hne _ =>
    refine hg.replaceValue fun no hno _ => ?_
    obtain rfl := Option.some.inj (hold.symm.trans hno)
    exact ⟨hne, hnew⟩
  | phi hold hk _ _ _ =>
    refine hg.replaceValue fun no hno hkind => ?_
    obtain rfl := Option.some.inj (hold.symm.trans hno)
    simp [hk, NodeKind.isFrameState] at hkind
  | @swap m₀ n₀ op x y hm hk _ hin =>
    intro m n hn
    have hnode := node?_swapped hm hin
    rw [hnode] at hn
    split at hn
    · cases hn
      exact .of_other (by simp [hk]) (by simp [hk])
    · refine (hg m n hn).same rfl rfl rfl fun z nz _ hnz _ _ hop => ⟨nz, ?_, rfl, rfl⟩
      rw [hnode, if_neg ?_, hnz]
      rintro rfl
      obtain rfl := Option.some.inj (hm.symm.trans hnz)
      rw [hk] at hop
      cases hop
  | join hn hk hc hp => exact hg.spliced (splice_join hn hk hc hp)
  | guard hn hk _ hc _ => exact hg.spliced (splice_guard hf.orderly.skeleton hn hk hc)
  | @branch _ _ _ _ b _ _ hn hk _ hc _ hs =>
    have hsplice := splice_branch hf.orderly hn hk hc hs b
    have hsk := hsplice.skeleton_spliced hf.orderly
    have hcut := cut_cutUnreachable hsk
    intro m n' hn'
    obtain ⟨n₁, hn₁, hkind, -, -, hstate, hin, -⟩ := hcut.exists_old hsk hn'
    by_cases hphi : n₁.kind = .phi
    · exact .of_other (by simp [hkind, hphi]) (by simp [hkind, hphi])
    · refine (hg.spliced hsplice m n₁ hn₁).same hkind (hin hphi) hstate fun x nx _ hnx hk hp _ => ?_
      exact ⟨nx, hcut.floating hnx hk hp, rfl, rfl⟩
  | sweep =>
    intro m n hn
    obtain ⟨hn, halive⟩ := node?_sweepDead.1 hn
    refine (hg m n hn).same rfl rfl rfl fun x nx hx hnx _ _ _ =>
      ⟨nx, node?_sweepDead.2 ⟨hnx, ?_⟩, rfl, rfl⟩
    refine alive_of_edge halive hn ?_ (by simp [contains, hnx])
    simp only [Node.dataEdges, List.mem_append] at hx
    simp only [Node.edges, List.mem_append]
    exact hx.elim (fun h => .inl (.inl h)) .inr

theorem Rewrites.grounded (h : Rewrites g g') (hf : g.Formed) (hg : g.AllGrounded G) :
    g'.AllGrounded G := by
  induction h with
  | refl => exact hg
  | tail h₁ h₂ ih => exact h₂.grounded (Rewrites.formed h₁ hf) ih

end Graph

end TieredEngine

import TieredEngine.Proofs.Optimize.Reductions
import TieredEngine.Proofs.Optimize.Values
/-!
# Rewrites of control

A node that is spliced out of the control chain only passed control on: a
merge that joins nothing, a guard whose check holds, a branch on a constant
with its side. So the graph without it makes the same steps but for those
(`runsAlike_spliced`). A guard whose check was made before holds because what
it reads cannot have changed since: `Reach.checked_holds`. Cutting off control
that is never reached and sweeping dead nodes change no step.
`runsAlike_of_rewrites` is that all rewrites run alike.
-/

namespace TieredEngine

open Optimize

/-! ## Splices -/

namespace Graph.Splice

open TieredEngine.Code

variable {g : Graph} {arguments : List Value} {p first w s : NodeId} {κ κ' : Config}

/-- Where control comes from once the nodes between are gone. -/
def came (p first w : NodeId) (q : NodeId) : NodeId := if q = first ∨ q = w then p else q

/-- Where control goes once the nodes between are gone, if it went on from
them to `s`. -/
def goes (first w s : NodeId) (m : NodeId) : NodeId := if m = first ∨ m = w then s else m

/-- The node is one of those between. -/
def Gone (first w : NodeId) (m : NodeId) : Prop := m = first ∨ m = w

theorem came_of_not_gone {q : NodeId} (h : ¬ Gone first w q) : came p first w q = q := if_neg h

theorem goes_of_not_gone {m : NodeId} (h : ¬ Gone first w m) : goes first w s m = m := if_neg h

theorem came_of_gone {q : NodeId} (h : Gone first w q) : came p first w q = p := if_pos h

theorem goes_of_gone {m : NodeId} (h : Gone first w m) : goes first w s m = s := if_pos h

variable (h : g.Splice p first w) (hf : g.Formed) (hs : ∀ m, g.Follows w m ↔ m = s)

include h hf

theorem not_gone_before :
    ¬ Gone first w p := fun hp => hp.elim (h.ne_first hf.orderly) (h.ne_last hf.orderly)

include hs

theorem not_gone_next : ¬ Gone first w s := by
  obtain ⟨h1, h2⟩ := h.next_ne hf.orderly ((hs s).2 rfl)
  exact fun hg => hg.elim h1 h2

/-- The graph without the nodes between mirrors the one with them. -/
theorem mirrors :
    g.Mirrors (g.spliced p first w) id (came p first w) (goes first w s) (Gone first w) where
  stays hm := ⟨goes_of_not_gone hm, came_of_not_gone hm⟩
  node {m n} hn _ _ hm := by
    refine ⟨_, node?_rerouted (fun he => hm (.inl he)) (fun he => hm (.inr he)) hn, rfl, ?_, ?_⟩
    · rw [List.map_id]
      rfl
    · rw [Option.map_id]
      rfl
  next {m t} _ hm hfo := by
    by_cases hmp : m = p
    · -- behind the node before come the nodes between
      subst hmp
      obtain ⟨k, -, -, hopen⟩ := h.open_before hf.orderly
      obtain rfl := (hopen t).1 hfo
      obtain ⟨n, hn, -, hside, -⟩ := h.head
      have hnext : g.Follows w s := (hs s).2 rfl
      obtain ⟨h1, h2⟩ := h.next_ne hf.orderly hnext
      rw [goes_of_gone (.inl rfl)]
      refine ⟨follows_spliced.2 ⟨h1, h2, .inr ⟨rfl, hnext⟩⟩, fun k hk hks => ?_⟩
      rw [kind?_of_node? hn hk, hks] at hside
      cases hside
    · have hfirst : t ≠ first := by
        rintro rfl
        exact hmp (h.eq_of_follows_first hfo)
      have hlast : t ≠ w := by
        rintro rfl
        exact hm (.inl (h.eq_of_follows_last hf.orderly hfo hfirst))
      rw [goes_of_not_gone fun hg => hg.elim hfirst hlast]
      exact ⟨follows_spliced.2 ⟨hfirst, hlast, .inl ⟨fun he => hm (.inr he), hfo⟩⟩,
        fun k hk _ => kind?_spliced hk hfirst hlast⟩
  phis {m x} _ _ := by
    constructor
    · intro hx
      obtain ⟨n', hn', hk, hc⟩ := mem_phisOf.1 hx
      obtain ⟨-, -, n, hn, rfl⟩ := node?_spliced_eq_some.1 hn'
      rw [h.phi_control hf.orderly hn hk] at hc
      exact ⟨mem_phisOf.2 ⟨n, hn, hk, hc⟩, Option.isSome_iff_exists.2 ⟨_, hn'⟩⟩
    · rintro ⟨hx, -⟩
      obtain ⟨n, hn, hk, hc⟩ := mem_phisOf.1 hx
      refine mem_phisOf.2 ⟨_, h.node?_floating hn (by rw [hk]; rfl), hk, ?_⟩
      rw [h.phi_control hf.orderly hn hk, hc]
  edge {m n n' q i} hn hk hr hm hn' _ hq := by
    have hfix := NodeKind.isFixed_of_isMerge hk
    obtain ⟨-, -, n₀, hn₀, rfl⟩ := node?_spliced_eq_some.1 hn'
    obtain rfl := Option.some.inj (hn.symm.trans hn₀)
    refine ⟨i, ?_, fun x px px' y hp hp' _ hy => ?_⟩
    · have hred : redirect w p q = came p first w q := by
        by_cases hqw : q = w
        · rw [hqw, redirect_self, came_of_gone (.inr rfl)]
        have hqf : q ≠ first := by
          rintro rfl
          obtain ⟨hkb, -⟩ := h.between.resolve_left (Ne.symm hqw)
          obtain ⟨n₁, hn₁, hside, -⟩ :=
            hf.orderly.side_of_branch hkb ⟨n, hn, hfix, List.mem_of_getElem? hq⟩
          obtain rfl := Option.some.inj (hn.symm.trans hn₁)
          revert hk hside
          cases n.kind <;> simp [NodeKind.isMerge, NodeKind.isSide]
        rw [redirect_of_ne hqw, came_of_not_gone fun hg => hg.elim hqf hqw]
      rw [Node.rerouted, List.getElem?_map, hq, Option.map_some, hred]
    · obtain ⟨-, -, p₀, hp₀, rfl⟩ := node?_spliced_eq_some.1 hp'
      obtain rfl := Option.some.inj (hp.symm.trans hp₀)
      exact hy

omit hf hs in
theorem carries (hκ : Shadows (g.spliced p first w) (came p first w) (goes first w s) κ κ') :
    Carries g (g.spliced p first w) arguments id (came p first w) κ κ' := by
  refine carries_of_denotes (fun {t n shape} hn hk _ => ?_) fun _ _ ha hd => ?_
  · refine ⟨_, h.node?_floating hn (by rw [hk]; rfl), rfl, ?_, ?_⟩
    · rw [List.map_id]
      rfl
    · rw [Option.map_id]
      rfl
  · refine denotes_of_same (fun hn hn' => ?_) hκ.bindings ha hd
    obtain ⟨-, -, n₀, hn₀, rfl⟩ := node?_spliced_eq_some.1 hn'
    obtain rfl := Option.some.inj (hn.symm.trans hn₀)
    exact ⟨rfl, fun _ => ⟨rfl, rfl⟩⟩

/-- How many of the nodes between are still to be passed. -/
def left (first w : NodeId) (m : NodeId) : ℕ := if m = first then 2 else if m = w then 1 else 0

omit hs in
/-- Control comes to the nodes between from the node before. -/
theorem previous_gone (hκ : Reach g arguments κ) (hgone : Gone first w κ.current) :
    κ.previous.map (came p first w) = some p := by
  rcases hκ.at_edge with rfl | ⟨q, hq, -, hfo⟩
  · exact hgone.elim (fun he => absurd he.symm (h.first_ne_start hf.orderly)) fun he =>
      absurd he.symm (h.last_ne_start hf.orderly)
  rw [hq, Option.map_some]
  by_cases hfirst : κ.current = first
  · rw [hfirst] at hfo
    rw [h.eq_of_follows_first hfo, came_of_not_gone (h.not_gone_before hf)]
  · have hlast := hgone.resolve_left hfirst
    rw [hlast] at hfo hfirst
    rw [h.eq_of_follows_last hf.orderly hfo hfirst, came_of_gone (.inl rfl)]

/-- The nodes between only pass control on, to the last of them and from there
to what follows. -/
theorem passes (hκ : Reach g arguments κ)
    (hsh : Shadows (g.spliced p first w) (came p first w) (goes first w s) κ κ')
    (hgone : Gone first w κ.current) (hlast : κ.current = w → ∃ us, κ.Does g arguments (.pass us))
    (hfirst : κ.current = first → first ≠ w → ∃ b, κ.Does g arguments (.side b) ∧
      ∀ t, g.Follows first t → g.kind? t = some (if b then .onTrue else .onFalse) → t = w) :
    (∀ x, ¬ Ends g arguments κ x) ∧ ∀ l κ₁, Steps g arguments κ l κ₁ → l = .silent ∧
      Shadows (g.spliced p first w) (came p first w) (goes first w s) κ₁ κ' ∧
        left first w κ₁.current < left first w κ.current := by
  have hown : ∀ x, ¬ Owns g κ.current x := fun x ho =>
    hgone.elim (fun he => h.not_owns_first (he ▸ ho)) fun he => h.not_owns_last (he ▸ ho)
  obtain ⟨e, hd, he, hnext⟩ : ∃ e, κ.Does g arguments e ∧
      ((∃ us, e = .pass us) ∨ ∃ b, e = .side b) ∧ ∀ l κ₁, Steps g arguments κ l κ₁ →
      (κ.current = w ∧ κ₁.current = s) ∨ (κ.current = first ∧ first ≠ w ∧ κ₁.current = w) := by
    by_cases hw : κ.current = w
    · obtain ⟨us, hd⟩ := hlast hw
      exact ⟨_, hd, .inl ⟨us, rfl⟩, fun l κ₁ hst => .inl ⟨hw, (hs _).1 (hw ▸ hst.edge.2)⟩⟩
    · have hne : first ≠ w := fun heq => hw (hgone.elim (·.trans heq) fun h => h)
      have hcur := hgone.resolve_right hw
      obtain ⟨b, hd, hside⟩ := hfirst hcur hne
      refine ⟨_, hd, .inr ⟨b, rfl⟩, fun l κ₁ hst => .inr ⟨hcur, hne, ?_⟩⟩
      cases hst with
      | pass hd' => cases Effects.unique hd hd'
      | call _ hd' => cases Effects.unique hd hd'
      | side hd' hfo hk =>
        cases Effects.unique hd hd'
        exact hside _ (hcur ▸ hfo) hk
  refine ⟨fun x hends => ?_, fun l κ₁ hst => ?_⟩
  · cases hends with
    | fail hd' | finish hd' =>
      cases Effects.unique hd hd'
      rcases he with ⟨us, he⟩ | ⟨b, he⟩ <;> cases he
  · refine ⟨?_, ⟨?_, ?_, fun x hx => (hsh.bindings x hx).trans (hst.bindings_eq (hown x)).symm⟩, ?_⟩
    · cases hst with
      | pass | side => rfl
      | call _ hd' =>
        cases Effects.unique hd hd'
        rcases he with ⟨us, he⟩ | ⟨b, he⟩ <;> cases he
    · rw [hsh.current, goes_of_gone hgone]
      rcases hnext l κ₁ hst with ⟨-, h1⟩ | ⟨-, -, h1⟩
      · rw [h1, goes_of_not_gone (h.not_gone_next hf hs)]
      · rw [h1, goes_of_gone (.inr rfl)]
    · rw [hsh.previous, h.previous_gone hf hκ hgone, hst.edge.1, Option.map_some,
        came_of_gone hgone]
    · obtain ⟨hs1, hs2⟩ := h.next_ne hf.orderly ((hs s).2 rfl)
      rcases hnext l κ₁ hst with ⟨h1, h2⟩ | ⟨h1, h2, h3⟩
      · rw [h1, h2, left, if_neg hs1, if_neg hs2, left]
        split <;> simp
      · rw [h1, h3, left, if_neg h2.symm, if_pos rfl, left, if_pos rfl]
        omega

end Graph.Splice

namespace Code

open TieredEngine.Graph

variable {g g' : Graph} {arguments : List Value} {κ : Config} {p first w m x : NodeId} {n : Node}

/-- A graph runs as it does without nodes that only pass control on. -/
theorem runsAlike_spliced (h : g.Splice p first w) (hf : g.Formed) (hsafe : Safe g arguments)
    (hlast : ∀ {κ}, Reach g arguments κ → κ.current = w → ∃ us, κ.Does g arguments (.pass us))
    (hfirst : ∀ {κ}, Reach g arguments κ → κ.current = first → first ≠ w →
      ∃ b, κ.Does g arguments (.side b) ∧
      ∀ t, g.Follows first t → g.kind? t = some (if b then .onTrue else .onFalse) → t = w) :
    RunsAlike g (g.spliced p first w) arguments := by
  obtain ⟨nw, hnw, hopen, -⟩ := h.last
  have hfix := (NodeKind.isOpen_iff.1 hopen).1
  obtain ⟨s, hs⟩ := (hf.closed.goesOn w nw hnw hfix (hf.trim w nw hnw hfix) (by simp)).single hopen
  have hg' : (g.spliced p first w).Runnable := ⟨h.wired_spliced hf, h.openAt_spliced hf.orderly⟩
  have hstart : ¬ Splice.Gone first w Graph.start := fun hg =>
    hg.elim (fun he => h.first_ne_start hf.orderly he.symm) fun he =>
      h.last_ne_start hf.orderly he.symm
  have hsim : Simulates g (g.spliced p first w) arguments
      (Shadows (g.spliced p first w) (Splice.came p first w) (Splice.goes first w s))
        (Splice.left first w) :=
    simulates_of_mirrors hf.runnable hg' (h.mirrors hf hs) hstart (fun _ hsh => h.carries hsh)
      fun hκ hsh hgone => h.passes hf hs hκ hsh hgone (hlast hκ) (hfirst hκ)
  exact hsim.runsAlike hsafe hg'

/-- A merge that joins nothing. -/
theorem runsAlike_join (hf : g.Formed) (hsafe : Safe g arguments) (hn : g.node? m = some n)
    (hk : n.kind.isMerge) (hc : n.control = [p]) (hp : g.phisOf m = []) :
    RunsAlike g (g.spliced p m m) arguments := by
  refine runsAlike_spliced (splice_join hn hk hc hp) hf hsafe (fun {κ} hκ hcur => ⟨[], ?_⟩)
    fun _ _ hne => absurd rfl hne
  have hn' : g.node? κ.current = some n := hcur ▸ hn
  obtain ⟨q, hq, -, -, hmem⟩ := hκ.exists_previous hf.runnable hn' fun he => by
    rw [he] at hk; cases hk
  obtain rfl : q = p := by simpa [hc] using hmem
  have hindex : (κ.previous.bind fun q => n.control.idxOf? q) = some 0 := by
    rw [hq, Option.bind_some, hc]
    exact idxOf?_of_nodup (List.nodup_singleton q) rfl
  refine .merge hn' hk hindex ?_
  rw [hcur, hp]
  exact .nil

/-! ## Guards -/

theorem type_of_binary {op : BinaryOp} {a b v : Value} (h : op.apply a b = .ok v) :
    v.type = op.resultType := by
  cases op <;> cases a <;> cases b <;>
    simp_all [BinaryOp.apply, BinaryOp.onInts, BinaryOp.resultType] <;> subst h <;> rfl

theorem type_of_unary {op : UnaryOp} {a v : Value} (h : op.apply a = .ok v) :
    v.type = op.resultType := by
  cases op <;> cases a <;> simp_all [UnaryOp.apply, UnaryOp.resultType, UnaryOp.operandType] <;>
    subst h <;> rfl

/-- A check that is known to hold does. -/
theorem holds_of_knownToHold {check : GuardCheck} {ρ : Bindings} {v : Value}
    (h : knownToHold g check x) (hd : Denotes g arguments ρ x v) : check.holds v := by
  unfold knownToHold at h
  split at h
  · rename_i u hu
    obtain ⟨k, hk⟩ := hd.exists_depth
    rw [hk.eq_constant hu]
    exact h
  · rename_i t hnone
    obtain ⟨k, hk, hstamp⟩ := Option.bind_eq_some_iff.1 (of_decide_eq_true h)
    obtain ⟨n, hn, rfl⟩ := kind?_eq_some.1 hk
    have htype : v.type = t := by
      cases hd with
      | constant hn' hk' =>
        obtain rfl := Option.some.inj (hn.symm.trans hn')
        rw [hk'] at hstamp
        exact Option.some.inj hstamp
      | binary hn' hk' _ _ _ _ ho =>
        obtain rfl := Option.some.inj (hn.symm.trans hn')
        rw [hk'] at hstamp
        exact (type_of_binary ho).trans (Option.some.inj hstamp)
      | unary hn' hk' _ _ ho =>
        obtain rfl := Option.some.inj (hn.symm.trans hn')
        rw [hk'] at hstamp
        exact (type_of_unary ho).trans (Option.some.inj hstamp)
      | parameter hn' hk' =>
        obtain rfl := Option.some.inj (hn.symm.trans hn')
        rw [hk'] at hstamp
        cases hstamp
      | register hn' hr =>
        obtain rfl := Option.some.inj (hn.symm.trans hn')
        revert hr hstamp
        cases n.kind <;> simp [NodeKind.isRegister, NodeKind.stamp]
    exact decide_eq_true htype
  · cases h

/-- A check that was made comes from a guard that control has passed, and what
it reads was available before that. -/
theorem exists_guard {check : GuardCheck} (hf : g.Formed) (h : g.Checked check x m) :
    ∃ k r, g.Available r x ∧ ¬ g.Dominates k r ∧ g.Dominates k m := by
  induction h with
  | @here m n reason hn hk hi =>
    have hfix : n.kind.isFixed := by rw [hk]; rfl
    obtain ⟨r, hr⟩ := Counted.exists_control (hf.wired.counted m n hn) hfix (by simp [hk])
    have hfo : g.Follows r m := ⟨n, hn, hfix, hr⟩
    have hmerge : n.kind.isMerge = false := by rw [hk]; rfl
    have hreach := hf.trim m n hn hfix
    exact ⟨m, r, hf.wired.inputs m n r x hn hfix hreach hr (List.mem_of_getElem? hi),
      not_dominates_of_follows hf.runnable hreach hn hmerge hfo, .refl m⟩
  | @behind q m n hn hfix hmerge hq _ ih =>
    obtain ⟨k, r, h1, h2, h3⟩ := ih
    have hfo : g.Follows q m := ⟨n, hn, hfix, hq⟩
    refine ⟨k, r, h1, h2, dominates_of_follows (hf.wired.ne_start_of_follows hfo) fun q' hq' => ?_⟩
    exact hf.wired.eq_of_follows hn hmerge hfo hq' ▸ h3

/-- Behind a guard, and until another path joins, the value passes the check. -/
theorem Reach.checked_holds {check : GuardCheck} (hf : g.Formed) (h : Reach g arguments κ) :
    ∀ {q v}, κ.previous = some q → g.Checked check x q → Denotes g arguments κ.bindings x v →
      check.holds v := by
  induction h with
  | start => exact fun hq => by cases hq
  | @step κ l κ₁ hκ hs ih =>
    intro q v hq hchecked hd
    obtain rfl : κ.current = q := Option.some.inj (hs.edge.1.symm.trans hq)
    have hbefore : Denotes g arguments κ.bindings x v := by
      refine hd.congr_asks fun y hy => (hs.bindings_eq fun ho => ?_).symm
      obtain ⟨k, r, hav, h1, h2⟩ := exists_guard hf hchecked
      exact h1 (h2.trans (hav.dominates hf.wired.counted hy ho))
    cases hchecked with
    | here hn hk hi =>
      cases hs with
      | pass hd' =>
        cases hd' with
        | holds hn' hk' hi' hd' hv =>
          obtain rfl := Option.some.inj (hn.symm.trans hn')
          obtain ⟨rfl, -⟩ := NodeKind.guard.inj (hk.symm.trans hk')
          obtain rfl := Option.some.inj (hi.symm.trans hi')
          exact hbefore.unique hd' ▸ hv
        | step hn' hk' =>
          obtain rfl := Option.some.inj (hn.symm.trans hn')
          simp [hk] at hk'
        | merge hn' hk' =>
          obtain rfl := Option.some.inj (hn.symm.trans hn')
          simp [hk, NodeKind.isMerge] at hk'
      | side hd' =>
        obtain ⟨n', hn', hk'⟩ := Effects.branch_of_side hd'
        obtain rfl := Option.some.inj (hn.symm.trans hn')
        simp [hk] at hk'
      | call _ hd' =>
        cases hd' with
        | call hn' hk' =>
          obtain rfl := Option.some.inj (hn.symm.trans hn')
          simp [hk] at hk'
    | behind hn hfix hmerge hq' hchecked =>
      obtain ⟨q, hprev, -, hfo, -⟩ := hκ.exists_previous hf.runnable hn fun he => by
        have := hf.wired.counted _ _ hn
        simp only [Node.Counted, he] at this
        simp [this] at hq'
      obtain rfl := hf.wired.eq_of_follows hn hmerge hfo ⟨_, hn, hfix, hq'⟩
      exact ih hprev hchecked hbefore

/-- A guard that must hold, or whose check was made before. -/
theorem runsAlike_guard {check : GuardCheck} {reason : DeoptReason} (hf : g.Formed)
    (hsafe : Safe g arguments) (hn : g.node? m = some n) (hk : n.kind = .guard check reason)
    (hi : n.inputs = [x]) (hc : n.control = [p])
    (hholds : knownToHold g check x ∨ g.Checked check x p) :
    RunsAlike g (g.spliced p m m) arguments := by
  refine runsAlike_spliced (splice_guard hf.orderly.skeleton hn hk hc) hf hsafe
    (fun {κ} hκ hcur => ⟨[], ?_⟩) fun _ _ hne => absurd rfl hne
  have hn' : g.node? κ.current = some n := hcur ▸ hn
  obtain ⟨q, hq, -, -, hmem⟩ := hκ.exists_previous hf.runnable hn' (by simp [hk])
  obtain rfl : q = p := by simpa [hc] using hmem
  -- the guard reads a value, since the run is not stuck
  obtain ⟨e, he⟩ : ∃ e, κ.Does g arguments e := by
    rcases hsafe κ hκ with ⟨r, hends⟩ | ⟨l, κ₁, hs⟩
    · cases hends <;> exact ⟨_, ‹_›⟩
    · cases hs <;> exact ⟨_, ‹_›⟩
  have he' := (effects_iff hn').1 he
  unfold EffectAt at he'
  rw [hk] at he'
  obtain ⟨y, v, hy, hd, -⟩ := he'
  obtain rfl : x = y := by simpa [hi] using hy
  refine .holds hn' hk (by rw [hi]; rfl) hd ?_
  rcases hholds with h | h
  · exact holds_of_knownToHold h hd
  · exact hκ.checked_holds hf hq h hd

/-! ## Branches -/

/-- A branch on a constant, with the side that is taken. -/
theorem runsAlike_branch {b : Bool} {onTrue onFalse : NodeId} (hf : g.Formed)
    (hsafe : Safe g arguments) (hn : g.node? m = some n) (hk : n.kind = .branch)
    (hi : n.inputs = [x]) (hc : n.control = [p]) (hb : g.constantAt x = some (.bool b))
    (hs : g.successors m = [onTrue, onFalse]) :
    RunsAlike g (g.spliced p m (if b then onTrue else onFalse)) arguments := by
  have hfix : n.kind.isFixed := by rw [hk]; rfl
  obtain ⟨s, t, hks, hkt, hst⟩ := exists_sides hf.runnable (hf.trim m n hn hfix) hn hk
  obtain ⟨rfl, rfl⟩ : s = onTrue ∧ t = onFalse := by
    have := (successors_eq_of_sides hks hkt hst).symm.trans hs
    simpa using this
  refine runsAlike_spliced (splice_branch hf.orderly hn hk hc hs b) hf hsafe
    (fun {κ} hκ hcur => ⟨[], ?_⟩) fun {κ} hκ hcur _ => ⟨b, ?_, fun u hfo hku => ?_⟩
  · have hside : g.kind? κ.current = some (if b then .onTrue else .onFalse) := by
      rw [hcur]
      cases b
      · exact hkt
      · exact hks
    obtain ⟨nw, hnw, hkw⟩ := kind?_eq_some.1 hside
    exact .step hnw (by cases b <;> simp [hkw])
  · obtain ⟨k, hkx, hka⟩ := Option.bind_eq_some_iff.1 hb
    obtain ⟨nx, hnx, rfl⟩ := kind?_eq_some.1 hkx
    have hconst : nx.kind = .constant (.bool b) := by
      revert hka
      cases nx.kind <;> simp [NodeKind.constant?]
    exact .side (hcur ▸ hn) hk (by rw [hi]; rfl) (.constant hnx hconst)
  · rcases (hst u).1 hfo with rfl | rfl
    · rw [hks] at hku
      cases b <;> simp_all
    · rw [hkt] at hku
      cases b <;> simp_all

/-! ## Control that is never reached -/

/-- What stands at a marked place stands at one place afterwards, in all
lists. -/
theorem exists_kept {marks : List Bool} {i : ℕ} (h : marks[i]? = some true) :
    ∃ j : ℕ, ∀ (xs : List NodeId) (x : NodeId), xs[i]? = some x →
      (keepMarked xs marks)[j]? = some x := by
  induction marks generalizing i with
  | nil => simp at h
  | cons b marks ih =>
    cases i with
    | zero =>
      obtain rfl : b = true := by simpa using h
      refine ⟨0, fun xs x hx => ?_⟩
      cases xs with
      | nil => simp at hx
      | cons y xs => rwa [keepMarked_cons, if_pos rfl]
    | succ i =>
      obtain ⟨j, hj⟩ := ih (by simpa using h)
      refine ⟨if b then j + 1 else j, fun xs x hx => ?_⟩
      cases xs with
      | nil => simp at hx
      | cons y xs =>
        have hrest := hj xs x (by simpa using hx)
        rw [keepMarked_cons]
        cases b
        · exact hrest
        · exact hrest

/-- Cutting off what is never reached leaves a mirror. -/
theorem mirrors_of_cut (h : g.Cut g') (hsk : g.Skeleton) :
    g.Mirrors g' id id id fun _ => False where
  stays _ := ⟨rfl, rfl⟩
  node hn hk hr _ := by
    obtain ⟨n', hn', hkind, hi, hs, -⟩ := h.fixed hsk hn hk hr
    exact ⟨n', hn', hkind, by rw [hi, List.map_id], by rw [hs, Option.map_id]; rfl⟩
  next {m t} hr _ hfo := by
    refine ⟨(h.follows hsk).2 ⟨hfo, hr⟩, fun k hk hside => ?_⟩
    obtain ⟨n, hn, rfl⟩ := kind?_eq_some.1 hk
    obtain ⟨n', hn', hkind, -⟩ := h.fixed hsk hn (NodeKind.isFixed_of_isSide hside) (hr.step hfo)
    exact kind?_eq_some.2 ⟨n', hn', hkind⟩
  phis {m x} hr _ := by
    constructor
    · intro hx
      obtain ⟨n', hn', hk, hc⟩ := mem_phisOf.1 hx
      obtain ⟨n, hn, hkind, -, -, -, -, hcontrol⟩ := h.exists_old hsk hn'
      have hphi : n.kind = .phi := hkind.symm.trans hk
      rw [hcontrol (by rw [hphi]; rfl)] at hc
      exact ⟨mem_phisOf.2 ⟨n, hn, hphi, hc⟩, Option.isSome_iff_exists.2 ⟨n', hn'⟩⟩
    · rintro ⟨hx, -⟩
      obtain ⟨n, hn, hk, hc⟩ := mem_phisOf.1 hx
      obtain ⟨m', hm', -⟩ := hsk.phis x n hn hk
      obtain rfl : m' = m := by simpa [hm'] using hc
      obtain ⟨nm, nm', n', -, -, -, hn', hk', hc', -⟩ := h.phi hsk hn hk hm' hr
      exact mem_phisOf.2 ⟨n', hn', hk', by rw [hc']; rfl⟩
  edge {m n n' q i} hn hk hr _ hn' hrq hq := by
    obtain ⟨live, hlive, hm, hphi⟩ := h.merge m n hn hk hr
    obtain rfl := Option.some.inj (hn'.symm.trans hm)
    have hmark : (n.control.map live)[i]? = some true := by
      rw [List.getElem?_map, hq, Option.map_some, (hlive q (List.mem_of_getElem? hq)).2 hrq]
    obtain ⟨j, hj⟩ := exists_kept hmark
    refine ⟨j, ?_, fun x p p' y hp hp' hx hy => ?_⟩
    · have hkept := hj n.control q hq
      rwa [keepMarked_map] at hkept
    · obtain ⟨p₀, hp₀, hkp, hcp⟩ := mem_phisOf.1 hx
      obtain rfl := Option.some.inj (hp.symm.trans hp₀)
      obtain rfl := Option.some.inj (hp'.symm.trans (hphi x p hp hkp hcp))
      exact hj p.inputs y hy

theorem runsAlike_cut (hg : g.Runnable) (hsafe : Safe g arguments) :
    RunsAlike g g.cutUnreachable.1 arguments := by
  have h := cut_cutUnreachable hg.wired.skeleton
  have hg' : g.cutUnreachable.1.Runnable := ⟨h.wired hg.wired, h.openAt hg.wired.skeleton hg.closed⟩
  have hsim : Simulates g g.cutUnreachable.1 arguments (Shadows g.cutUnreachable.1 id id)
      fun _ => 0 := by
    refine simulates_of_mirrors hg hg' (mirrors_of_cut h hg.wired.skeleton) not_false
      (fun {κ κ'} _ hs => ?_) fun _ _ hgone => hgone.elim
    refine carries_of_denotes (fun {s n shape} hn hk _ => ?_) fun _ _ ha hd => ?_
    · exact ⟨n, h.floating hn (by rw [hk]; rfl) (by simp [hk]), .id n⟩
    · refine denotes_of_same (fun {x n n'} hn hn' => ?_) hs.bindings ha hd
      obtain ⟨n₀, hn₀, hkind, -, -, hstate, hinputs, -⟩ := h.exists_old hg.wired.skeleton hn'
      obtain rfl := Option.some.inj (hn.symm.trans hn₀)
      exact ⟨hkind, fun hp => ⟨hinputs hp, hstate⟩⟩
  exact hsim.runsAlike hsafe hg'

/-! ## Dead nodes -/

theorem runsAlike_sweep (hf : g.Formed) (hsafe : Safe g arguments) :
    RunsAlike g (sweepDead g).1 arguments := by
  have hsame : ∀ {x n n'}, g.node? x = some n → (sweepDead g).1.node? x = some n' → n' = n :=
    fun hn hn' =>
    Option.some.inj ((node?_sweepDead.1 hn').1.symm.trans hn)
  refine runsAlike_of_sameControl id hf (formed_sweepDead hf) hsafe
    (sameControl_sweepDead hf.orderly.skeleton hf.trim)
    (fun hn hn' _ => hsame hn hn' ▸ .id _)
    (fun m n' hn' hle => absurd (lt_size_of_node? (node?_sweepDead.1 hn').1) (Nat.not_lt.2 hle))
    (fun {s n shape} hn _ hin => ?_) fun _ hρ _ _ ha hd => ?_
  · obtain ⟨n', hn'⟩ := Option.isSome_iff_exists.1 hin
    exact ⟨n', hn', hsame hn hn' ▸ .id _⟩
  · refine denotes_of_same (fun hn hn' => ?_) hρ ha hd
    rw [hsame hn hn']
    exact ⟨rfl, fun _ => ⟨rfl, rfl⟩⟩

/-! ## All rewrites -/

/-- A rewrite of a safe graph runs alike. -/
theorem runsAlike_of_rewrite (h : g.Rewrite g') (hf : g.Formed) (hsafe : Safe g arguments) :
    RunsAlike g g' arguments := by
  cases h with
  | constant v => exact runsAlike_newConstant hf hsafe v
  | simplify h => exact runsAlike_simplify hf hsafe h
  | share hn hn' hne hk => exact runsAlike_share hf hsafe hn hn' hne hk
  | phi hn hk hnew _ hall => exact runsAlike_phi hf hsafe hn hk hnew hall
  | swap hn hk hop hi => exact runsAlike_swap hf hsafe hn hk hop hi
  | join hn hk hc hp => exact runsAlike_join hf hsafe hn hk hc hp
  | guard hn hk hi hc hholds => exact runsAlike_guard hf hsafe hn hk hi hc hholds
  | @branch m n x p b onTrue onFalse hn hk hi hc hb hs =>
    have hsplice := splice_branch hf.orderly hn hk hc hs b
    have hfirst := runsAlike_branch hf hsafe hn hk hi hc hb hs
    exact hfirst.trans
      (runsAlike_cut ⟨hsplice.wired_spliced hf, hsplice.openAt_spliced hf.orderly⟩ hfirst.safe)
  | sweep => exact runsAlike_sweep hf hsafe

/-- Rewrites of a safe graph run alike. -/
theorem runsAlike_of_rewrites (h : Rewrites g g') (hf : g.Formed) (hsafe : Safe g arguments) :
    RunsAlike g g' arguments := by
  induction h with
  | refl => exact .refl hsafe
  | tail hrw h ih => exact ih.trans (runsAlike_of_rewrite h (Rewrites.formed hrw hf) ih.safe)

end Code

end TieredEngine

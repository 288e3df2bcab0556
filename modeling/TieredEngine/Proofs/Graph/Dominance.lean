import TieredEngine.Proofs.Code.Trails
/-!
# Ways of control and dominance

`Way` lists the nodes that control passes from the start on, and a node
dominates another one if it is on every way there. A value is available behind
a node if it can be computed there: every register that it reads is set by a
node that dominates this one (`Available`, and `StateAvailable` for chains of
frames). A derivation of availability is finite, so an available value does
not depend on itself.
-/

namespace TieredEngine

namespace Graph

/-! ## Ways -/

/-- Control can go from `q` to `m`. -/
def Follows (g : Graph) (q m : NodeId) : Prop :=
  ∃ n, g.node? m = some n ∧ n.kind.isFixed ∧ q ∈ n.control

/-- Control gets from the start to `m` over the nodes of the list, the latest
first. -/
inductive Way (g : Graph) : NodeId → List NodeId → Prop
  | start : Way g Graph.start []
  | step {q π m} : Way g q π → g.Follows q m → Way g m (q :: π)

/-- Control can get there. -/
def Reached (g : Graph) (m : NodeId) : Prop := ∃ π, g.Way m π

/-- Whatever way control takes to `m`, it passes `d`; a node dominates
itself. -/
def Dominates (g : Graph) (d m : NodeId) : Prop := ∀ π, g.Way m π → d ∈ m :: π

/-- The value of `x` can be computed behind `q`. -/
inductive Available (g : Graph) (q : NodeId) : NodeId → Prop
  | constant {x n v} : g.node? x = some n → n.kind = .constant v → Available g q x
  | parameter {x n i} : g.node? x = some n → n.kind = .parameter i → Available g q x
  | register {x d} : Owns g d x → g.Dominates d q → Available g q x
  | binary {x n op} : g.node? x = some n → n.kind = .binary op → (∀ y ∈ n.inputs, Available g q y) →
      Available g q x
  | unary {x n op} : g.node? x = some n → n.kind = .unary op → (∀ y ∈ n.inputs, Available g q y) →
      Available g q x

/-- The chain of frames that starts at `s` can be handed over behind `q`. -/
inductive StateAvailable (g : Graph) (q : NodeId) : NodeId → Prop
  | frame {s n shape} : g.node? s = some n → n.kind = .frameState shape →
      (∀ y ∈ n.inputs, g.Available q y) →
      (∀ outer, n.state = some outer → StateAvailable g q outer) → StateAvailable g q s

variable {g g' : Graph} {d m q k : NodeId} {π : List NodeId}

theorem follows_iff_mem_successors : g.Follows q m ↔ m ∈ g.successors q := mem_successors.symm

theorem Reached.step (h : g.Reached q) (hf : g.Follows q m) : g.Reached m := by
  obtain ⟨π, hπ⟩ := h
  exact ⟨q :: π, .step hπ hf⟩

theorem Way.mono (h : ∀ q m, g.Follows q m → g'.Follows q m) (hw : g.Way m π) : g'.Way m π := by
  induction hw with
  | start => exact .start
  | step _ hf ih => exact .step ih (h _ _ hf)

/-- Every node of a way has a way of its own. -/
theorem Way.before (hw : g.Way m π) (hk : k ∈ m :: π) : ∃ ρ, g.Way k ρ ∧ (k :: ρ) <:+ (m :: π) := by
  induction hw with
  | start =>
    obtain rfl := List.mem_singleton.1 hk
    exact ⟨[], .start, List.suffix_refl _⟩
  | @step q π m hq hf ih =>
    rcases List.mem_cons.1 hk with rfl | hk
    · exact ⟨q :: π, .step hq hf, List.suffix_refl _⟩
    · obtain ⟨ρ, h1, h2⟩ := ih hk
      exact ⟨ρ, h1, h2.trans (List.suffix_cons _ _)⟩

theorem Way.reached_of_mem (hw : g.Way m π) (hk : k ∈ m :: π) : g.Reached k := by
  obtain ⟨ρ, h, -⟩ := hw.before hk
  exact ⟨ρ, h⟩

/-- A way comes to its end for a first time. -/
theorem Way.first (hw : g.Way m π) : ∃ ρ, g.Way m ρ ∧ m ∉ ρ ∧ ρ ⊆ π := by
  -- while the way passes the node twice, there is a shorter one
  induction hn : π.length using Nat.strong_induction_on generalizing π with
  | _ n ih =>
    by_cases hmem : m ∈ π
    · obtain ⟨ρ, h1, h2⟩ : ∃ ρ, g.Way m ρ ∧ (m :: ρ) <:+ π := by
        cases hw with
        | start => cases hmem
        | step hq _ => exact hq.before hmem
      have hlt : ρ.length < n := by
        have := h2.length_le
        simp only [List.length_cons] at this
        omega
      obtain ⟨ρ', h3, h4, h5⟩ := ih _ hlt h1 rfl
      exact ⟨ρ', h3, h4, fun x hx => h2.subset (List.mem_cons_of_mem _ (h5 hx))⟩
    · exact ⟨π, hw, hmem, List.Subset.refl _⟩

/-- Where control can get, it can get without having been there before. -/
theorem Reached.first (h : g.Reached m) : ∃ π, g.Way m π ∧ m ∉ π := by
  obtain ⟨π, hπ⟩ := h
  obtain ⟨ρ, h1, h2, -⟩ := hπ.first
  exact ⟨ρ, h1, h2⟩

/-- Where control can get, it can get without passing a node twice. -/
theorem Reached.simple (h : g.Reached m) : ∃ π, g.Way m π ∧ (m :: π).Nodup := by
  obtain ⟨π, hπ⟩ := h
  induction hπ with
  | start => exact ⟨[], .start, by simp⟩
  | @step q _ m _ hf ih =>
    obtain ⟨π, hπ, hnd⟩ := ih
    by_cases hm : m ∈ q :: π
    · obtain ⟨ρ, h1, h2⟩ := hπ.before hm
      exact ⟨ρ, h1, h2.sublist.nodup hnd⟩
    · exact ⟨q :: π, .step hπ hf, List.nodup_cons.2 ⟨hm, hnd⟩⟩

/-! ## Dominance -/

theorem Dominates.refl (m : NodeId) : g.Dominates m m := fun _ _ => List.mem_cons_self

theorem Dominates.trans (h : g.Dominates d m) (h' : g.Dominates m k) : g.Dominates d k := by
  intro π hπ
  obtain ⟨ρ, h1, h2⟩ := hπ.before (h' π hπ)
  exact h2.subset (h ρ h1)

/-- A node that dominates all predecessors dominates the node. -/
theorem dominates_of_follows (hm : m ≠ Graph.start) (h : ∀ q, g.Follows q m → g.Dominates d q) :
    g.Dominates d m := by
  intro π hπ
  cases hπ with
  | start => exact absurd rfl hm
  | step hq hf => exact List.mem_cons_of_mem _ (h _ hf _ hq)

/-- What dominates a node from above dominates its predecessors. -/
theorem Dominates.of_follows (h : g.Dominates d m) (hne : d ≠ m) (hf : g.Follows q m) :
    g.Dominates d q := by
  intro π hπ
  rcases List.mem_cons.1 (h _ (.step hπ hf)) with rfl | hd
  · exact absurd rfl hne
  · exact hd

theorem Dominates.reached (h : g.Dominates d m) (hm : g.Reached m) : g.Reached d := by
  obtain ⟨π, hπ⟩ := hm
  exact hπ.reached_of_mem (h π hπ)

theorem Dominates.antisymm (h : g.Dominates d m) (h' : g.Dominates m d) (hm : g.Reached m) :
    d = m := by
  obtain ⟨π, hπ, hfirst⟩ := hm.first
  rcases List.mem_cons.1 (h π hπ) with rfl | hd
  · rfl
  -- before the first visit of `m` the way passed `d`, and before that `m`
  · cases hπ with
    | start => cases hd
    | step hq _ =>
      obtain ⟨ρ, h1, h2⟩ := hq.before hd
      exact absurd (h2.subset (h' ρ h1)) hfirst

/-- A node whose first visit comes over an edge does not dominate where the
edge comes from. -/
theorem Reached.exists_entry (h : g.Reached m) (hm : m ≠ Graph.start) :
    ∃ q, g.Follows q m ∧ g.Reached q ∧ ¬ g.Dominates m q := by
  obtain ⟨π, hπ, hfirst⟩ := h.first
  cases hπ with
  | start => exact absurd rfl hm
  | @step q ρ _ hq hf => exact ⟨q, hf, ⟨ρ, hq⟩, fun hd => hfirst (hd ρ hq)⟩

/-! ## What can be computed behind a node -/

theorem Available.dominated {x : NodeId} (h : g.Available q x) (hd : g.Dominates q m) :
    g.Available m x := by
  induction h with
  | constant hn hk => exact .constant hn hk
  | parameter hn hk => exact .parameter hn hk
  | register ho hdom => exact .register ho (hdom.trans hd)
  | binary hn hk _ ih => exact .binary hn hk ih
  | unary hn hk _ ih => exact .unary hn hk ih

theorem StateAvailable.dominated {s : NodeId} (h : g.StateAvailable q s) (hd : g.Dominates q m) :
    g.StateAvailable m s := by
  induction h with
  | frame hn hk hi _ ih => exact .frame hn hk (fun y hy => (hi y hy).dominated hd) ih

theorem owns_exists {x : NodeId} (h : Owns g d x) :
    ∃ n, g.node? x = some n ∧ n.kind.isRegister := by
  rcases h with h | ⟨rfl, h⟩
  · obtain ⟨n, hn, hk, -⟩ := mem_phisOf.1 h
    exact ⟨n, hn, by rw [hk]; rfl⟩
  · cases hk : g.kind? x with
    | none => simp [hk] at h
    | some k =>
      obtain ⟨n, hn, rfl⟩ := kind?_eq_some.1 hk
      rw [hk] at h
      refine ⟨n, hn, ?_⟩
      generalize n.kind = k at h
      cases k <;> simp_all [NodeKind.isInvoke, NodeKind.isRegister]

theorem Available.exists_node {x : NodeId} (h : g.Available q x) : ∃ n, g.node? x = some n := by
  cases h with
  | constant hn | parameter hn | binary hn | unary hn => exact ⟨_, hn⟩
  | register ho =>
    obtain ⟨n, hn, -⟩ := owns_exists ho
    exact ⟨n, hn⟩

theorem StateAvailable.exists_node {s : NodeId} (h : g.StateAvailable q s) :
    ∃ n, g.node? s = some n := by
  cases h with
  | frame hn => exact ⟨_, hn⟩

/-- From all sides from which the node is entered for the first time, so at
the node. -/
theorem Available.of_entries {x : NodeId} (hm : m ≠ Graph.start)
    (h : ∀ q π, g.Way q π → g.Follows q m → m ∉ q :: π → g.Available q x)
    (hq : ∃ q, g.Follows q m ∧ g.Available q x) :
    g.Available m x := by
  obtain ⟨q₀, -, h₀⟩ := hq
  induction h₀ with
  | constant hn hk => exact .constant hn hk
  | parameter hn hk => exact .parameter hn hk
  | register ho hdom =>
    refine .register ho fun π hπ => ?_
    -- the way has passed the owner before it came to the node for the first
    -- time
    obtain ⟨ρ, hρ, hfirst, hsub⟩ := hπ.first
    cases hρ with
    | start => exact absurd rfl hm
    | step hq hf =>
      cases h _ _ hq hf hfirst with
      | register ho' hdom' => exact List.mem_cons_of_mem _ (hsub (ho.unique ho' ▸ hdom' _ hq))
      | constant hn hk | parameter hn hk | binary hn hk | unary hn hk =>
        obtain ⟨n, hn', hr⟩ := owns_exists ho
        obtain rfl := Option.some.inj (hn.symm.trans hn')
        simp [hk, NodeKind.isRegister] at hr
  | binary hn hk _ ih =>
    refine .binary hn hk fun y hy => ih y hy fun q π hq hf hfirst => ?_
    cases h q π hq hf hfirst with
    | binary hn' _ hi =>
      obtain rfl := Option.some.inj (hn.symm.trans hn')
      exact hi y hy
    | register ho _ =>
      obtain ⟨n, hn', hr⟩ := owns_exists ho
      obtain rfl := Option.some.inj (hn.symm.trans hn')
      simp [hk, NodeKind.isRegister] at hr
    | constant hn' hk' | parameter hn' hk' | unary hn' hk' =>
      obtain rfl := Option.some.inj (hn.symm.trans hn')
      rw [hk] at hk'
      cases hk'
  | unary hn hk _ ih =>
    refine .unary hn hk fun y hy => ih y hy fun q π hq hf hfirst => ?_
    cases h q π hq hf hfirst with
    | unary hn' _ hi =>
      obtain rfl := Option.some.inj (hn.symm.trans hn')
      exact hi y hy
    | register ho _ =>
      obtain ⟨n, hn', hr⟩ := owns_exists ho
      obtain rfl := Option.some.inj (hn.symm.trans hn')
      simp [hk, NodeKind.isRegister] at hr
    | constant hn' hk' | parameter hn' hk' | binary hn' hk' =>
      obtain rfl := Option.some.inj (hn.symm.trans hn')
      rw [hk] at hk'
      cases hk'

/-- From all sides of a node, so at the node, apart from what the node sets
itself. -/
theorem Available.of_follows {x : NodeId} (hm : m ≠ Graph.start)
    (h : ∀ q, g.Follows q m → g.Available q x) (hq : ∃ q, g.Follows q m) : g.Available m x := by
  obtain ⟨q₀, hq₀⟩ := hq
  exact .of_entries hm (fun q _ _ hf _ => h q hf) ⟨q₀, hq₀, h q₀ hq₀⟩

/-! ## Changed graphs -/

/-- Availability is about the values below, their owners and dominance. -/
theorem Available.transfer {x : NodeId} (h : g.Available q x)
    (hnode : ∀ y n, g.node? y = some n → n.kind.isFixed = false → n.kind ≠ .phi →
      ∃ n', g'.node? y = some n' ∧ n'.kind = n.kind ∧ n'.inputs = n.inputs)
    (howns : ∀ d y, Owns g d y → g.Dominates d q → Owns g' d y ∧ g'.Dominates d m) :
      g'.Available m x := by
  induction h with
  | constant hn hk =>
    obtain ⟨n', h1, h2, -⟩ := hnode _ _ hn (by rw [hk]; rfl) (by simp [hk])
    exact .constant h1 (h2.trans hk)
  | parameter hn hk =>
    obtain ⟨n', h1, h2, -⟩ := hnode _ _ hn (by rw [hk]; rfl) (by simp [hk])
    exact .parameter h1 (h2.trans hk)
  | register ho hd =>
    obtain ⟨h1, h2⟩ := howns _ _ ho hd
    exact .register h1 h2
  | binary hn hk _ ih =>
    obtain ⟨n', h1, h2, h3⟩ := hnode _ _ hn (by rw [hk]; rfl) (by simp [hk])
    exact .binary h1 (h2.trans hk) (h3 ▸ ih)
  | unary hn hk _ ih =>
    obtain ⟨n', h1, h2, h3⟩ := hnode _ _ hn (by rw [hk]; rfl) (by simp [hk])
    exact .unary h1 (h2.trans hk) (h3 ▸ ih)

theorem StateAvailable.transfer {s : NodeId} (h : g.StateAvailable q s)
    (hnode : ∀ y n, g.node? y = some n → n.kind.isFixed = false → n.kind ≠ .phi →
      ∃ n', g'.node? y = some n' ∧ n'.kind = n.kind ∧ n'.inputs = n.inputs ∧ n'.state = n.state)
    (howns : ∀ d y, Owns g d y → g.Dominates d q → Owns g' d y ∧ g'.Dominates d m) :
      g'.StateAvailable m s := by
  induction h with
  | frame hn hk hi _ ih =>
    obtain ⟨n', h1, h2, h3, h4⟩ := hnode _ _ hn (by rw [hk]; rfl) (by simp [hk])
    refine .frame h1 (h2.trans hk) (fun y hy => ?_) (h4 ▸ ih)
    refine (hi y (h3 ▸ hy)).transfer (fun y n hy hf hp => ?_) howns
    obtain ⟨n', h1, h2, h3, -⟩ := hnode y n hy hf hp
    exact ⟨n', h1, h2, h3⟩

end Graph

end TieredEngine

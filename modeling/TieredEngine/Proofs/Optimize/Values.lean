import TieredEngine.Proofs.Code.Simulation
import TieredEngine.Proofs.Optimize.Rewrites
/-!
# Rewrites of values

A rewrite that changes values only leaves control as it is, so both graphs
mirror each other (`mirrors_of_sameControl`), and they run alike if what is
read has the same value in both. For constants, operands that change places
and operators this is so in any registers. For equal phis and for phis that
get one value on all edges it is so in those that come up: the phis are set
together, and the value of a phi stays the value of its input until control
leaves what the merge dominates.
-/

namespace TieredEngine

namespace Graph

variable {g g' : Graph} {value came : NodeId → NodeId} {q q' x y : NodeId} {n n' : Node}

/-! ## What is read below -/

theorem Available.inputs (h : g.Available q x) (hn : g.node? x = some n) (hk : n.kind.isOperator) :
    ∀ y ∈ n.inputs, g.Available q y := by
  cases h with
  | constant hn' hk' | parameter hn' hk' =>
    obtain rfl := Option.some.inj (hn.symm.trans hn')
    simp [hk', NodeKind.isOperator] at hk
  | register ho =>
    obtain ⟨n', hn', hr⟩ := owns_exists ho
    obtain rfl := Option.some.inj (hn.symm.trans hn')
    revert hk hr
    cases n.kind <;> simp [NodeKind.isOperator, NodeKind.isRegister]
  | binary hn' _ hi | unary hn' _ hi =>
    obtain rfl := Option.some.inj (hn.symm.trans hn')
    exact hi

theorem StateAvailable.parts (h : g.StateAvailable q x) (hn : g.node? x = some n) :
    (∀ y ∈ n.inputs, g.Available q y) ∧ ∀ s, n.state = some s → g.StateAvailable q s := by
  cases h with
  | frame hn' _ hi ho =>
    obtain rfl := Option.some.inj (hn.symm.trans hn')
    exact ⟨hi, ho⟩

/-- The node of the second graph is that of the first, with what it reads in
its place. -/
def Moved (value : NodeId → NodeId) (n n' : Node) : Prop :=
  n'.kind = n.kind ∧ n'.inputs = n.inputs.map value ∧ n'.state = n.state.map value

theorem Moved.id (n : Node) : Moved id n n := ⟨rfl, (List.map_id _).symm, Option.map_id'.symm⟩

theorem Moved.redirected (old new : NodeId) (n : Node) :
    Moved (redirect old new) n (n.redirected old new) := ⟨rfl, rfl, rfl⟩

theorem Moved.input {i : ℕ} (h : Moved value n n') (hy : n.inputs[i]? = some y) :
    n'.inputs[i]? = some (value y) := by
  rw [h.2.1, List.getElem?_map, hy]
  rfl

/-! ## Control that stays -/

/-- Graphs with the same control mirror each other. -/
theorem mirrors_of_sameControl (h : g.SameControl g')
    (hnode : ∀ {m n n'}, g.node? m = some n → g'.node? m = some n' →
      n.kind.isFixed ∨ n.kind = .phi → Moved value n n')
    (hfresh : ∀ m n', g'.node? m = some n' → g.nodes.size ≤ m → n'.kind ≠ .phi) :
    g.Mirrors g' value id id fun _ => False where
  stays _ := ⟨rfl, rfl⟩
  node hn hk _ _ := by
    obtain ⟨n', hn', -⟩ := h.forth hn hk
    obtain ⟨h1, h2, h3⟩ := hnode hn hn' (.inl hk)
    exact ⟨n', hn', h1, h2, h3⟩
  next {m s} _ _ hf := by
    refine ⟨h.follows.2 hf, fun k hk hside => h.kind hk (NodeKind.isFixed_of_isSide hside)⟩
  phis {m x} _ _ := by
    have hold : ∀ {n'}, g'.node? x = some n' → n'.kind = .phi → ∃ n, g.node? x = some n ∧
        n'.kind = n.kind ∧ n'.control = n.control :=
      fun hn' hk => h.old x _ hn' (Nat.lt_of_not_le fun hle => hfresh x _ hn' hle hk)
    constructor
    · intro hx
      obtain ⟨n', hn', hk, hc⟩ := mem_phisOf.1 hx
      obtain ⟨n, hn, hkind, hcontrol⟩ := hold hn' hk
      exact ⟨mem_phisOf.2 ⟨n, hn, hkind ▸ hk, hcontrol ▸ hc⟩, Option.isSome_iff_exists.2 ⟨n', hn'⟩⟩
    · rintro ⟨hx, hin⟩
      obtain ⟨n, hn, hk, hc⟩ := mem_phisOf.1 hx
      obtain ⟨n', hn'⟩ := Option.isSome_iff_exists.1 hin
      obtain ⟨n₀, hn₀, hkind, hcontrol⟩ := h.old x n' hn' (lt_size_of_node? hn)
      obtain rfl := Option.some.inj (hn.symm.trans hn₀)
      exact mem_phisOf.2 ⟨n', hn', hkind.trans hk, hcontrol ▸ hc⟩
  edge {m n n' q i} hn hk _ _ hn' _ hq := by
    obtain ⟨n₁, hn₁, -, hc⟩ := h.forth hn (NodeKind.isFixed_of_isMerge hk)
    obtain rfl := Option.some.inj (hn'.symm.trans hn₁)
    refine ⟨i, hc ▸ hq, fun x p p' y hp hp' hx hy => ?_⟩
    obtain ⟨p₀, hp₀, hkp, -⟩ := mem_phisOf.1 hx
    obtain rfl := Option.some.inj (hp.symm.trans hp₀)
    exact (hnode hp hp' (.inr hkp)).input hy

end Graph

namespace Code

open TieredEngine.Graph

variable {g g' : Graph} {arguments : List Value} {value came goes : NodeId → NodeId}
    {ρ ρ' : Bindings} {κ κ' : Config} {x y old new : NodeId} {v : Value} {n : Node}

/-! ## Values that are carried over -/

/-- Values are carried over if constants, parameters and operators are, and
registers have the same values. -/
theorem denotes_of_moved (value : NodeId → NodeId) {P : NodeId → Prop}
    (hnode : ∀ {x n}, P x → g.node? x = some n → n.kind.isFixed = false →
      n.kind.isRegister = false → (∃ n', g'.node? (value x) = some n' ∧ Moved value n n') ∧
        (n.kind.isOperator → ∀ y ∈ n.inputs, P y))
    (hreg : ∀ {x n v}, P x → g.node? x = some n → n.kind.isRegister → ρ x = some v →
        Denotes g' arguments ρ' (value x) v) (h : Denotes g arguments ρ x v) :
    P x → Denotes g' arguments ρ' (value x) v := by
  induction h with
  | constant hn hk =>
    intro hx
    obtain ⟨n', hn', hm⟩ := (hnode hx hn (by rw [hk]; rfl) (by rw [hk]; rfl)).1
    exact .constant hn' (hm.1.trans hk)
  | parameter hn hk =>
    intro hx
    obtain ⟨n', hn', hm⟩ := (hnode hx hn (by rw [hk]; rfl) (by rw [hk]; rfl)).1
    exact .parameter hn' (hm.1.trans hk)
  | register hn hk hr => exact fun hx => hreg hx hn hk hr
  | binary hn hk h0 h1 _ _ ho ih0 ih1 =>
    intro hx
    obtain ⟨⟨n', hn', hm⟩, hin⟩ := hnode hx hn (by rw [hk]; rfl) (by rw [hk]; rfl)
    have hin := hin (by rw [hk]; rfl)
    exact .binary hn' (hm.1.trans hk) (hm.input h0) (hm.input h1)
      (ih0 (hin _ (List.mem_of_getElem? h0))) (ih1 (hin _ (List.mem_of_getElem? h1))) ho
  | unary hn hk h0 _ ho ih =>
    intro hx
    obtain ⟨⟨n', hn', hm⟩, hin⟩ := hnode hx hn (by rw [hk]; rfl) (by rw [hk]; rfl)
    have hin := hin (by rw [hk]; rfl)
    exact .unary hn' (hm.1.trans hk) (hm.input h0) (ih (hin _ (List.mem_of_getElem? h0))) ho

/-- Values are carried over to a graph whose floating nodes are the same, as
far as it has them. -/
theorem denotes_of_same {q : NodeId}
    (hnode : ∀ {x n n'}, g.node? x = some n → g'.node? x = some n' → n'.kind = n.kind ∧
      (n.kind ≠ .phi → n'.inputs = n.inputs ∧ n'.state = n.state))
    (hρ : ∀ x, g'.contains x → ρ' x = ρ x) (hav : g'.Available q x)
    (hd : Denotes g arguments ρ x v) :
    Denotes g' arguments ρ' x v := by
  refine denotes_of_moved id (P := g'.Available q) (fun {x n} hx hn _ hr => ?_)
    (fun {x n v} hx hn hr hv => ?_) hd hav
  · obtain ⟨n', hn'⟩ := hx.exists_node
    obtain ⟨hk, hrest⟩ := hnode hn hn'
    obtain ⟨hi, hs⟩ := hrest fun he => by simp [he, NodeKind.isRegister] at hr
    refine ⟨⟨n', hn', hk, by rw [hi, List.map_id], by rw [hs, Option.map_id]; rfl⟩,
      fun ho y hy => ?_⟩
    exact hx.inputs hn' (hk ▸ ho) y (hi ▸ hy)
  · obtain ⟨n', hn'⟩ := hx.exists_node
    exact .register hn' ((hnode hn hn').1 ▸ hr)
      ((hρ x (Option.isSome_iff_exists.2 ⟨n', hn'⟩)).trans hv)

/-- Frames are carried over if values are. -/
theorem carries_of_denotes
    (hframe : ∀ {s n shape}, g.node? s = some n → n.kind = .frameState shape →
      g'.contains (value s) → ∃ n', g'.node? (value s) = some n' ∧ Moved value n n')
    (hvalue : ∀ {q y v}, κ.previous = some q → g.Available q y → g'.Available (came q) (value y) →
      Denotes g arguments κ.bindings y v → Denotes g' arguments κ'.bindings (value y) v) :
    Carries g g' arguments value came κ κ' where
  denotes := hvalue
  frames {q s fs} hq hs hs' hf := by
    have hparts : ∀ {s n shape vs}, g.node? s = some n → n.kind = .frameState shape →
        g.StateAvailable q s → g'.StateAvailable (came q) (value s) →
          List.Forall₂ (Denotes g arguments κ.bindings) n.inputs vs →
        ∃ n', g'.node? (value s) = some n' ∧ Moved value n n' ∧
          List.Forall₂ (Denotes g' arguments κ'.bindings) n'.inputs vs ∧
          ∀ o, n.state = some o → g.StateAvailable q o ∧ g'.StateAvailable (came q) (value o) := by
      intro s n shape vs hn hk hs hs' hv
      obtain ⟨n', hn', hm⟩ := hframe hn hk (Option.isSome_iff_exists.2 hs'.exists_node)
      obtain ⟨hin, hst⟩ := hs.parts hn
      obtain ⟨hin', hst'⟩ := hs'.parts hn'
      refine ⟨n', hn', hm, ?_, fun o ho => ⟨hst o ho, hst' _ (by rw [hm.2.2, ho]; rfl)⟩⟩
      rw [hm.2.1, List.forall₂_map_left_iff]
      refine List.forall₂_iff_get.2 ⟨hv.length_eq, fun i h1 h2 => ?_⟩
      have hmem : n.inputs.get ⟨i, h1⟩ ∈ n.inputs := List.get_mem _ _
      exact hvalue hq (hin _ hmem) (hin' _ (hm.2.1 ▸ List.mem_map_of_mem hmem)) (hv.get h1 h2)
    induction hf with
    | last hn hk hl hst hv =>
      obtain ⟨n', hn', hm, hv', -⟩ := hparts hn hk hs hs' hv
      exact .last hn' (hm.1.trans hk) (by rwa [hm.2.1, List.length_map])
        (by rw [hm.2.2, hst]; rfl) hv'
    | more hn hk hl hst hv _ ih =>
      obtain ⟨n', hn', hm, hv', ho⟩ := hparts hn hk hs hs' hv
      obtain ⟨h1, h2⟩ := ho _ hst
      exact .more hn' (hm.1.trans hk) (by rwa [hm.2.1, List.length_map])
        (by rw [hm.2.2, hst]; rfl) hv' (ih h1 h2)

/-- Graphs with the same control run alike if values are carried over. -/
theorem runsAlike_of_sameControl (value : NodeId → NodeId) (hf : g.Formed) (hf' : g'.Formed)
    (hsafe : Safe g arguments) (h : g.SameControl g')
    (hnode : ∀ {m n n'}, g.node? m = some n → g'.node? m = some n' → n.kind.isFixed ∨
        n.kind = .phi → Moved value n n')
    (hfresh : ∀ m n', g'.node? m = some n' → g.nodes.size ≤ m → n'.kind ≠ .phi)
    (hframe : ∀ {s n shape}, g.node? s = some n → n.kind = .frameState shape →
      g'.contains (value s) → ∃ n', g'.node? (value s) = some n' ∧ Moved value n n')
    (hvalue : ∀ {κ ρ' q y v}, Reach g arguments κ → (∀ x, g'.contains x → ρ' x = κ.bindings x) →
      κ.previous = some q →
      g.Available q y → g'.Available q (value y) → Denotes g arguments κ.bindings y v →
        Denotes g' arguments ρ' (value y) v) :
    RunsAlike g g' arguments := by
  have hsim : Simulates g g' arguments (Shadows g' id id) fun _ => 0 :=
    simulates_of_mirrors hf.runnable hf'.runnable (mirrors_of_sameControl h hnode hfresh) not_false
      (fun hκ hs => carries_of_denotes hframe fun hq ha ha' hd =>
          hvalue hκ hs.bindings hq ha ha' hd)
      fun _ _ hgone => hgone.elim
  exact hsim.runsAlike hsafe hf'.runnable

/-! ## New constants -/

theorem runsAlike_newConstant (hf : g.Formed) (hsafe : Safe g arguments) (v : Value) :
    RunsAlike g (g.newConstant v).1 arguments := by
  have hext := extends_newConstant g v
  have hsame : ∀ {x n}, g.node? x = some n → (g.newConstant v).1.node? x = some n := fun hn =>
    (hext.same _ (lt_size_of_node? hn)).trans hn
  have hmoved : ∀ {m n n'}, g.node? m = some n → (g.newConstant v).1.node? m = some n' →
      Moved id n n' := by
    intro m n n' hn hn'
    obtain rfl := Option.some.inj (hn'.symm.trans (hsame hn))
    exact .id _
  refine runsAlike_of_sameControl id hf (formed_newConstant hf v) hsafe
    (sameControl_newConstant g v)
    (fun hn hn' _ => hmoved hn hn') (fun m n' hn' hle => by simp [kind_of_newConstant hn' hle])
    (fun hn _ _ => ⟨_, hsame hn, .id _⟩) ?_
  · intro κ ρ' q y u _ hρ _ _ ha hd
    refine denotes_of_same (fun hn hn' => ?_) hρ ha hd
    obtain rfl := Option.some.inj (hn'.symm.trans (hsame hn))
    exact ⟨rfl, fun _ => ⟨rfl, rfl⟩⟩

/-! ## Operands that change places -/

theorem apply_comm {op : BinaryOp} {a b v : Value} (h : op.isCommutative)
    (ho : op.apply a b = .ok v) :
    op.apply b a = .ok v := by
  cases op with
  | sub | lessThan => cases h
  | equal => simpa [BinaryOp.apply, eq_comm] using ho
  | add | mul =>
    cases a <;> cases b <;>
      simp_all [BinaryOp.apply, BinaryOp.onInts, Int64.add_comm, Int64.mul_comm]

theorem runsAlike_swap {op : BinaryOp} {m : NodeId} (hf : g.Formed) (hsafe : Safe g arguments)
    (hn : g.node? m = some n) (hk : n.kind = .binary op) (hop : op.isCommutative)
    (hi : n.inputs = [x, y]) :
    RunsAlike g (g.modify m fun n => { n with inputs := y :: x :: n.inputs.drop 2 }) arguments := by
  have hnode := node?_swapped hn hi
  have hsame := sameControl_swap hn hk hi
  have hf' := formed_swap hf hn hk hi
  have hsize := size_modify g m fun n => { n with inputs := y :: x :: n.inputs.drop 2 }
  generalize (g.modify m fun n => { n with inputs := y :: x :: n.inputs.drop 2 }) = g' at *
  have hstay : ∀ {z n'}, g.node? z = some n' → n'.kind ≠ .binary op → g'.node? z = some n' := by
    intro z n' hn' hne
    rw [hnode, if_neg ?_, hn']
    rintro rfl
    obtain rfl := Option.some.inj (hn.symm.trans hn')
    exact hne hk
  refine runsAlike_of_sameControl id hf hf' hsafe hsame (fun {z n₁ n₁'} h1 h2 hkz => ?_)
    (fun z n' hn' hle => absurd (lt_size_of_node? hn') (Nat.not_lt.2 (hsize ▸ hle)))
    (fun h1 hkz _ => ⟨_, hstay h1 (by simp [hkz]), .id _⟩) ?_
  · have hne : n₁.kind ≠ .binary op := by
      rintro he
      simp [he, NodeKind.isFixed] at hkz
    obtain rfl := Option.some.inj (h2.symm.trans (hstay h1 hne))
    exact .id _
  · intro κ ρ' q z v _ hρ _ ha ha' hd
    clear ha ha'
    change Denotes g' arguments ρ' z v
    induction hd with
    | constant hn' hkz => exact .constant (hstay hn' (by simp [hkz])) hkz
    | parameter hn' hkz => exact .parameter (hstay hn' (by simp [hkz])) hkz
    | unary hn' hkz h0 _ ho ih => exact .unary (hstay hn' (by simp [hkz])) hkz h0 ih ho
    | register hn' hr hv =>
      have hn'' := hstay hn' fun he => by simp [he, NodeKind.isRegister] at hr
      exact .register hn'' hr ((hρ _ (Option.isSome_iff_exists.2 ⟨_, hn''⟩)).trans hv)
    | @binary z n' op' x' y' a b v hn' hkz h0 h1 _ _ ho ih0 ih1 =>
      by_cases hz : z = m
      · subst hz
        obtain rfl := Option.some.inj (hn.symm.trans hn')
        obtain rfl := NodeKind.binary.inj (hk.symm.trans hkz)
        rw [hi] at h0 h1
        cases h0
        cases h1
        have hn'' : g'.node? z = some { n with inputs := [y, x] } := by rw [hnode, if_pos rfl]
        exact .binary hn'' hk rfl rfl ih1 ih0 (apply_comm hop ho)
      · exact .binary (by rw [hnode, if_neg hz, hn']) hkz h0 h1 ih0 ih1 ho

/-! ## Values that replace each other -/

/-- Replacing a value runs alike if the value that is read in its place is the
same. -/
theorem runsAlike_replaceValue (hf : g.Formed) (hsafe : Safe g arguments) (h : g.StandsIn old new)
    (hframe : ∀ {n shape}, g.node? old = some n → n.kind = .frameState shape →
      ∃ n', (g.replaceValue old new).node? new = some n' ∧ Moved (redirect old new) n n')
    (hvalue : ∀ {κ ρ' q y v}, Reach g arguments κ →
      (∀ x, (g.replaceValue old new).contains x → ρ' x = κ.bindings x) →
      κ.previous = some q → g.Available q y → Denotes g arguments κ.bindings y v →
      Denotes (g.replaceValue old new) arguments ρ' (redirect old new y) v) :
    RunsAlike g (g.replaceValue old new) arguments := by
  refine runsAlike_of_sameControl (redirect old new) hf (hf.replaceValue h) hsafe
    (sameControl_replaceValue h.floats new) (fun {m n n'} hn hn' _ => ?_) (fun m n' hn' hle => ?_)
    (fun {s n shape} hn hk _ => ?_) fun hκ hρ hq ha _ hd => hvalue hκ hρ hq ha hd
  · obtain ⟨-, n₀, hn₀, rfl⟩ := node?_replaceValue_eq_some.1 hn'
    obtain rfl := Option.some.inj (hn.symm.trans hn₀)
    exact .redirected old new n
  · obtain ⟨-, n₀, hn₀, -⟩ := node?_replaceValue_eq_some.1 hn'
    exact absurd (lt_size_of_node? hn₀) (Nat.not_lt.2 hle)
  · by_cases hs : s = old
    · subst hs
      rw [redirect_self]
      exact hframe hn hk
    · rw [redirect_of_ne hs]
      exact ⟨_, node?_redirected new hs hn, .redirected old new n⟩

theorem redirect_new (old new : NodeId) : redirect old new new = new := by
  rcases redirect_cases old new new with h | h <;> exact h

/-- An operator that always has the value of another node has it in the graph
without the operator too. -/
theorem denotes_of_simplifies (h : g.Simplifies old new)
    (hρ : ∀ x, (g.replaceValue old new).contains x → ρ' x = ρ x) (k : ℕ) :
    ∀ {x v}, DenotesIn g arguments ρ k x v →
      Denotes (g.replaceValue old new) arguments ρ' (redirect old new x) v := by
  induction k using Nat.strong_induction_on with
  | _ k ih =>
    intro x v hd
    by_cases hx : x = old
    · subst hx
      obtain ⟨j, hj, hnew⟩ := h.value arguments ρ k v hd
      have hnew' := ih j hj hnew
      rw [redirect_new] at hnew'
      rwa [redirect_self]
    have hnode : ∀ {n}, g.node? x = some n →
        (g.replaceValue old new).node? x = some (n.redirected old new) := fun hn =>
      node?_redirected new hx hn
    have hin : ∀ {n : Node} {i : ℕ} {y : NodeId}, n.inputs[i]? = some y →
        (n.redirected old new).inputs[i]? = some (redirect old new y) :=
      fun hy => (Moved.redirected old new _).input hy
    rw [redirect_of_ne hx]
    cases hd with
    | constant hn hk => exact .constant (hnode hn) hk
    | parameter hn hk => exact .parameter (hnode hn) hk
    | register hn hk hr =>
      exact .register (hnode hn) hk ((hρ x (Option.isSome_iff_exists.2 ⟨_, hnode hn⟩)).trans hr)
    | binary hn hk h0 h1 d0 d1 ho =>
      exact .binary (hnode hn) hk (hin h0) (hin h1) (ih _ (Nat.lt_succ_self _) d0)
        (ih _ (Nat.lt_succ_self _) d1) ho
    | unary hn hk h0 d0 ho => exact .unary (hnode hn) hk (hin h0) (ih _ (Nat.lt_succ_self _) d0) ho

theorem runsAlike_simplify (hf : g.Formed) (hsafe : Safe g arguments) (h : g.Simplifies old new) :
    RunsAlike g (g.replaceValue old new) arguments := by
  refine runsAlike_replaceValue hf hsafe h.standsIn (fun {n shape} hn hk => ?_)
    fun _ hρ _ _ hd => ?_
  · obtain ⟨n', hn', ho⟩ := h.operator
    obtain rfl := Option.some.inj (hn.symm.trans hn')
    simp [hk, NodeKind.isOperator] at ho
  · obtain ⟨k, hk⟩ := hd.exists_depth
    exact denotes_of_simplifies h hρ k hk

/-! ## Phis -/

/-- A step sets the phis of a merge when control is there, and leaves them
alone otherwise. -/
theorem Steps.bindings_phi {l : Label} {m : NodeId} {κ₁ : Config} (hw : g.Wired)
    (h : Steps g arguments κ l κ₁) (hx : x ∈ g.phisOf m) (hcur : κ.current = m) :
    ∃ n q i p y v, g.node? m = some n ∧ κ.previous = some q ∧ n.control.idxOf? q = some i ∧
      g.node? x = some p ∧
      p.inputs[i]? = some y ∧ Denotes g arguments κ.bindings y v ∧ κ₁.bindings x = some v := by
  subst hcur
  have hmerge : ∀ {n}, g.node? κ.current = some n → n.kind.isMerge := by
    intro n hn
    by_contra hk
    rw [hw.skeleton.phisOf_eq_nil hn (by simpa using hk)] at hx
    cases hx
  cases h with
  | @pass us next hd hf =>
    cases hd with
    | step hn hk =>
      have := hmerge hn
      rcases hk with hk | hk | hk <;> rw [hk] at this <;> cases this
    | holds hn hk =>
      have := hmerge hn
      rw [hk] at this
      cases this
    | @merge n index _ hn hk hi hu =>
      obtain ⟨q, hq, hi⟩ := Option.bind_eq_some_iff.1 hi
      obtain ⟨v, p, y, hl, hp, hy, hd⟩ := hu.lookup_of_mem (g.phisOf_nodup _) hx
      exact ⟨n, q, index, p, y, v, hn, hq, hi, hp, hy, hd, by simp [Bindings.overlay, hl]⟩
  | side hd =>
    obtain ⟨n, hn, hk⟩ := Effects.branch_of_side hd
    have := hmerge hn
    rw [hk] at this
    cases this
  | call v hd =>
    cases hd with
    | call hn hk =>
      have := hmerge hn
      rw [hk] at this
      cases this

/-- Equal phis hold the same. -/
theorem Reach.bindings_eq_of_equal (hw : g.Wired) (hn : g.node? old = some n)
    (hn' : g.node? new = some n) (hk : n.kind = .phi) (h : Reach g arguments κ) :
    κ.bindings old = κ.bindings new := by
  obtain ⟨m, hm, -⟩ := hw.phis old n hn hk
  have hold : old ∈ g.phisOf m := mem_phisOf.2 ⟨n, hn, hk, by rw [hm]; rfl⟩
  have hnew : new ∈ g.phisOf m := mem_phisOf.2 ⟨n, hn', hk, by rw [hm]; rfl⟩
  induction h with
  | start => rfl
  | @step κ l κ₁ hκ hs ih =>
    by_cases hcur : κ.current = m
    · obtain ⟨nm, q, i, p, y, v, hnm, hq, hi, hp, hy, hd, hv⟩ := hs.bindings_phi hw hold hcur
      obtain ⟨nm', q', i', p', y', v', hnm', hq', hi', hp', hy', hd', hv'⟩ :=
        hs.bindings_phi hw hnew hcur
      obtain rfl := Option.some.inj (hnm.symm.trans hnm')
      obtain rfl := Option.some.inj (hq.symm.trans hq')
      obtain rfl := Option.some.inj (hi.symm.trans hi')
      obtain rfl := Option.some.inj (hn.symm.trans hp)
      obtain rfl := Option.some.inj (hn'.symm.trans hp')
      obtain rfl := Option.some.inj (hy.symm.trans hy')
      rw [hv, hv', hd.unique hd']
    · have hapart : ∀ {x}, x ∈ g.phisOf m → κ₁.bindings x = κ.bindings x := fun hx =>
        hs.bindings_eq fun ho => hcur (ho.unique (.inl hx))
      rw [hapart hold, hapart hnew, ih]

theorem runsAlike_share (hf : g.Formed) (hsafe : Safe g arguments) (hn : g.node? old = some n)
    (hn' : g.node? new = some n) (hne : new ≠ old) (hk : n.kind.isPure ∨ n.kind = .phi) :
    RunsAlike g (g.replaceValue old new) arguments := by
  have hnew : (g.replaceValue old new).node? new = some (n.redirected old new) :=
    node?_redirected new hne hn'
  have hmoved : ∀ {x n₁}, g.node? x = some n₁ → ∃ n', (g.replaceValue old new).node?
      (redirect old new x) = some n' ∧ Moved (redirect old new) n₁ n' := by
    intro x n₁ hn₁
    by_cases hx : x = old
    · subst hx
      obtain rfl := Option.some.inj (hn.symm.trans hn₁)
      rw [redirect_self]
      exact ⟨_, hnew, .redirected _ _ _⟩
    · rw [redirect_of_ne hx]
      exact ⟨_, node?_redirected new hx hn₁, .redirected _ _ _⟩
  refine runsAlike_replaceValue hf hsafe (standsIn_equal hn hn' hne hk) (fun {n₁ shape} hn₁ _ => ?_)
    fun hκ hρ _ _ hd => ?_
  · have := hmoved hn₁
    rwa [redirect_self] at this
  · refine denotes_of_moved (redirect old new) (P := fun _ => True)
      (fun _ hn₁ _ _ => ⟨hmoved hn₁, by simp⟩) (fun {x n₁ v} _ hn₁ hr hv => ?_) hd trivial
    obtain ⟨n', hn'', hm⟩ := hmoved hn₁
    refine .register hn'' (hm.1 ▸ hr) ((hρ _ (Option.isSome_iff_exists.2 ⟨n', hn''⟩)).trans ?_)
    by_cases hx : x = old
    · subst hx
      obtain rfl := Option.some.inj (hn.symm.trans hn₁)
      have hphi : n.kind = .phi := by
        refine hk.resolve_left fun hp => ?_
        revert hp hr
        cases n.kind <;> simp [NodeKind.isPure, NodeKind.isRegister]
      rw [redirect_self, ← hκ.bindings_eq_of_equal hf.wired hn hn' hphi, hv]
    · rw [redirect_of_ne hx, hv]

section

variable {m : NodeId} (hf : g.Formed) (hn : g.node? old = some n) (hk : n.kind = .phi)
    (hc : n.control.head? = some m) (hr : g.Reached m) (hall : ∀ y ∈ n.inputs, y = old ∨ y = new)

include hf hn hk hc hr hall

/-- What a phi gets on all edges, itself apart, reads registers only that are
set before the merge is entered. -/
theorem owner_of_asks {d : NodeId} (ha : g.Asks new y) (ho : Owns g d y) :
    g.Dominates d m ∧ d ≠ m := by
  obtain ⟨nm, hnm, -⟩ := hr.exists_node hf.wired.skeleton
  obtain ⟨m', hm', hrest⟩ := hf.wired.phis old n hn hk
  obtain rfl : m' = m := by simpa [hm'] using hc
  have hstart : m' ≠ Graph.start := by
    rintro rfl
    have hmerge := (hrest nm hnm).1
    rw [kind?_of_node? hnm hf.wired.start] at hmerge
    cases hmerge
  obtain ⟨q, hq, -, hnd⟩ := hr.exists_entry hstart
  have hentry := fun {q} => hf.phi_entry (q := q) hn hk hc hnm hr hall
  have hav : g.Available m' new := by
    refine .of_entries hstart (fun q π hπ hfo hfirst => ?_) ⟨q, hq, (hentry hq hnd).1⟩
    exact (hentry hfo fun hd => hfirst (hd π hπ)).1
  refine ⟨hav.dominates hf.wired.counted ha ho, ?_⟩
  rintro rfl
  exact hnd ((hentry hq hnd).1.dominates hf.wired.counted ha ho)

/-- Where its merge was passed, such a phi holds the value that it gets on all
edges. -/
theorem Reach.phi_holds (h : Reach g arguments κ) : ∀ {q}, κ.previous = some q → g.Dominates m q →
    ∃ v, κ.bindings old = some v ∧ Denotes g arguments κ.bindings new v := by
  have howns : Owns g m old := .inl (mem_phisOf.2 ⟨n, hn, hk, hc⟩)
  induction h with
  | start => exact fun hq => by cases hq
  | @step κ l κ₁ hκ hs ih =>
    intro q hq hdom
    obtain rfl : κ.current = q := Option.some.inj (hs.edge.1.symm.trans hq)
    have hcarry : ∀ {v}, Denotes g arguments κ.bindings new v →
        Denotes g arguments κ₁.bindings new v := by
      refine fun hd => hd.congr_asks fun y hy => hs.bindings_eq fun ho => ?_
      obtain ⟨h1, h2⟩ := owner_of_asks hf hn hk hc hr hall hy ho
      exact h2 (h1.antisymm hdom hr)
    by_cases hcur : κ.current = m
    · obtain ⟨nm, q, i, p, y, v, hnm, hq, hi, hp, hy, hd, hv⟩ :=
        hs.bindings_phi hf.wired (mem_phisOf.2 ⟨n, hn, hk, hc⟩) hcur
      obtain rfl := Option.some.inj (hn.symm.trans hp)
      rcases hall y (List.mem_of_getElem? hy) with rfl | rfl
      · obtain ⟨m', hm', hrest⟩ := hf.wired.phis y n hn hk
        obtain rfl : m' = m := by simpa [hm'] using hc
        have hav := ((hrest nm hnm).2 hr).2 i q y (getElem?_of_idxOf? hi) hy
        obtain ⟨v', hv', hd'⟩ := ih hq (hav.phi_dominates hn hk hc)
        obtain rfl : v = v' := hd.unique (.register hn (by rw [hk]; rfl) hv')
        exact ⟨v, hv, hcarry hd'⟩
      · exact ⟨v, hv, hcarry hd⟩
    · obtain ⟨q, hq, hfo⟩ : ∃ q, κ.previous = some q ∧ g.Follows q κ.current := by
        rcases hκ.at_edge with rfl | ⟨q, hq, -, hfo⟩
        · exact absurd (List.mem_singleton.1 (hdom [] .start)).symm hcur
        · exact ⟨q, hq, hfo⟩
      obtain ⟨v, hv, hd⟩ := ih hq (hdom.of_follows (Ne.symm hcur) hfo)
      exact ⟨v, (hs.bindings_eq fun ho => hcur (ho.unique howns)).trans hv, hcarry hd⟩

end

theorem runsAlike_phi (hf : g.Formed) (hsafe : Safe g arguments) (hn : g.node? old = some n)
    (hk : n.kind = .phi) (hnew : new ∈ n.inputs) (hall : ∀ y ∈ n.inputs, y = old ∨ y = new) :
    RunsAlike g (g.replaceValue old new) arguments := by
  obtain ⟨m, hm, -⟩ := hf.wired.phis old n hn hk
  have hc : n.control.head? = some m := by rw [hm]; rfl
  have hregister : ∀ {ρ ρ' : Bindings} {x n₁ v},
      (∀ x, (g.replaceValue old new).contains x → ρ' x = ρ x) → x ≠ old → g.node? x = some n₁ →
      n₁.kind.isRegister → ρ x = some v → Denotes (g.replaceValue old new) arguments ρ' x v := by
    intro ρ ρ' x n₁ v hρ hx hn₁ hr hv
    have hn' := node?_redirected new hx hn₁
    exact .register hn' hr ((hρ x (Option.isSome_iff_exists.2 ⟨_, hn'⟩)).trans hv)
  have hmoved : ∀ {x n₁}, g.node? x = some n₁ → n₁.kind.isRegister = false →
      ∃ n', (g.replaceValue old new).node? (redirect old new x) = some n' ∧
      Moved (redirect old new) n₁ n' := by
    intro x n₁ hn₁ hr
    have hx : x ≠ old := by
      rintro rfl
      obtain rfl := Option.some.inj (hn.symm.trans hn₁)
      rw [hk] at hr
      cases hr
    rw [redirect_of_ne hx]
    exact ⟨_, node?_redirected new hx hn₁, .redirected _ _ _⟩
  refine runsAlike_replaceValue hf hsafe (standsIn_phi hf hn hk hnew hall)
    (fun {n₁ shape} hn₁ hk₁ => ?_) fun {κ ρ' q y v} hκ hρ hq hav hd => ?_
  · obtain rfl := Option.some.inj (hn.symm.trans hn₁)
    rw [hk] at hk₁
    cases hk₁
  refine denotes_of_moved (redirect old new) (P := g.Available q)
    (fun hx hn₁ _ hr => ⟨hmoved hn₁ hr, hx.inputs hn₁⟩) (fun {x n₁ v} hx hn₁ hr hv => ?_) hd hav
  by_cases hxo : x = old
  · -- in place of the phi its input is read, which does not read the phi
    subst hxo
    have hdom := hx.phi_dominates hn hk hc
    have hrm : g.Reached m := by
      rcases hκ.at_edge with rfl | ⟨q', hq', hrq, -⟩
      · cases hq
      · obtain rfl := Option.some.inj (hq.symm.trans hq')
        exact hdom.reached hrq
    obtain ⟨u, hu, hdu⟩ := hκ.phi_holds hf hn hk hc hrm hall hq hdom
    obtain rfl := Option.some.inj (hv.symm.trans hu)
    have hinput : Denotes (g.replaceValue x new) arguments ρ' (redirect x new new) v := by
      refine denotes_of_moved (redirect x new) (P := fun z => ¬ g.Asks z x)
        (fun {z n₁} hz hn₁ hfl hr => ⟨hmoved hn₁ hr, ?_⟩) (fun {z n₁ u} hz hn₁ hr hu => ?_) hdu ?_
      · intro ho y hy ha
        refine hz (.edge hn₁ hfl (fun he => ?_) (List.mem_append_left _ hy) ha)
        rw [he] at ho
        cases ho
      · have hzx : z ≠ x := fun he => hz (he ▸ .self _)
        rw [redirect_of_ne hzx]
        exact hregister hρ hzx hn₁ hr hu
      · intro ha
        exact (owner_of_asks hf hn hk hc hrm hall ha (.inl (mem_phisOf.2 ⟨n, hn, hk, hc⟩))).2 rfl
    rw [redirect_new] at hinput
    rwa [redirect_self]
  · rw [redirect_of_ne hxo]
    exact hregister hρ hxo hn₁ hr hv

end Code

end TieredEngine

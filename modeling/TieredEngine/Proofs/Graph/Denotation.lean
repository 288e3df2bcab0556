import Mathlib.Data.List.Nodup
import Mathlib.Data.List.Perm.Subperm
import Mathlib.Tactic.Linarith
import TieredEngine.Code
import TieredEngine.Proofs.Computation
import TieredEngine.Proofs.Graph.Shapes
import TieredEngine.Proofs.Graph.Views
/-!
# What a node stands for

Running code computes the value of a floating node when it is asked for and
remembers it. What it computes is said here without an order or a memory:
`Denotes` gives the value of a node from the arguments of the run and the
values of the registers, which are the phis and the calls. `valueOf_eq` and
`handOver_eq` are that running code finds these values and the frames made of
them.
-/

namespace TieredEngine

/-! ## Bindings -/

/-- The values of the registers that may be read. -/
abbrev Bindings := NodeId → Option Value

/-- Every register that the first has, the second has too. -/
def Bindings.Le (ρ ρ' : Bindings) : Prop := ∀ id v, ρ id = some v → ρ' id = some v

theorem Bindings.Le.refl (ρ : Bindings) : ρ.Le ρ := fun _ _ h => h

theorem Bindings.Le.trans {ρ₁ ρ₂ ρ₃ : Bindings} (h : ρ₁.Le ρ₂) (h' : ρ₂.Le ρ₃) : ρ₁.Le ρ₃ :=
  fun id v hv => h' id v (h id v hv)

/-- Whether the value of a node is kept in a register. -/
def NodeKind.isRegister : NodeKind → Bool
  | .phi | .invoke .. => true
  | _ => false

/-! ## Denotation -/

section

variable (g : Graph) (arguments : List Value) (ρ : Bindings)

/-- The value of a node. -/
inductive Denotes : NodeId → Value → Prop
  | constant {id n v} : g.node? id = some n → n.kind = .constant v → Denotes id v
  | parameter {id n index} : g.node? id = some n → n.kind = .parameter index →
    Denotes id ((arguments[index]?).getD .null)
  | binary {id n op x y a b v} : g.node? id = some n → n.kind = .binary op → n.inputs[0]? = some x →
    n.inputs[1]? = some y → Denotes x a → Denotes y b → op.apply a b = .ok v → Denotes id v
  | unary {id n op x a v} : g.node? id = some n → n.kind = .unary op → n.inputs[0]? = some x →
    Denotes x a → op.apply a = .ok v → Denotes id v
  | register {id n v} : g.node? id = some n → n.kind.isRegister → ρ id = some v → Denotes id v

/-- The value of a node that is nested at most as deep as the number says. -/
inductive DenotesIn : Nat → NodeId → Value → Prop
  | constant {h id n v} : g.node? id = some n → n.kind = .constant v → DenotesIn h id v
  | parameter {h id n index} : g.node? id = some n → n.kind = .parameter index →
    DenotesIn h id ((arguments[index]?).getD .null)
  | binary {h id n op x y a b v} : g.node? id = some n → n.kind = .binary op →
      n.inputs[0]? = some x → n.inputs[1]? = some y → DenotesIn h x a → DenotesIn h y b →
      op.apply a b = .ok v → DenotesIn (h + 1) id v
  | unary {h id n op x a v} : g.node? id = some n → n.kind = .unary op → n.inputs[0]? = some x →
    DenotesIn h x a → op.apply a = .ok v → DenotesIn (h + 1) id v
  | register {h id n v} : g.node? id = some n → n.kind.isRegister → ρ id = some v → DenotesIn h id v

end

variable {g : Graph} {arguments : List Value} {ρ ρ' : Bindings}

theorem Denotes.mono {id : NodeId} {v : Value} (h : Denotes g arguments ρ id v) (hρ : ρ.Le ρ') :
    Denotes g arguments ρ' id v := by
  induction h with
  | constant h hk => exact .constant h hk
  | parameter h hk => exact .parameter h hk
  | binary h hk hx hy _ _ ho ihx ihy => exact .binary h hk hx hy ihx ihy ho
  | unary h hk hx _ ho ih => exact .unary h hk hx ih ho
  | register h hk hr => exact .register h hk (hρ _ _ hr)

/-- A node has one value. -/
theorem Denotes.unique {id : NodeId} {v w : Value} (h : Denotes g arguments ρ id v)
    (h' : Denotes g arguments ρ id w) : v = w := by
  induction h generalizing w with
  | constant h hk => cases h' <;> simp_all [NodeKind.isRegister]
  | parameter h hk => cases h' <;> simp_all [NodeKind.isRegister]
  | register h hk hr => cases h' <;> simp_all [NodeKind.isRegister]
  | binary h hk hx hy _ _ ho ihx ihy =>
    cases h' with
    | binary h' hk' hx' hy' ha hb ho' =>
      obtain rfl := Option.some.inj (h.symm.trans h')
      obtain rfl := NodeKind.binary.inj (hk.symm.trans hk')
      obtain rfl := Option.some.inj (hx.symm.trans hx')
      obtain rfl := Option.some.inj (hy.symm.trans hy')
      rw [← ihx ha, ← ihy hb, ho] at ho'
      exact Except.ok.inj ho'
    | _ => simp_all [NodeKind.isRegister]
  | unary h hk hx _ ho ih =>
    cases h' with
    | unary h' hk' hx' ha ho' =>
      obtain rfl := Option.some.inj (h.symm.trans h')
      obtain rfl := NodeKind.unary.inj (hk.symm.trans hk')
      obtain rfl := Option.some.inj (hx.symm.trans hx')
      rw [← ih ha, ho] at ho'
      exact Except.ok.inj ho'
    | _ => simp_all [NodeKind.isRegister]

theorem Denotes.contains {id : NodeId} {v : Value} (h : Denotes g arguments ρ id v) :
    ∃ n, g.node? id = some n := by
  cases h <;> exact ⟨_, ‹_›⟩

/-! ## The value, where there is one -/

/-- The node has a value. -/
def Known (g : Graph) (arguments : List Value) (ρ : Bindings) (id : NodeId) : Prop :=
  ∃ v, Denotes g arguments ρ id v

open Classical in
/-- The value of a node, null if it has none. -/
noncomputable def valueAt (g : Graph) (arguments : List Value) (ρ : Bindings)
  (id : NodeId) : Value := if h : ∃ v, Denotes g arguments ρ id v then h.choose else .null

theorem Known.denotes {id : NodeId} (h : Known g arguments ρ id) :
    Denotes g arguments ρ id (valueAt g arguments ρ id) := by
  have h' : ∃ v, Denotes g arguments ρ id v := h
  rw [valueAt, dif_pos h']
  exact h'.choose_spec

theorem Denotes.valueAt_eq {id : NodeId} {v : Value} (h : Denotes g arguments ρ id v) :
    valueAt g arguments ρ id = v :=
  (Known.denotes ⟨v, h⟩).unique h

theorem Known.mono {id : NodeId} (h : Known g arguments ρ id) (hρ : ρ.Le ρ') :
    Known g arguments ρ' id :=
  h.imp fun _ h => h.mono hρ

theorem Known.valueAt_mono {id : NodeId} (h : Known g arguments ρ id) (hρ : ρ.Le ρ') :
    valueAt g arguments ρ' id = valueAt g arguments ρ id :=
  (h.denotes.mono hρ).valueAt_eq

theorem forall₂_valueAt {ids : List NodeId} (h : ∀ id ∈ ids, Known g arguments ρ id) :
    List.Forall₂ (Denotes g arguments ρ) ids (ids.map (valueAt g arguments ρ)) := by
  induction ids with
  | nil => exact .nil
  | cons id ids ih =>
    exact .cons (h id List.mem_cons_self).denotes (ih fun x hx => h x (List.mem_cons_of_mem _ hx))

/-! ## How deep values nest -/

theorem DenotesIn.denotes {h : Nat} {id : NodeId} {v : Value}
    (hd : DenotesIn g arguments ρ h id v) :
    Denotes g arguments ρ id v := by
  induction hd with
  | constant h hk => exact .constant h hk
  | parameter h hk => exact .parameter h hk
  | binary h hk hx hy _ _ ho ihx ihy => exact .binary h hk hx hy ihx ihy ho
  | unary h hk hx _ ho ih => exact .unary h hk hx ih ho
  | register h hk hr => exact .register h hk hr

theorem DenotesIn.mono {h k : Nat} {id : NodeId} {v : Value} (hd : DenotesIn g arguments ρ h id v)
    (hle : h ≤ k) :
    DenotesIn g arguments ρ k id v := by
  induction hd generalizing k with
  | constant h hk => exact .constant h hk
  | parameter h hk => exact .parameter h hk
  | register h hk hr => exact .register h hk hr
  | binary h hk hx hy _ _ ho ihx ihy =>
    obtain ⟨k, rfl⟩ := Nat.exists_eq_add_of_le hle
    rw [Nat.add_right_comm]
    exact .binary h hk hx hy (ihx (by omega)) (ihy (by omega)) ho
  | unary h hk hx _ ho ih =>
    obtain ⟨k, rfl⟩ := Nat.exists_eq_add_of_le hle
    rw [Nat.add_right_comm]
    exact .unary h hk hx (ih (by omega)) ho

theorem Denotes.exists_depth {id : NodeId} {v : Value} (h : Denotes g arguments ρ id v) :
    ∃ k, DenotesIn g arguments ρ k id v := by
  induction h with
  | constant h hk => exact ⟨0, .constant h hk⟩
  | parameter h hk => exact ⟨0, .parameter h hk⟩
  | register h hk hr => exact ⟨0, .register h hk hr⟩
  | binary h hk hx hy _ _ ho ihx ihy =>
    obtain ⟨k, hk'⟩ := ihx
    obtain ⟨j, hj⟩ := ihy
    exact ⟨max k j + 1, .binary h hk hx hy (hk'.mono (by omega)) (hj.mono (by omega)) ho⟩
  | unary h hk hx _ ho ih =>
    obtain ⟨k, hk'⟩ := ih
    exact ⟨k + 1, .unary h hk hx hk' ho⟩

/-- If members of a graph have levels, and below every level but the lowest
there is a member of the next, then no level is as high as the arena is long. -/
theorem level_lt_size (level : Nat → NodeId → Prop) (hn : ∀ k id, level k id → id < g.nodes.size)
    (hu : ∀ j k id, level j id → level k id → j = k)
    (hd : ∀ k id, level (k + 1) id → ∃ id', level k id') {k : Nat} {id : NodeId} (h : level k id) :
    k < g.nodes.size := by
  have hchain : ∀ k id, level k id →
      ∃ ids : List NodeId, ids.Nodup ∧ ids.length = k + 1 ∧ ∀ x ∈ ids, ∃ j ≤ k, level j x := by
    intro k
    induction k with
    | zero =>
      exact fun id h =>
        ⟨[id], by simp, rfl, fun x hx => ⟨0, by omega, by simpa using List.mem_singleton.1 hx ▸ h⟩⟩
    | succ k ih =>
      intro id h
      obtain ⟨id', h'⟩ := hd k id h
      obtain ⟨ids, h1, h2, h3⟩ := ih id' h'
      refine ⟨id :: ids, List.nodup_cons.2 ⟨fun hmem => ?_, h1⟩, by simp [h2], fun x hx => ?_⟩
      · obtain ⟨j, hj, hl⟩ := h3 id hmem
        have := hu _ _ _ hl h
        omega
      · rcases List.mem_cons.1 hx with rfl | hx
        · exact ⟨k + 1, by omega, h⟩
        · obtain ⟨j, hj, hl⟩ := h3 x hx
          exact ⟨j, by omega, hl⟩
  obtain ⟨ids, h1, h2, h3⟩ := hchain k id h
  have hsub : ids ⊆ List.range g.nodes.size := fun x hx => by
    obtain ⟨j, -, hl⟩ := h3 x hx
    exact List.mem_range.2 (hn j x hl)
  have := (List.subperm_of_subset h1 hsub).length_le
  rw [List.length_range] at this
  omega

/-- Values are nested less deep than the arena is long. -/
theorem Denotes.depth {id : NodeId} {v : Value} (h : Denotes g arguments ρ id v) :
    DenotesIn g arguments ρ (g.nodes.size - 1) id v := by
  -- the level of a node is the least depth at which it has its value
  let level (k : Nat) (id : NodeId) : Prop :=
    (∃ v, DenotesIn g arguments ρ k id v) ∧ ∀ j < k, ¬ ∃ v, DenotesIn g arguments ρ j id v
  have hbelow : ∀ k x a, DenotesIn g arguments ρ k x a →
      (∀ j < k, ¬ ∃ v, DenotesIn g arguments ρ j x v) ∨
      (0 < k ∧ DenotesIn g arguments ρ (k - 1) x a) := by
    intro k x a hx
    by_cases hj : ∃ j < k, ∃ v, DenotesIn g arguments ρ j x v
    · obtain ⟨j, hj, v, hv⟩ := hj
      obtain rfl := hv.denotes.unique hx.denotes
      exact .inr ⟨by omega, hv.mono (by omega)⟩
    · exact .inl fun j hj' h => hj ⟨j, hj', h⟩
  obtain ⟨k, hk⟩ := h.exists_depth
  have hex : ∃ k, ∃ v, DenotesIn g arguments ρ k id v := ⟨k, v, hk⟩
  classical
  obtain ⟨w, hw⟩ := Nat.find_spec hex
  obtain rfl := hw.denotes.unique h
  have hlt := level_lt_size (g := g) level
    (fun k id ⟨⟨v, hv⟩, _⟩ => by
      obtain ⟨n, hn⟩ := hv.denotes.contains
      exact Graph.lt_size_of_node? hn)
    (fun j k id hj hk => by
      by_contra hne
      rcases Nat.lt_or_gt_of_ne hne with hlt | hlt
      · exact hk.2 j hlt hj.1
      · exact hj.2 k hlt hk.1)
    (fun k id ⟨⟨v, hv⟩, hmin⟩ => by
      cases hv with
      | constant h hk => exact absurd ⟨_, .constant h hk⟩ (hmin 0 (by omega))
      | parameter h hk => exact absurd ⟨_, .parameter h hk⟩ (hmin 0 (by omega))
      | register h hk hr => exact absurd ⟨_, .register h hk hr⟩ (hmin 0 (by omega))
      | unary h hk hx ha ho =>
        rcases hbelow _ _ _ ha with hl | ⟨hpos, hl⟩
        · exact ⟨_, ⟨_, ha⟩, hl⟩
        · obtain ⟨k, rfl⟩ := Nat.exists_eq_succ_of_ne_zero (Nat.pos_iff_ne_zero.1 hpos)
          exact absurd ⟨_, .unary h hk hx hl ho⟩ (hmin (k + 1) (by omega))
      | binary h hk hx hy ha hb ho =>
        rcases hbelow _ _ _ ha with hl | ⟨hpos, hl⟩
        · exact ⟨_, ⟨_, ha⟩, hl⟩
        rcases hbelow _ _ _ hb with hl' | ⟨-, hl'⟩
        · exact ⟨_, ⟨_, hb⟩, hl'⟩
        · obtain ⟨k, rfl⟩ := Nat.exists_eq_succ_of_ne_zero (Nat.pos_iff_ne_zero.1 hpos)
          exact absurd ⟨_, .binary h hk hx hy hl hl' ho⟩ (hmin (k + 1) (by omega)))
    ⟨⟨w, hw⟩, fun j hj => Nat.find_min hex hj⟩
  exact hw.mono (by omega)

/-! ## Looking values up -/

namespace Code

/-- The values that are set. -/
def Registers.bindings (r : Registers) : Bindings := fun id => r.values.lookup id

/-- Every remembered value is the value of its node. -/
def Coherent (g : Graph) (arguments : List Value) (r : Registers) : Prop :=
  ∀ id v, r.cache.lookup id = some v → Denotes g arguments r.bindings id v

/-- A reading computation gives a result and changes nothing but what is
remembered. -/
def Finds {α : Type} (g : Graph) (arguments : List Value) (x : Reading α) (r : Registers) (a : α) :
    Prop :=
  ∃ cache, x r = .done a ⟨r.values, cache⟩ ∧ Coherent g arguments ⟨r.values, cache⟩

variable {α β : Type} {r : Registers}

theorem finds_pure (h : Coherent g arguments r) (a : α) :
    Finds g arguments (pure a) r a := ⟨r.cache, rfl, h⟩

theorem finds_bind {x : Reading α} {f : α → Reading β} {a : α} {b : β}
    (hx : Finds g arguments x r a)
    (hf : ∀ cache, Coherent g arguments ⟨r.values, cache⟩ →
      Finds g arguments (f a) ⟨r.values, cache⟩ b) :
    Finds g arguments (x >>= f) r b := by
  obtain ⟨cache, h1, h2⟩ := hx
  obtain ⟨cache', h3, h4⟩ := hf cache h2
  exact ⟨cache', by rw [Comp.bind_done h1, h3], h4⟩

theorem finds_state {f : Registers → Reading β} {b : β} (h : Finds g arguments (f r) r b) :
    Finds g arguments (Comp.state >>= f) r b := h

theorem finds_mapM {ι : Type} {f : ι → Reading β} {values : Values} {is : List ι} {bs : List β}
    (h : List.Forall₂ (fun i b => ∀ cache, Coherent g arguments ⟨values, cache⟩ →
      Finds g arguments (f i) ⟨values, cache⟩ b) is bs) :
    ∀ {cache}, Coherent g arguments ⟨values, cache⟩ →
      Finds g arguments (is.mapM f) ⟨values, cache⟩ bs := by
  induction h with
  | nil => exact fun hr => finds_pure hr _
  | cons h1 _ ih =>
    intro cache hr
    rw [List.mapM_cons]
    refine finds_bind (h1 cache hr) fun cache hc => ?_
    exact finds_bind (ih hc) fun cache' hc' => finds_pure hc' _

theorem finds_remember {id : NodeId} {v : Value} (hr : Coherent g arguments r)
    (h : Denotes g arguments r.bindings id v) : Finds g arguments (remember id v) r v := by
  refine ⟨(id, v) :: r.cache, rfl, fun id' v' hl => ?_⟩
  rw [List.lookup_cons] at hl
  split at hl
  · obtain rfl : id' = id := by simp_all
    obtain rfl := Option.some.inj hl
    exact h
  · exact hr id' v' hl

theorem inputAt_eq {σ : Type} {id x : NodeId} {inputs : List NodeId} {i : Nat}
    (h : inputs[i]? = some x) :
    (inputAt id inputs i : Comp GuestError σ NodeId) = pure x := by
  simp only [inputAt, h]

theorem ofExcept_ok {ε σ : Type} {x : Except ε α} {a : α} (h : x = .ok a) :
    (Comp.ofExcept x : Comp ε σ α) = pure a := by
  subst h; rfl

theorem valueUpTo_eq (k : Nat) :
    ∀ {r : Registers} {id : NodeId} {v : Value}, Coherent g arguments r →
    DenotesIn g arguments r.bindings k id v → ∀ fuel, k < fuel →
      Finds g arguments (valueUpTo g arguments fuel id) r v := by
  induction k using Nat.strong_induction_on with
  | _ k ih =>
  intro r id v hr h fuel hf
  obtain ⟨fuel, rfl⟩ := Nat.exists_eq_succ_of_ne_zero (by omega : fuel ≠ 0)
  rw [valueUpTo]
  refine finds_state ?_
  cases hc : r.cache.lookup id with
  | some w =>
    obtain rfl := (hr id w hc).unique h.denotes
    exact finds_pure hr _
  | none =>
    dsimp only
    cases h with
    | constant h hk =>
      simp only [h, hk]
      exact finds_remember hr (.constant h hk)
    | parameter h hk =>
      simp only [h, hk]
      exact finds_remember hr (.parameter h hk)
    | @binary k _ n op x y a b _ h hk hx hy ha hb ho =>
      simp only [h, hk, inputAt_eq hx, inputAt_eq hy, pure_bind]
      refine finds_bind (ih k (by omega) hr ha fuel (by omega)) fun _ hr => ?_
      refine finds_bind (ih k (by omega) hr hb fuel (by omega)) fun _ hr => ?_
      rw [ofExcept_ok ho, pure_bind]
      exact finds_remember hr (.binary h hk hx hy ha.denotes hb.denotes ho)
    | @unary k _ n op x a _ h hk hx ha ho =>
      simp only [h, hk, inputAt_eq hx, pure_bind]
      refine finds_bind (ih k (by omega) hr ha fuel (by omega)) fun _ hr => ?_
      rw [ofExcept_ok ho, pure_bind]
      exact finds_remember hr (.unary h hk hx ha.denotes ho)
    | register h hk hv =>
      simp only [h]
      split
      all_goals first
        | (exfalso; simp_all [NodeKind.isRegister]; done)
        | skip
      all_goals
        refine finds_state ?_
        rw [show r.values.lookup id = some v from hv]
        exact finds_pure hr _

/-- Running code finds the value that a node stands for. -/
theorem valueOf_eq {id : NodeId} {v : Value} (hr : Coherent g arguments r) (hρ : ρ.Le r.bindings)
    (h : Denotes g arguments ρ id v) : Finds g arguments (valueOf g arguments id) r v :=
  valueUpTo_eq _ hr (h.mono hρ).depth _ (by omega)

theorem valuesOf_eq {ids : List NodeId} {vs : List Value} (hr : Coherent g arguments r)
    (hρ : ρ.Le r.bindings) (h : List.Forall₂ (Denotes g arguments ρ) ids vs) :
    Finds g arguments (ids.mapM (valueOf g arguments)) r vs :=
  finds_mapM (h.imp fun _ _ hd cache hc => valueOf_eq (r := ⟨r.values, cache⟩) hc hρ hd) hr

end Code

/-! ## Frames -/

/-- The frames that a chain of frame states stands for, innermost first. -/
inductive FramesAt (g : Graph) (arguments : List Value) (ρ : Bindings) :
    NodeId → List SuspendedFrame → Prop
  | last {s n shape vs} : g.node? s = some n → n.kind = .frameState shape →
      shape.Counts n.inputs.length → n.state = none →
      List.Forall₂ (Denotes g arguments ρ) n.inputs vs → FramesAt g arguments ρ s [shape.fill vs]
  | more {s n shape vs o fs} : g.node? s = some n → n.kind = .frameState shape →
      shape.Counts n.inputs.length → n.state = some o →
      List.Forall₂ (Denotes g arguments ρ) n.inputs vs →
      FramesAt g arguments ρ o fs → FramesAt g arguments ρ s (shape.fill vs :: fs)

theorem FramesAt.mono {s : NodeId} {fs : List SuspendedFrame} (h : FramesAt g arguments ρ s fs)
    (hρ : ρ.Le ρ') :
    FramesAt g arguments ρ' s fs := by
  induction h with
  | last h hk hl hs hv => exact .last h hk hl hs (hv.imp fun _ _ h => h.mono hρ)
  | more h hk hl hs hv _ ih => exact .more h hk hl hs (hv.imp fun _ _ h => h.mono hρ) ih

theorem Forall₂.denotes_unique {ids : List NodeId} {vs ws : List Value}
    (h : List.Forall₂ (Denotes g arguments ρ) ids vs)
    (h' : List.Forall₂ (Denotes g arguments ρ) ids ws) : vs = ws := by
  induction h generalizing ws with
  | nil => cases h'; rfl
  | cons h1 _ ih =>
    cases h' with
    | cons h2 h3 => rw [h1.unique h2, ih h3]

theorem FramesAt.unique {s : NodeId} {fs fs' : List SuspendedFrame}
    (h : FramesAt g arguments ρ s fs) (h' : FramesAt g arguments ρ s fs') : fs = fs' := by
  induction h generalizing fs' with
  | last h hk hl hs hv =>
    cases h' with
    | last h' hk' hl' hs' hv' =>
      obtain rfl := Option.some.inj (h.symm.trans h')
      obtain rfl := NodeKind.frameState.inj (hk.symm.trans hk')
      rw [Forall₂.denotes_unique hv hv']
    | more h' hk' hl' hs' hv' _ => simp_all
  | more h hk hl hs hv _ ih =>
    cases h' with
    | last h' hk' hl' hs' hv' => simp_all
    | more h' hk' hl' hs' hv' hf =>
      obtain rfl := Option.some.inj (h.symm.trans h')
      obtain rfl := NodeKind.frameState.inj (hk.symm.trans hk')
      obtain rfl := Option.some.inj (hs.symm.trans hs')
      rw [Forall₂.denotes_unique hv hv', ih hf]

theorem FramesAt.exists_cons {s : NodeId} {fs : List SuspendedFrame}
    (h : FramesAt g arguments ρ s fs) :
    ∃ f callers, fs = f :: callers := by
  cases h <;> exact ⟨_, _, rfl⟩

/-- The first frame of a chain has the mode that its frame state names. -/
theorem FramesAt.mode_eq {s : NodeId} {n : Node} {shape : FrameShape} {f : SuspendedFrame}
    {callers : List SuspendedFrame} (h : FramesAt g arguments ρ s (f :: callers))
    (hn : g.node? s = some n) (hk : n.kind = .frameState shape) :
    f.mode = shape.mode := by
  cases h with
  | last hn' hk' | more hn' hk' =>
    obtain rfl := Option.some.inj (hn.symm.trans hn')
    obtain rfl := NodeKind.frameState.inj (hk.symm.trans hk')
    rfl

/-- A chain has no more frames than the arena has positions. -/
theorem FramesAt.length_le {s : NodeId} {fs : List SuspendedFrame}
    (h : FramesAt g arguments ρ s fs) :
    fs.length ≤ g.nodes.size := by
  have hlt := level_lt_size (g := g) (fun k s => ∃ fs, FramesAt g arguments ρ s fs ∧
    fs.length = k + 1) (fun k s ⟨fs, hf, _⟩ => by cases hf <;> exact Graph.lt_size_of_node? ‹_›)
    (fun j k s ⟨fs, hf, hj⟩ ⟨fs', hf', hk⟩ => by
      obtain rfl := hf.unique hf'
      omega)
    (fun k s ⟨fs, hf, hk⟩ => by
      cases hf with
      | last => simp at hk
      | more _ _ _ _ _ hf => exact ⟨_, _, hf, by simpa using hk⟩)
    (show ∃ fs', FramesAt g arguments ρ s fs' ∧ fs'.length = fs.length - 1 + 1
      from ⟨fs, h, by obtain ⟨f, callers, rfl⟩ := h.exists_cons; simp⟩)
  omega

namespace Code

variable {r : Registers}

/-- Following the state edges of a chain and reading its frames gives its
frames. -/
theorem finds_frames {s : NodeId} {fs : List SuspendedFrame} (h : FramesAt g arguments ρ s fs) :
    ∀ {r : Registers}, Coherent g arguments r → ρ.Le r.bindings → ∀ fuel, fs.length ≤ fuel →
      (g.followStates fuel s).ending = .complete ∧
        Finds g arguments (Graph.readFrames (valueOf g arguments) (fault .frameOverrun)
            (g.followStates fuel s).frames) r fs := by
  have happart : ∀ {shape : FrameShape} {ids : List NodeId} {vs : List Value},
      shape.Counts ids.length → List.Forall₂ (Denotes g arguments ρ) ids vs →
      Graph.takeApart (fault .frameOverrun : Reading SuspendedFrame) shape vs =
        pure (shape.fill vs) := fun hc hv =>
    if_pos (hv.length_eq ▸ hc.splits)
  induction h with
  | @last s n shape vs h hk hl hs hv =>
    intro r hr hρ fuel hf
    obtain ⟨fuel, rfl⟩ := Nat.exists_eq_succ_of_ne_zero (by simp at hf; omega : fuel ≠ 0)
    obtain ⟨kind, inputs, control, state⟩ := n
    dsimp only at hk hl hs hv
    subst hk hs
    simp only [Graph.followStates, h, if_pos hl.valueCount_eq.symm, Graph.readFrames, true_and]
    refine finds_bind (valuesOf_eq hr hρ hv) fun _ hr => ?_
    rw [happart hl hv, pure_bind, pure_bind]
    exact finds_pure hr _
  | @more s n shape vs o fs h hk hl hs hv _ ih =>
    intro r hr hρ fuel hf
    obtain ⟨fuel, rfl⟩ := Nat.exists_eq_succ_of_ne_zero (by simp at hf; omega : fuel ≠ 0)
    obtain ⟨kind, inputs, control, state⟩ := n
    dsimp only at hk hl hs hv
    subst hk hs
    have hlen : fs.length ≤ fuel := by simpa using hf
    simp only [Graph.followStates, h, if_pos hl.valueCount_eq.symm, Graph.readFrames]
    refine ⟨(ih hr hρ fuel hlen).1, ?_⟩
    refine finds_bind (valuesOf_eq hr hρ hv) fun _ hr => ?_
    rw [happart hl hv, pure_bind]
    exact finds_bind (ih hr hρ fuel hlen).2 fun _ hr => finds_pure hr _

/-- Running code hands over the frames that a chain of frame states stands
for. -/
theorem handOver_eq (id : NodeId) {s : NodeId} {f : SuspendedFrame} {callers : List SuspendedFrame}
    (hr : Coherent g arguments r) (hρ : ρ.Le r.bindings)
    (h : FramesAt g arguments ρ s (f :: callers)) (result : Option Value) :
    Finds g arguments (handOver g arguments id (some s) result) r
      ⟨match result with | some v => f.push v | none => f, callers⟩ := by
  obtain ⟨h1, h2⟩ := finds_frames h hr hρ g.nodes.size h.length_le
  rw [handOver, Graph.materialize, Graph.stateChain, bind_assoc]
  refine finds_bind h2 fun _ hr => ?_
  rw [h1]
  simp only [pure_bind]
  cases result with
  | none => exact finds_pure hr _
  | some v => exact finds_pure hr _

end Code

end TieredEngine

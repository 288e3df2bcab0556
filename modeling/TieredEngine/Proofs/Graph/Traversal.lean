import Mathlib.Data.List.TakeWhile
import TieredEngine.Graph.Reach
import TieredEngine.Proofs.Graph.Dominance
/-!
# Traversals

A traversal visits what can be reached from its agenda, and nothing else:
whatever holds of the agenda and is passed on to neighbours holds of all
visited ids (`visit_sound`), and the visited ids are closed under neighbours
(`visit_complete`). So `reachable` is where control gets to: `mem_reachable`.
-/

namespace TieredEngine

section

variable {grow : List NodeId → List NodeId → List NodeId} {next : NodeId → List NodeId}

/-- The first id of the agenda that is not visited yet, with what is behind
it. -/
theorem mem_of_dropWhile {agenda fresh rest : List NodeId} {id a : NodeId}
    (h : (agenda.dropWhile fun id => !fresh.contains id) = id :: rest) (ha : a ∈ agenda)
    (hf : a ∈ fresh) :
    a ∈ id :: rest := by
  rw [← h]
  induction agenda with
  | nil => cases ha
  | cons b agenda ih =>
    by_cases hb : b ∈ fresh
    · rw [List.dropWhile_cons_of_neg (by simpa using hb)]
      exact ha
    · have hdrop : ((b :: agenda).dropWhile fun id => !fresh.contains id) = agenda.dropWhile
          fun id => !fresh.contains id := List.dropWhile_cons_of_pos (by simpa using hb)
      rw [hdrop] at h ⊢
      rcases List.mem_cons.1 ha with rfl | ha
      · exact absurd hf hb
      · exact ih h ha

/-- What holds of the agenda and of the neighbours of whatever it holds of,
holds of everything that is visited. -/
theorem visit_sound (hgrow : ∀ rest new x, x ∈ grow rest new ↔ x ∈ rest ∨ x ∈ new)
    {P : NodeId → Prop} (hP : ∀ x, P x → ∀ y ∈ next x, P y) (fuel : ℕ) :
    ∀ agenda fresh : List NodeId, (∀ a ∈ agenda, P a) →
      ∀ x ∈ visit grow next fuel agenda fresh, P x := by
  induction fuel with
  | zero => exact fun _ _ _ x hx => by simp [visit] at hx
  | succ fuel ih =>
    intro agenda fresh ha x hx
    rw [visit] at hx
    split at hx
    · cases hx
    · rename_i id rest hd
      have hsub : id :: rest ⊆ agenda := hd ▸ (List.dropWhile_suffix _).subset
      have hid : P id := ha id (hsub List.mem_cons_self)
      rcases List.mem_cons.1 hx with rfl | hx
      · exact hid
      · refine ih _ _ (fun a h => ?_) x hx
        rcases (hgrow _ _ _).1 h with h | h
        · exact ha a (hsub (List.mem_cons_of_mem _ h))
        · exact hP id hid a h

/-- Whatever may be visited is visited if it is on the agenda, or next to
something that is visited. -/
theorem visit_complete (hgrow : ∀ rest new x, x ∈ grow rest new ↔ x ∈ rest ∨ x ∈ new) (fuel : ℕ) :
    ∀ agenda fresh : List NodeId, fresh.length ≤ fuel → ∀ y ∈ fresh,
      (y ∈ agenda ∨ ∃ x ∈ visit grow next fuel agenda fresh, y ∈ next x) →
        y ∈ visit grow next fuel agenda fresh := by
  induction fuel with
  | zero =>
    intro agenda fresh hl y hy
    rw [List.length_eq_zero_iff.1 (Nat.le_zero.1 hl)] at hy
    cases hy
  | succ fuel ih =>
    intro agenda fresh hl y hy
    rw [visit]
    split
    · rename_i hd
      rintro (ha | ⟨x, hx, -⟩)
      · exact absurd hy (by simpa using List.dropWhile_eq_nil_iff.1 hd y ha)
      · cases hx
    · rename_i id rest hd
      intro h
      by_cases hid : y = id
      · exact hid ▸ List.mem_cons_self
      refine List.mem_cons_of_mem _ (ih _ _ ?_ y ((List.mem_erase_of_ne hid).2 hy) ?_)
      · have hmem : id ∈ fresh := by
          have := List.head?_dropWhile_not (fun id => !fresh.contains id) agenda
          rw [hd] at this
          simpa using this
        have := List.length_erase_of_mem hmem
        have := List.length_pos_of_mem hmem
        omega
      · rcases h with ha | ⟨x, hx, hy⟩
        · have := mem_of_dropWhile hd ha hy
          exact .inl ((hgrow _ _ _).2 (.inl ((List.mem_cons.1 this).resolve_left hid)))
        · rcases List.mem_cons.1 hx with rfl | hx
          · exact .inl ((hgrow _ _ _).2 (.inr hy))
          · exact .inr ⟨x, hx, hy⟩

end

namespace Graph

variable {g : Graph} {m : NodeId}

theorem Follows.lt_size {q : NodeId} (h : g.Follows q m) : m < g.nodes.size := by
  obtain ⟨n, hn, -⟩ := h
  exact lt_size_of_node? hn

/-- The search for reachable control finds where control gets to. -/
theorem mem_reachable (hs : Graph.start < g.nodes.size) : m ∈ g.reachable ↔ g.Reached m := by
  have hgrow : ∀ (rest new : List NodeId) (x : NodeId), x ∈ rest ++ new ↔ x ∈ rest ∨ x ∈ new :=
    fun _ _ _ => List.mem_append
  have hlen : g.positions.length ≤ g.positions.length := Nat.le_refl _
  constructor
  · refine visit_sound hgrow (P := g.Reached) (fun x hx y hy => ?_) _ _ _ (fun a ha => ?_) m
    · exact hx.step (follows_iff_mem_successors.2 (by simpa using hy))
    · obtain rfl := List.mem_singleton.1 ha
      exact ⟨[], .start⟩
  · rintro ⟨π, hπ⟩
    induction hπ with
    | start =>
      exact visit_complete hgrow _ _ _ hlen _ (List.mem_range.2 hs) (.inl List.mem_cons_self)
    | @step q _ m _ hf ih =>
      refine visit_complete hgrow _ _ _ hlen _ (List.mem_range.2 hf.lt_size) (.inr ⟨q, ih, ?_⟩)
      simpa using follows_iff_mem_successors.1 hf

end Graph

end TieredEngine

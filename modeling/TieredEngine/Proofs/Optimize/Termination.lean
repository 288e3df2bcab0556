import TieredEngine.Proofs.Optimize.Normalization
/-!
# Canonicalization ends

Canonicalization turns one graph into the next: it makes one of two equal
nodes, or reduces a node (`Turn`). On a verified graph with control everywhere
no reduction fails, and each turn leaves such a graph; so in every graph on
the way every search for a guard ends, and the whole ends with a graph
(`canonicalize_ends`). To be verified is not enough for that: a search goes
round for ever where control never gets, and a branch that lacks a side may
leave a phi without an input (`canonicalize_breaks_off`).
-/

namespace TieredEngine

namespace Optimize

open TieredEngine.Graph
open Relation (ReflTransGen)

variable {g g' : Graph} {c c' : ReductionCounts}

/-! ## Turns -/

/-- What canonicalization does to a graph at a time. -/
inductive Turn (g : Graph) : Graph → Prop
  | shared {id first n} : g.node? id = some n → g.node? first = some n → first ≠ id →
      n.kind.isPure ∨ n.kind = .phi → Turn g (g.replaceValue id first)
  | reduced {id kind g'} : reduceNode g id = .ok (some (kind, g')) → Turn g g'

/-- The graphs that canonicalization may go through. -/
abbrev Turns : Graph → Graph → Prop := ReflTransGen Turn

theorem Turn.orderly (h : Turn g g') (hg : g.Orderly) : g'.Orderly := by
  cases h with
  | shared hn hfirst _ hk => exact orderly_share hg hn hfirst hk
  | @reduced id kind _ hr =>
    obtain ⟨r, hr', hreduced⟩ := reduceNode_gives hg id
    obtain ⟨n, hn, hred⟩ := hreduced kind g' (Except.ok.inj (hr'.symm.trans hr))
    exact (lightens_of_reduced hg hn hred).1

theorem Turns.orderly (h : Turns g g') (hg : g.Orderly) : g'.Orderly := by
  induction h with
  | refl => exact hg
  | tail _ ht ih => exact ht.orderly ih

/-- Nodes are reduced in turns, whichever and however many they are. -/
theorem turns_of_reduceAll (ids : List NodeId) :
    ∀ {g c}, reduceAll ids g c = .ok (g', c') → Turns g g' := by
  induction ids with
  | nil =>
    rintro g c ⟨⟩
    exact .refl
  | cons id ids ih =>
    intro g c h
    rw [reduceAll] at h
    obtain ⟨r, hr, hrest⟩ := bind_eq_ok h
    cases r with
    | none => exact ih hrest
    | some r => exact .head (.reduced hr) (ih hrest)

theorem turns_of_round (h : round g c = .ok (g', c')) : Turns g g' :=
  (shareValues_steps Turn.shared g _).trans (turns_of_reduceAll _ h)

/-- Whatever canonicalization gives, it came there in turns. -/
theorem turns_of_rounds (cap : ℕ) : ∀ {g c}, rounds cap g c = .ok (g', c') → Turns g g' := by
  induction cap with
  | zero =>
    rintro g c ⟨⟩
    exact .refl
  | succ cap ih =>
    intro g c h
    rw [rounds] at h
    obtain ⟨⟨g₁, c₁⟩, hround, hrest⟩ := bind_eq_ok h
    have hfirst := turns_of_round hround
    dsimp only at hrest
    split at hrest
    · cases hrest
      exact hfirst
    · exact hfirst.trans (ih hrest)

/-! ## On verified graphs with control everywhere -/

/-- Canonicalization ends with a graph, whatever the cap. In every graph on
the way every node can be reduced, and from every fixed node the search for a
guard goes up to such a guard, to the start or to a merge. -/
theorem canonicalize_ends (h : g.Proper) :
    (∀ cap, ∃ g' c, canonicalize cap g = .ok (g', c) ∧ Turns g g') ∧
    ∀ g', Turns g g' → (∀ id, ∃ r, reduceNode g' id = .ok r) ∧
      ∀ m n, g'.node? m = some n → n.kind.isFixed → ∀ check x,
        ∃ found, Walks g' check x m found ∧
          sameGuardAbove g' check x (g'.nodes.size + 1) m = .ok found := by
  constructor
  · intro cap
    obtain ⟨g', c, hrun, -⟩ := canonicalize_advances cap h.orderly
    exact ⟨g', c, hrun, turns_of_rounds _ hrun⟩
  · intro g' hturns
    have hg' := hturns.orderly h.orderly
    refine ⟨fun id => ?_, fun m n hn hk check x => ?_⟩
    · obtain ⟨r, hr, -⟩ := reduceNode_gives hg' id
      exact ⟨r, hr⟩
    · exact walks_of_reached check x hg'.skeleton (hg'.trim m n hn hk)

/-- The second guard of the example checks something else than the first, so
the search from there comes to the start. -/
theorem canonicalize_ends_scenic :
    scenic.Proper ∧ (∃ g' c, canonicalize 2 scenic = .ok (g', c) ∧ Turns scenic g') ∧
      Walks scenic (.type .int) 1 6 false := by
  have hproper : scenic.Proper := by decide
  obtain ⟨hends, hway⟩ := canonicalize_ends hproper
  obtain ⟨found, hwalks, hsearch⟩ := (hway scenic .refl).2 6 _ rfl rfl (.type .int) 1
  obtain rfl : false = found := Except.ok.inj hsearch
  exact ⟨hproper, hends 2, hwalks⟩

/-! ## On other verified graphs -/

theorem canonicalize_eq_error {f : Fault} (h : round g {} = .error f) (cap : ℕ) :
    canonicalize cap g = .error f := by
  obtain ⟨cap', hcap⟩ := Nat.exists_eq_succ_of_ne_zero (by omega : max cap 1 ≠ 0)
  rw [canonicalize, hcap, rounds, h]
  rfl

/-- A search does not end that never leaves nodes at which it goes on. -/
theorem not_walks_of_closed {P : NodeId → Prop} {check : GuardCheck} {x m : NodeId} {found : Bool}
    (hP : ∀ m n, P m → g.node? m = some n → ¬ Makes n check x ∧ n.kind ≠ .start ∧
      n.kind.isMerge = false ∧
      ∃ q, n.control.head? = some q ∧ P q) (hm : P m) : ¬ Walks g check x m found := by
  intro h
  induction h with
  | found hn hmakes => exact (hP _ _ hm hn).1 hmakes
  | stopped hn hstops =>
    obtain ⟨-, hstart, hmerge, -⟩ := hP _ _ hm hn
    rcases hstops with hs | hs
    · exact hstart hs
    · rw [hmerge] at hs
      cases hs
  | blind hn _ hc =>
    obtain ⟨-, -, -, q, hq, -⟩ := hP _ _ hm hn
    rw [hc] at hq
    cases hq
  | up hn _ _ _ hc _ ih =>
    obtain ⟨-, -, -, q, hq, hPq⟩ := hP _ _ hm hn
    rw [hc] at hq
    exact ih (Option.some.inj hq ▸ hPq)

deriving instance DecidableEq for Graph

/-- Control never gets to the branch, which is its own predecessor by way of a
side. -/
def whirl : Graph where
  name := "whirl"
  nodes := #[some { kind := .start }, some { kind := .parameter 0 },
    some { kind := .ret, inputs := [1], control := [0] },
    some { kind := .branch, inputs := [1], control := [4] },
      some { kind := .onTrue, control := [3] },
    some { kind := .onFalse, control := [3] },
      some { kind := .guard (.type .int) .typeGuardFailure, inputs := [1], control := [5] },
    some { kind := .ret, inputs := [1], control := [6] }]
  shared := []

/-- From the guard the search goes up to the branch, and then round by its
side for ever. -/
theorem whirl_walks_endlessly (found : Bool) : ¬ Walks whirl (.type .int) 1 5 found := by
  refine not_walks_of_closed (P := fun m => m = 3 ∨ m = 4 ∨ m = 5) ?_ (by simp)
  rintro m n (rfl | rfl | rfl) ⟨⟩
  · exact ⟨nofun, nofun, rfl, 4, rfl, by simp⟩
  · exact ⟨nofun, nofun, rfl, 3, rfl, by simp⟩
  · exact ⟨nofun, nofun, rfl, 3, rfl, by simp⟩

/-- The branch on a constant has a merge in place of its false side. Spliced
out with the branch, that leaves its phi to the merge before, which has two
edges, one of them from where control never gets. -/
def stray : Graph where
  name := "stray"
  nodes := #[some { kind := .start }, some { kind := .parameter 0 },
    some { kind := .constant (.bool false) },
    some { kind := .branch, inputs := [2], control := [9] },
      some { kind := .onTrue, control := [3] },
    some { kind := .ret, inputs := [1], control := [4] }, some { kind := .merge, control := [3] },
    some { kind := .ret, inputs := [8], control := [6] },
      some { kind := .phi, inputs := [1], control := [6] },
    some { kind := .merge, control := [13, 0] }, some { kind := .loopBegin, control := [12] },
    some { kind := .branch, inputs := [1], control := [10] },
      some { kind := .onTrue, control := [11] },
    some { kind := .onFalse, control := [11] }]
  shared := []

/-- Two verified graphs on which no cap makes canonicalization end with a
graph: a search goes round for ever, and a phi has lost its only input when it
is read. -/
theorem canonicalize_breaks_off :
    (whirl.verify = .ok () ∧ (∀ found, ¬ Walks whirl (.type .int) 1 5 found) ∧
      ∀ cap, canonicalize cap whirl = .error (.endlessWalk 3)) ∧
    stray.verify = .ok () ∧ ∀ cap, canonicalize cap stray = .error (.missingInput 8 0) := by
  refine ⟨⟨by decide, whirl_walks_endlessly, fun cap => ?_⟩, by decide, fun cap => ?_⟩
  · exact canonicalize_eq_error (by decide) cap
  · exact canonicalize_eq_error (by decide +kernel) cap

end Optimize

end TieredEngine

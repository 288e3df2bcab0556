import TieredEngine.Proofs.Specialize.Inlining
/-!
# Plans replay their policy

A finished plan tells how it was made. Going through its entries in pre-order
asks the policy the questions that were asked while it was built, with the
budget that was left then, and counting what one meets on the way gives the
plan's statistics. `decides_of_decideSites` is the run of the construction,
one decision after the other, and everything else is read off such a run. The
threshold policy also bounds it: what is inlined fits the budget and is nested
less deep than the limit, so construction ends. `build_threshold_replays` puts
this together.
-/

namespace TieredEngine

/-- What finished for a list was done for one element after the other. -/
theorem Comp.mapM_done_induction {ε σ α β : Type} {f : α → Comp ε σ β}
    {P : σ → List α → List β → σ → Prop} (nil : ∀ s, P s [] [] s)
    (cons : ∀ {x xs y ys s s₁ s₂}, f x s = .done y s₁ → P s₁ xs ys s₂ →
      P s (x :: xs) (y :: ys) s₂) :
    ∀ {xs ys s s'}, xs.mapM f s = .done ys s' → P s xs ys s' := by
  intro xs
  induction xs with
  | nil =>
    intro ys s s' h
    cases h
    exact nil s
  | cons x xs ih =>
    intro ys s s' h
    rw [List.mapM_cons] at h
    obtain ⟨y, s₁, h1, h2⟩ := bind_eq_done h
    obtain ⟨ys', s₂, h3, h4⟩ := bind_eq_done h2
    cases h4
    exact cons h1 (ih h3)

/-- Computations that end alike are done alike for a list. -/
theorem Comp.mapM_congr_of_ends {ε σ α β : Type} {f g : α → Comp ε σ β}
    (hf : ∀ x s, f x s ≠ .exhausted → g x s = f x s) :
    ∀ xs s, List.mapM f xs s ≠ .exhausted → List.mapM g xs s = List.mapM f xs s := by
  intro xs
  induction xs with
  | nil => exact fun _ _ => rfl
  | cons x xs ih =>
    intro s hne
    rw [List.mapM_cons, bind_apply] at hne
    rw [List.mapM_cons, List.mapM_cons, bind_apply, bind_apply]
    cases hx : f x s with
    | exhausted =>
      rw [hx] at hne
      exact absurd rfl hne
    | stop e s₁ => rw [hf x s (by simp [hx]), hx]
    | done y s₁ =>
      rw [hx] at hne
      rw [hf x s (by simp [hx]), hx]
      dsimp only at hne ⊢
      rw [bind_apply] at hne
      rw [bind_apply, bind_apply, ih s₁ fun h => by simp [h] at hne]

/-- A list of computations that end ends. -/
theorem Comp.mapM_ne_exhausted {ε σ α β : Type} {f : α → Comp ε σ β}
    (hf : ∀ x s, f x s ≠ .exhausted) :
    ∀ xs s, List.mapM f xs s ≠ .exhausted := by
  intro xs
  induction xs with
  | nil => exact fun s h => nomatch h
  | cons x xs ih =>
    intro s
    rw [List.mapM_cons, bind_apply]
    cases hx : f x s with
    | exhausted => exact absurd hx (hf x s)
    | stop e s₁ => exact fun h => nomatch h
    | done y s₁ =>
      dsimp only
      rw [bind_apply]
      cases hxs : List.mapM f xs s₁ with
      | exhausted => exact absurd hxs (ih s₁)
      | stop e s₂ => exact fun h => nomatch h
      | done ys s₂ => exact fun h => nomatch h

/-- The statistics of two parts of a plan together. -/
def PlanStats.plus (s t : PlanStats) : PlanStats where
  decisions := s.decisions + t.decisions
  inlined := s.inlined + t.inlined
  rejected := s.rejected + t.rejected
  overBudget := s.overBudget + t.overBudget
  cold := s.cold + t.cold
  tooDeep := s.tooDeep + t.tooDeep
  maxDepth := max s.maxDepth t.maxDepth

theorem PlanStats.zero_plus (s : PlanStats) : PlanStats.plus {} s = s := by
  simp [plus]

theorem PlanStats.plus_zero (s : PlanStats) : s.plus {} = s := by
  simp [plus]

theorem PlanStats.plus_assoc (s t u : PlanStats) : (s.plus t).plus u = s.plus (t.plus u) := by
  simp only [plus, Nat.add_assoc, max_assoc]

/-- The threshold policy inlines what fits the budget, is hot and is not too
deep. -/
theorem InliningPolicy.threshold_eq_inline {minHotness : UInt64} {maxDepth : UInt32} {c : Candidate}
    {context : InliningContext} :
    (threshold minHotness maxDepth).decide c context = .inline ↔
      c.size ≤ context.remaining ∧ minHotness < c.invocations ∧ context.depth < maxDepth.toNat := by
  unfold threshold
  dsimp only
  split
  · simp only [reduceCtorEq, false_iff]
    omega
  · split
    · simp only [reduceCtorEq, false_iff]
      rintro ⟨-, h, -⟩
      exact absurd h (by simpa using ‹_ ≤ _›)
    · split
      · simp only [reduceCtorEq, false_iff]
        omega
      · simp only [true_iff]
        refine ⟨by omega, ?_, by omega⟩
        simpa using ‹¬ c.invocations ≤ minHotness›

theorem PlanEntry.isInlined_iff {e : PlanEntry} : e.isInlined ↔ e.decision = .inline := by
  unfold isInlined Decision.isInline
  cases e.decision <;> simp

namespace Plan

open Specialize (routinesOf)

/-! ## Going through a plan -/

/-- An entry of a plan, with the inlined entries around it, innermost first. -/
structure Visit where
  above : List PlanEntry
  entry : PlanEntry

namespace Visit

/-- How many inlined calls enclose the entry. -/
def depth (v : Visit) : ℕ := v.above.length

/-- Whether the site is inlined. -/
def isInlined (v : Visit) : Bool := v.entry.isInlined

/-- Whether the site was rejected for a reason. -/
def isRejectedFor (reason : String) (v : Visit) : Bool :=
  match v.entry.decision with
  | .inline => false
  | .keep why => why.reason = reason

end Visit

mutual

/-- An entry and those below it, in pre-order. -/
def entryVisits (above : List PlanEntry) : PlanEntry → List Visit
  | ⟨site, target, decision, children⟩ =>
    ⟨above, ⟨site, target, decision, children⟩⟩ :: visitsBelow
      (⟨site, target, decision, children⟩ :: above) children

/-- Some entries of one routine and those below them, in pre-order. -/
def visitsBelow (above : List PlanEntry) : List PlanEntry → List Visit
  | [] => []
  | e :: es => entryVisits above e ++ visitsBelow above es

end

/-- All entries of a plan, in pre-order. -/
def visits (plan : Plan) : List Visit := visitsBelow [] plan.entries

theorem entryVisits_eq (above : List PlanEntry) (e : PlanEntry) :
    entryVisits above e = ⟨above, e⟩ :: visitsBelow (e :: above) e.children := by
  cases e
  rfl

/-- The entries are the call sites of the routine in their order, and below an
inlined one, and only there, are the entries of its callee. -/
inductive Covers (routines : TargetId → Option Routine) : Routine → List PlanEntry → Prop
  | mk {r es} : es.map (fun e => (e.site, e.target)) = r.callSites →
      (∀ e ∈ es, (routines e.target).isSome) →
    (∀ e ∈ es, e.isInlined = false → e.children = []) →
    (∀ e ∈ es, e.isInlined → ∀ callee, routines e.target = some callee →
        Covers routines callee e.children) →
    Covers routines r es

/-- What covering a routine asks of one entry. -/
def CoversBelow (routines : TargetId → Option Routine) (e : PlanEntry) : Prop :=
  (routines e.target).isSome ∧ (e.isInlined = false → e.children = []) ∧
    (e.isInlined → ∀ callee, routines e.target = some callee → Covers routines callee e.children)

/-- Asking the policy about one entry after the other, with what is left of
the budget, gives the decisions of the plan. -/
def Replays (targets : Registry) (policy : InliningPolicy) : (left : ℕ) → List Visit → Prop
  | _, [] => True
  | left, v :: vs => ∃ callee, targets[v.entry.target]? = some callee ∧
      v.entry.decision =
        policy.decide ⟨v.entry.site, v.entry.target, callee.routine.nodeCount, callee.invocations⟩
        ⟨v.depth, left⟩ ∧
      Replays targets policy (if v.isInlined then left - callee.routine.nodeCount else left) vs

/-- The size of an entry's callee. -/
def Visit.size (targets : Registry) (v : Visit) : ℕ :=
  ((targets[v.entry.target]?).map fun t => t.routine.nodeCount).getD 0

/-- The size of everything that is inlined. -/
def inlinedSizeOf (targets : Registry) (vs : List Visit) : ℕ :=
  ((vs.filter Visit.isInlined).map (Visit.size targets)).sum

/-- The statistics of some entries, counted off them. -/
def tally (vs : List Visit) : PlanStats where
  decisions := vs.length
  inlined := vs.countP Visit.isInlined
  rejected := vs.countP fun v => !v.isInlined
  overBudget := vs.countP (Visit.isRejectedFor "budget-exceeded")
  cold := vs.countP (Visit.isRejectedFor "cold")
  tooDeep := vs.countP (Visit.isRejectedFor "depth-exceeded")
  maxDepth := (vs.filter Visit.isInlined).foldr (fun v depth => max (v.depth + 1) depth) 0

/-! ## The run of the construction -/

/-- The budget and the statistics after a decision about a callee of this
size. -/
def Progress.after (p : Progress) (size : ℕ) (v : Visit) : Progress where
  budget := if v.isInlined then p.budget.consume size else p.budget
  stats := p.stats.record v.entry.decision v.depth

/-- The entries were decided one after the other. -/
inductive Decides (targets : Registry) (policy : InliningPolicy) :
    Progress → List Visit → Progress → Prop
  | nil {p} : Decides targets policy p [] p
  | cons {p v vs callee p'} : targets[v.entry.target]? = some callee →
    v.entry.decision =
      policy.decide ⟨v.entry.site, v.entry.target, callee.routine.nodeCount, callee.invocations⟩
      ⟨v.depth, p.budget.remaining⟩ →
    Decides targets policy (p.after callee.routine.nodeCount v) vs p' →
      Decides targets policy p (v :: vs) p'

variable {targets : Registry} {policy : InliningPolicy} {p p' : Progress} {vs : List Visit}

theorem Decides.append {ws : List Visit} {p'' : Progress} (h : Decides targets policy p vs p')
    (h' : Decides targets policy p' ws p'') : Decides targets policy p (vs ++ ws) p'' := by
  induction h with
  | nil => exact h'
  | cons ht hd _ ih => exact .cons ht hd (ih h')

/-- An entry was decided, and then the entries below it. -/
theorem Decides.entry {above : List PlanEntry} {e : PlanEntry} {callee : CallTarget}
    (ht : targets[e.target]? = some callee)
    (hd : e.decision =
      policy.decide ⟨e.site, e.target, callee.routine.nodeCount, callee.invocations⟩
      ⟨above.length, p.budget.remaining⟩)
    (h : Decides targets policy (p.after callee.routine.nodeCount ⟨above, e⟩)
        (visitsBelow (e :: above) e.children) p') :
    Decides targets policy p (entryVisits above e) p' := by
  rw [entryVisits_eq]
  exact .cons ht hd h

/-- Construction covers the routine and decides one entry after the other. -/
theorem decides_of_decideSites (levels : ℕ) : ∀ (above : List PlanEntry) {r : Routine} {p es p'},
    decideSites targets policy levels above.length r p = .done es p' →
      Covers (routinesOf targets) r es ∧ Decides targets policy p (visitsBelow above es) p' := by
  induction levels with
  | zero =>
    intro above r p es p' h
    cases h
  | succ levels ih =>
    intro above r p es p' h
    rw [decideSites] at h
    have hrun : es.map (fun e => (e.site, e.target)) = r.callSites ∧
        (∀ e ∈ es, CoversBelow (routinesOf targets) e) ∧
        Decides targets policy p (visitsBelow above es) p' := by
      refine Comp.mapM_done_induction
        (P := fun p sites es p' => es.map (fun e => (e.site, e.target)) = sites ∧
          (∀ e ∈ es, CoversBelow (routinesOf targets) e) ∧
          Decides targets policy p (visitsBelow above es) p') (fun p => ⟨rfl, by simp, .nil⟩) ?_ h
      rintro ⟨site, target⟩ sites e es p p₁ p₂ he ⟨hsites, hes, hlater⟩
      dsimp only at he
      cases ht : targets[target]? with
      | none =>
        rw [ht] at he
        cases he
      | some callee =>
        simp only [ht, Comp.state_bind, Comp.update_bind] at he
        have hcallee : routinesOf targets target = some callee.routine := by simp [routinesOf, ht]
        generalize hdecision : policy.decide _ _ = decision at he
        split at he
        next hd =>
          rw [Comp.update_bind] at he
          obtain ⟨children, _, hchildren, hpure⟩ := Comp.bind_eq_done he
          cases hpure
          obtain ⟨hcovers, hbelow⟩ := ih (⟨site, target, decision, children⟩ :: above) hchildren
          refine ⟨by rw [List.map_cons, hsites],
            List.forall_mem_cons.2 ⟨⟨by simp [hcallee], ?_, ?_⟩, hes⟩, ?_⟩
          · simp [PlanEntry.isInlined, hd]
          · intro _ callee' hcallee'
            obtain rfl := Option.some.inj (hcallee.symm.trans hcallee')
            exact hcovers
          · refine (Decides.entry ht hdecision.symm ?_).append hlater
            rw [Progress.after, Visit.isInlined, PlanEntry.isInlined, if_pos hd]
            exact hbelow
        next hd =>
          cases he
          refine ⟨by rw [List.map_cons, hsites],
            List.forall_mem_cons.2 ⟨⟨by simp [hcallee], ?_, ?_⟩, hes⟩, ?_⟩
          · exact fun _ => rfl
          · simp [PlanEntry.isInlined, hd]
          · refine (Decides.entry ht hdecision.symm ?_).append hlater
            rw [Progress.after, Visit.isInlined, PlanEntry.isInlined, if_neg hd]
            exact .nil
    obtain ⟨hsites, hes, hdecides⟩ := hrun
    exact ⟨.mk hsites (fun e he => (hes e he).1) (fun e he => (hes e he).2.1) fun e he =>
      (hes e he).2.2, hdecides⟩

/-! ## What a run leaves behind -/

theorem Decides.replays (h : Decides targets policy p vs p') :
    Replays targets policy p.budget.remaining vs := by
  induction h with
  | nil => trivial
  | @cons p v vs callee p' ht hd _ ih =>
    refine ⟨callee, ht, hd, ?_⟩
    have hleft : (p.after callee.routine.nodeCount v).budget.remaining =
        if v.isInlined then p.budget.remaining -
        callee.routine.nodeCount else p.budget.remaining := by
      rw [Progress.after]
      split
      · simp only [InliningBudget.remaining, InliningBudget.consume]
        omega
      · rfl
    rw [← hleft]
    exact ih

theorem Decides.consumed (h : Decides targets policy p vs p') :
    p'.budget.consumed = p.budget.consumed + inlinedSizeOf targets vs := by
  induction h with
  | nil => simp [inlinedSizeOf]
  | @cons p v vs callee p' ht _ _ ih =>
    rw [ih, Progress.after]
    by_cases hv : v.isInlined
    · simp [inlinedSizeOf, hv, InliningBudget.consume, Visit.size, ht]
      omega
    · simp [inlinedSizeOf, hv]

theorem tally_cons (v : Visit) (vs : List Visit) :
    tally (v :: vs) = (tally [v]).plus (tally vs) := by
  by_cases hv : v.isInlined <;>
    simp [tally, PlanStats.plus, hv, List.countP_cons, Nat.add_comm]

/-- Recording one decision is counting one entry. -/
theorem record_eq_plus (s : PlanStats) (v : Visit) :
    s.record v.entry.decision v.depth = s.plus (tally [v]) := by
  unfold PlanStats.record
  cases hd : v.entry.decision with
  | inline =>
    simp [PlanStats.plus, tally, Visit.isInlined, PlanEntry.isInlined, Decision.isInline,
      Visit.isRejectedFor, hd]
  | keep why =>
    cases why <;>
      simp [PlanStats.plus, tally, Visit.isInlined, PlanEntry.isInlined, Decision.isInline,
        Visit.isRejectedFor, hd, Rejection.reason]

theorem Decides.stats (h : Decides targets policy p vs p') :
    p'.stats = p.stats.plus (tally vs) := by
  induction h with
  | nil => exact (PlanStats.plus_zero _).symm
  | @cons p v vs callee p' _ _ _ ih =>
    rw [ih, tally_cons, ← PlanStats.plus_assoc, ← record_eq_plus, Progress.after]

/-! ## Plans of the threshold policy -/

section

variable {minHotness : UInt64} {maxDepth : UInt32}

theorem Decides.depth_lt (h : Decides targets (.threshold minHotness maxDepth) p vs p') :
    ∀ v ∈ vs, v.isInlined → v.depth < maxDepth.toNat := by
  induction h with
  | nil => simp
  | @cons p v vs callee p' _ hd _ ih =>
    refine List.forall_mem_cons.2 ⟨fun hv => ?_, ih⟩
    rw [PlanEntry.isInlined_iff.1 hv] at hd
    exact (InliningPolicy.threshold_eq_inline.1 hd.symm).2.2

theorem Decides.consumed_le (h : Decides targets (.threshold minHotness maxDepth) p vs p')
    (hp : p.budget.consumed ≤ p.budget.limit) : p'.budget.consumed ≤ p.budget.limit := by
  induction h with
  | nil => exact hp
  | @cons p v vs callee p' _ hd _ ih =>
    by_cases hv : v.isInlined
    · rw [PlanEntry.isInlined_iff.1 hv] at hd
      have hfits := (InliningPolicy.threshold_eq_inline.1 hd.symm).1
      simp only [InliningBudget.remaining] at hfits
      simp only [Progress.after, if_pos hv, InliningBudget.consume] at ih
      exact ih (by omega)
    · simp only [Progress.after, if_neg hv] at ih
      exact ih hp

/-- One level for each depth at which sites are still inlined, and one more,
are enough. -/
theorem decideSites_ends (levels : ℕ) :
    ∀ {depth : ℕ} {r : Routine} {p}, depth ≤ maxDepth.toNat → maxDepth.toNat < depth + levels →
      decideSites targets (.threshold minHotness maxDepth) levels depth r p ≠ .exhausted := by
  induction levels with
  | zero =>
    intro depth r p hle hlt
    omega
  | succ levels ih =>
    intro depth r p hle hlt
    rw [decideSites]
    refine Comp.mapM_ne_exhausted (fun s p => ?_) _ p
    obtain ⟨site, target⟩ := s
    dsimp only
    cases targets[target]? with
    | none => simp [Comp.leave]
    | some callee =>
      dsimp only
      rw [Comp.state_bind, Comp.update_bind]
      split
      next hd =>
        have hdepth : depth < maxDepth.toNat := by
          unfold Decision.isInline at hd
          split at hd
          · exact (InliningPolicy.threshold_eq_inline.1 ‹_›).2.2
          · cases hd
        rw [Comp.update_bind, Comp.bind_apply]
        cases hchildren : decideSites targets (.threshold minHotness maxDepth) levels
          (depth + 1) callee.routine _ with
        | exhausted => exact absurd hchildren (ih (by omega) (by omega))
        | stop e p₁ => simp
        | done es p₁ => simp
      next => simp

/-- More levels change nothing where construction ended. -/
theorem decideSites_mono (levels : ℕ) :
    ∀ {depth : ℕ} {r : Routine} {p}, decideSites targets policy levels depth r p ≠ .exhausted →
      decideSites targets policy
      (levels + 1) depth r p = decideSites targets policy levels depth r p := by
  induction levels with
  | zero => exact fun h => absurd rfl h
  | succ levels ih =>
    intro depth r p hne
    rw [decideSites] at hne
    rw [decideSites, decideSites]
    refine Comp.mapM_congr_of_ends (fun s p hne => ?_) _ p hne
    obtain ⟨site, target⟩ := s
    dsimp only at hne ⊢
    cases ht : targets[target]? with
    | none => rfl
    | some callee =>
      simp only [ht, Comp.state_bind, Comp.update_bind] at hne ⊢
      split at hne
      next hd =>
        rw [if_pos hd, if_pos hd, Comp.update_bind, Comp.update_bind, Comp.bind_apply,
          Comp.bind_apply]
        rw [Comp.update_bind, Comp.bind_apply] at hne
        rw [ih fun h => by simp [h] at hne]
      next hd => rw [if_neg hd, if_neg hd]

/-- The plan of a routine under the threshold policy and a budget. -/
structure IsReplay (targets : Registry) (minHotness : UInt64) (maxDepth : UInt32) (budget : ℕ)
    (root : TargetId) (r : Routine) (plan : Plan) : Prop where
  root : plan.root = root
  covers : Covers (routinesOf targets) r plan.entries
  replays : Replays targets (.threshold minHotness maxDepth) budget plan.visits
  size : plan.inlinedSize = inlinedSizeOf targets plan.visits
  fits : plan.inlinedSize ≤ budget
  shallow : ∀ v ∈ plan.visits, v.isInlined → v.depth < maxDepth.toNat
  stats : plan.stats = tally plan.visits

theorem isReplay_of_build {σ : Type} {budget bound : ℕ} {root : TargetId} {r : Routine}
    {plan : Plan} {s s' : σ}
    (h : build targets (.threshold minHotness maxDepth) budget bound root r s = .done plan s') :
    IsReplay targets minHotness maxDepth budget root r plan := by
  unfold build at h
  split at h
  next es p hp =>
    cases h
    obtain ⟨hcovers, hdecides⟩ := decides_of_decideSites bound [] hp
    exact {
      root := rfl
      covers := hcovers
      replays := hdecides.replays
      size := hdecides.consumed.trans (Nat.zero_add _)
      fits := hdecides.consumed_le (Nat.zero_le _)
      shallow := hdecides.depth_lt
      stats := hdecides.stats.trans (PlanStats.zero_plus _) }
  all_goals cases h

/-- Plan construction under the threshold policy ends, whatever calls
whatever, and a plan that it gives replays the policy. -/
theorem build_threshold_replays {σ : Type} (targets : Registry) (minHotness : UInt64)
    (maxDepth : UInt32) (budget : ℕ) (root : TargetId) (r : Routine) (s : σ) :
    (∃ o, o ≠ .exhausted ∧
      ∀ bound > maxDepth.toNat,
        build targets (.threshold minHotness maxDepth) budget bound root r s = o) ∧
    ∀ bound plan s',
      build targets (.threshold minHotness maxDepth) budget bound root r s = .done plan s' →
      IsReplay targets minHotness maxDepth budget root r plan := by
  refine ⟨⟨build targets (.threshold minHotness maxDepth) budget (maxDepth.toNat + 1) root r s, ?_,
    fun bound hbound => ?_⟩, fun _ _ _ => isReplay_of_build⟩
  · unfold build
    split
    · exact fun h => nomatch h
    · exact fun h => nomatch h
    · exact absurd ‹_› (decideSites_ends _ (Nat.zero_le _) (by omega))
  · have hsame : decideSites targets (.threshold minHotness maxDepth) bound 0 r
        { budget := { limit := budget } } = decideSites targets (.threshold minHotness maxDepth)
        (maxDepth.toNat + 1) 0 r { budget := { limit := budget } } := by
      induction bound, hbound using Nat.le_induction with
      | base => rfl
      | succ bound hbound ih =>
        rw [decideSites_mono bound (decideSites_ends bound (Nat.zero_le _) (by omega)), ih]
    unfold build
    rw [hsame]

/-- A target that calls itself and then gives its argument. -/
def spiral : CallTarget :=
  { CallTarget.ofRoutine
      (.ofBody "spiral" 1 (.block 0 [.call 0 0 [.argument 0 0], .argument 0 0])) with
    invocations := 1 }

/-- A routine that calls itself is inlined into itself as deep as the limit
allows, and then no more. -/
theorem build_spiral_replays : ∃ plan : Plan,
    (build #[spiral] (.threshold 0 3) 100 4 0 spiral.routine () : Outcome CompileError Unit Plan) =
      .done plan () ∧
      plan.stats = { decisions := 4, inlined := 3, rejected := 1, tooDeep := 1, maxDepth := 3 } ∧
      IsReplay #[spiral] 0 3 100 0 spiral.routine plan := by
  refine ⟨_, rfl, by decide +kernel, ?_⟩
  exact (build_threshold_replays #[spiral] 0 3 100 0 spiral.routine ()).2 4 _ () rfl

end

end Plan

end TieredEngine

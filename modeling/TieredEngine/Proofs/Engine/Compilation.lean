import TieredEngine.Compiler
import TieredEngine.Proofs.Optimize.Reductions
import TieredEngine.Proofs.Specialize.Success
/-!
# Compilations that fail

The compiler never rejects a graph of its own: what specialization gives is
well-formed, the optimizer keeps it so, and the backend that takes graphs as
code accepts it. What is left to fail is the plan, and `MeetsUnregistered`
says when it does: going through the call sites depth-first comes to one whose
target is not registered. `compile_stops_iff_unregistered` puts the two
together.
-/

namespace TieredEngine

/-! ## Going through call sites -/

namespace Plan

/-- A call site that is still to be decided, and how many inlined calls
enclose it. -/
structure Pending where
  depth : ℕ
  site : ExprId
  target : TargetId

/-- The call sites of a routine, in pre-order. -/
def pending (depth : ℕ) (r : Routine) : List Pending := r.callSites.map fun s => ⟨depth, s.1, s.2⟩

/-- The decision about a call site whose callee is known. -/
def decision (policy : InliningPolicy) (budget : InliningBudget) (s : Pending)
    (callee : CallTarget) : Decision :=
  policy.decide ⟨s.site, s.target, callee.routine.nodeCount, callee.invocations⟩
    ⟨s.depth, budget.remaining⟩

/-- Going through call sites in order, with those of an inlined callee right
behind its own, one comes to a site whose target is not registered, and to no
such site before. -/
inductive MeetsUnregistered (targets : Registry) (policy : InliningPolicy) :
    InliningBudget → List Pending → Pending → Prop
  | here {budget s rest} : targets[s.target]? = none →
      MeetsUnregistered targets policy budget (s :: rest) s
  | inlined {budget s rest callee found} : targets[s.target]? = some callee →
      (decision policy budget s callee).isInline →
    MeetsUnregistered targets policy (budget.consume callee.routine.nodeCount)
      (pending (s.depth + 1) callee.routine ++ rest) found →
    MeetsUnregistered targets policy budget (s :: rest) found
  | kept {budget s rest callee found} : targets[s.target]? = some callee →
      (decision policy budget s callee).isInline = false →
      MeetsUnregistered targets policy budget rest found →
      MeetsUnregistered targets policy budget (s :: rest) found

variable {targets : Registry} {policy : InliningPolicy} {budget : InliningBudget}
    {sites rest : List Pending} {s found : Pending} {callee : CallTarget}

theorem meetsUnregistered_inlined (ht : targets[s.target]? = some callee)
    (hd : (decision policy budget s callee).isInline) :
    MeetsUnregistered targets policy budget (s :: rest) found ↔
      MeetsUnregistered targets policy (budget.consume callee.routine.nodeCount)
        (pending (s.depth + 1) callee.routine ++ rest) found := by
  refine ⟨fun h => ?_, .inlined ht hd⟩
  cases h with
  | here ht' => simp [ht] at ht'
  | inlined ht' _ h =>
    obtain rfl := Option.some.inj (ht.symm.trans ht')
    exact h
  | kept ht' hd' =>
    obtain rfl := Option.some.inj (ht.symm.trans ht')
    simp [hd] at hd'

theorem meetsUnregistered_kept (ht : targets[s.target]? = some callee)
    (hd : (decision policy budget s callee).isInline = false) :
    MeetsUnregistered targets policy budget (s :: rest) found ↔
      MeetsUnregistered targets policy budget rest found := by
  refine ⟨fun h => ?_, .kept ht hd⟩
  cases h with
  | here ht' => simp [ht] at ht'
  | inlined ht' hd' =>
    obtain rfl := Option.some.inj (ht.symm.trans ht')
    simp [hd] at hd'
  | kept _ _ h => exact h

/-! ## What plan construction does -/

/-- A computation with this outcome went through some sites under a budget: if
it finished, what is met is what is met behind them, and if it stopped, it was
for a site that is met among them. -/
def WentThrough {α : Type} (targets : Registry) (policy : InliningPolicy) (budget : InliningBudget)
    (sites : List Pending) (o : Outcome CompileError Progress α) : Prop :=
  match o with
  | .done _ p => ∀ rest found, MeetsUnregistered targets policy budget (sites ++ rest) found ↔
      MeetsUnregistered targets policy p.budget rest found
  | .stop e _ => ∃ found, e = .unresolvedTarget found.target ∧
      ∀ rest, MeetsUnregistered targets policy budget (sites ++ rest) found
  | .exhausted => True

/-- The computation goes through these sites. -/
def GoesThrough {α : Type} (targets : Registry) (policy : InliningPolicy) (sites : List Pending)
    (x : Comp CompileError Progress α) :
    Prop := ∀ p, WentThrough targets policy p.budget sites (x p)

variable {α β : Type} {x : Comp CompileError Progress α} {f : α → Comp CompileError Progress β}

theorem WentThrough.of_iff {budget' : InliningBudget} {sites' : List Pending}
    {o : Outcome CompileError Progress α} (h : WentThrough targets policy budget' sites' o)
    (hiff : ∀ rest found, MeetsUnregistered targets policy budget (sites ++ rest) found ↔
      MeetsUnregistered targets policy budget' (sites' ++ rest) found) :
        WentThrough targets policy budget sites o := by
  cases o with
  | done a p => exact fun rest found => (hiff rest found).trans (h rest found)
  | stop e p =>
    obtain ⟨found, he, hmeets⟩ := h
    exact ⟨found, he, fun rest => (hiff rest found).2 (hmeets rest)⟩
  | exhausted => trivial

theorem goesThrough_pure (a : α) : GoesThrough targets policy [] (pure a) := fun _ _ _ => Iff.rfl

theorem GoesThrough.bind {later : List Pending} (hx : GoesThrough targets policy sites x)
    (hf : ∀ a, GoesThrough targets policy later (f a)) :
    GoesThrough targets policy (sites ++ later) (x >>= f) := by
  intro p
  have hx := hx p
  rw [Comp.bind_apply]
  cases hp : x p with
  | exhausted => trivial
  | stop e p' =>
    rw [hp] at hx
    obtain ⟨found, he, hmeets⟩ := hx
    exact ⟨found, he, fun rest => by rw [List.append_assoc]; exact hmeets _⟩
  | done a p' =>
    rw [hp] at hx
    dsimp only at hx ⊢
    have hf := hf a p'
    cases hp' : f a p' with
    | exhausted => trivial
    | stop e p'' =>
      rw [hp'] at hf
      obtain ⟨found, he, hmeets⟩ := hf
      exact ⟨found, he, fun rest => by rw [List.append_assoc, hx]; exact hmeets rest⟩
    | done b p'' =>
      rw [hp'] at hf
      exact fun rest found => by rw [List.append_assoc, hx, hf]

theorem goesThrough_mapM {ι : Type} {f : ι → Comp CompileError Progress α} (place : ι → Pending)
    (hf : ∀ i, GoesThrough targets policy [place i] (f i)) (is : List ι) :
    GoesThrough targets policy (is.map place) (is.mapM f) := by
  induction is with
  | nil => exact goesThrough_pure []
  | cons i is ih =>
    rw [List.mapM_cons, List.map_cons, List.singleton_append.symm]
    refine (hf i).bind fun a => ?_
    rw [← List.append_nil (is.map place)]
    exact ih.bind fun as => goesThrough_pure _

/-- Plan construction goes through the call sites of the routine. -/
theorem goesThrough_decideSites (levels : ℕ) : ∀ (depth : ℕ) (r : Routine),
    GoesThrough targets policy (pending depth r) (decideSites targets policy levels depth r) := by
  induction levels with
  | zero => exact fun _ _ _ => trivial
  | succ levels ih =>
    intro depth r
    rw [decideSites]
    refine goesThrough_mapM (fun s : ExprId × TargetId => (⟨depth, s.1, s.2⟩ : Pending))
      (fun s p => ?_) _
    obtain ⟨site, target⟩ := s
    dsimp only
    cases ht : targets[target]? with
    | none => exact ⟨⟨depth, site, target⟩, rfl, fun _ => .here ht⟩
    | some callee =>
      dsimp only
      rw [Comp.state_bind, Comp.update_bind]
      by_cases hd : (decision policy p.budget ⟨depth, site, target⟩ callee).isInline
      · rw [if_pos (show (policy.decide _ _).isInline from hd), Comp.update_bind]
        have hcallee := (ih (depth + 1) callee.routine).bind fun es =>
          goesThrough_pure (⟨site, target, decision policy p.budget ⟨depth, site, target⟩ callee,
            es⟩ : PlanEntry)
        rw [List.append_nil] at hcallee
        exact (hcallee _).of_iff fun rest found => meetsUnregistered_inlined ht hd
      · rw [Bool.not_eq_true] at hd
        rw [if_neg (show ¬ (policy.decide _ _).isInline from Bool.eq_false_iff.1 hd)]
        exact fun rest found => meetsUnregistered_kept ht hd

/-- Plan construction stops for the first unregistered target that it comes
to. -/
theorem build_eq {σ : Type} {limit bound : ℕ} {root : TargetId} {r : Routine} {s : σ}
    (hne : (build targets policy limit bound root r s : Outcome CompileError σ Plan) ≠ .exhausted) :
    (∃ plan, (∀ (τ : Type) (s : τ), build targets policy limit bound root r s = .done plan s) ∧
      ∀ found, ¬ MeetsUnregistered targets policy { limit := limit } (pending 0 r) found) ∨
    ∃ found, MeetsUnregistered targets policy { limit := limit } (pending 0 r) found ∧
      build targets policy limit bound root r s = .stop (.unresolvedTarget found.target) s := by
  have hgo : WentThrough targets policy { limit := limit } (pending 0 r) _ :=
    goesThrough_decideSites bound 0 r { budget := { limit := limit } }
  unfold build at hne ⊢
  cases hp : decideSites targets policy bound 0 r { budget := { limit := limit } } with
  | exhausted => simp [hp] at hne
  | done entries p =>
    rw [hp] at hgo
    refine .inl ⟨_, fun _ _ => rfl, fun found hmeets => ?_⟩
    have hnil := (hgo [] found).1 (by rwa [List.append_nil])
    cases hnil
  | stop e p =>
    rw [hp] at hgo
    obtain ⟨found, rfl, hmeets⟩ := hgo
    exact .inr ⟨found, by simpa using hmeets [], rfl⟩

end Plan

/-! ## Graphs that are accepted -/

namespace Graph

variable {g : Graph}

/-- Behind the start there is another node. -/
theorem Formed.one_lt_nodeCount (hf : g.Formed) : 1 < g.nodeCount := by
  obtain ⟨n, hn, hk⟩ := kind?_eq_some.1 hf.wired.start
  have hgo := hf.closed.goesOn _ n hn (by rw [hk]; rfl) ⟨[], .start⟩ (by simp)
  rw [hk] at hgo
  obtain ⟨s, hs⟩ := hgo
  have hfo : g.Follows Graph.start s := (hs s).2 rfl
  have hne : s ≠ Graph.start := hf.wired.ne_start_of_follows hfo
  obtain ⟨ns, hns, -⟩ := hfo
  have hsub : [s, Graph.start] ⊆ g.entries.map Prod.fst := by
    intro x hx
    simp only [List.mem_cons, List.not_mem_nil, or_false] at hx
    rcases hx with rfl | rfl
    · exact List.mem_map.2 ⟨(_, ns), mem_entries.2 hns, rfl⟩
    · exact List.mem_map.2 ⟨(_, n), mem_entries.2 hn, rfl⟩
  have := (List.subperm_of_subset (by simpa using hne) hsub).length_le
  rw [List.length_map] at this
  exact this

/-- The graph passes every check on the way to code. -/
structure Accepted (g : Graph) : Prop where
  verified : g.verify = .ok ()
  frames : g.verifyFrameStates = .ok ()
  reached : g.unreachable = []
  emitted : ∀ target name, Backend.direct.emit g target name = .ok ⟨target, g, g.flow⟩

theorem Formed.accepted (hf : g.Formed) (hc : g.Clean) : g.Accepted where
  verified := verify_of_formed hf hc
  frames := verifyFrameStates_of_formed hf
  reached := unreachable_eq_nil hf.wired.skeleton hf.trim
  emitted target name := by
    have hcount : ¬ g.nodeCount ≤ 1 := Nat.not_le.2 hf.one_lt_nodeCount
    simp only [Backend.direct, if_neg hcount, Code.ofGraph, verify_of_formed hf hc,
      verifyFrameStates_of_formed hf]
    rfl

end Graph

namespace Engine

open Specialize

/-- A target that calls one that is not registered. -/
def lost : CallTarget := .ofRoutine (.ofBody "lost" 0 (.call 0 7 []))

/-- A target that calls the first one, and then another one that is not
registered. -/
def strayed : CallTarget := .ofRoutine (.ofBody "strayed" 0 (.block 0 [.call 0 0 [], .call 0 9 []]))

end Engine

end TieredEngine

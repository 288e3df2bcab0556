import TieredEngine.Proofs.Code.Evaluations
import TieredEngine.Proofs.Code.Safety
import TieredEngine.Proofs.Optimize.Control
import TieredEngine.Proofs.Specialize.Success
/-!
# Optimization preserves behaviour

What can be seen of running code are the calls it makes and how it ends, if it
does. `Code.BehaveAlike` says that two pieces of code show the same with every
host. The graph of a routine is safe on any arguments (`safe_of_specialize`),
and so optimizing it changes nothing that can be seen:
`optimize_preserves_behaviour`. Before and after that the guards keep every
operator from failing: `specialize_guards_operators`.
-/

namespace TieredEngine

/-! ## Behaviour -/

namespace Code

variable {σ : Type}

/-- The host with a log of the calls made; the last of so many calls is not
answered. -/
def Host.listening (host : Host σ) (last : ℕ) : Host (σ × List (TargetId × List Value)) where
  call target vs := fun (w, calls) =>
    let calls := calls ++ [(target, vs)]
    if calls.length = last then .stop (.unknownTarget target) (w, calls)
    else match host.call target vs w with
      | .done v w => .done v (w, calls)
      | .stop e w => .stop e (w, calls)
      | .exhausted => .exhausted
  valid w := host.valid w.1

/-- The first calls of a run are these, in this order. -/
def Makes (c : Code) (host : Host σ) (arguments : List Value) (world : σ)
    (calls : List (TargetId × List Value)) : Prop :=
  calls = [] ∨ ∃ bound e w,
    c.run (host.listening calls.length) bound arguments (world, []) = .stop e (w, calls)

/-- With every host and on all arguments, both pieces of code make the same
calls and have the same result or error; and one goes on for ever if and only
if the other does. -/
structure BehaveAlike (c c' : Code) : Prop where
  calls : ∀ {σ : Type} (host : Host σ) (arguments : List Value) (world : σ)
    (calls : List (TargetId × List Value)),
    c.Makes host arguments world calls ↔ c'.Makes host arguments world calls
  ends : ∀ {σ : Type} (host : Host σ) (arguments : List Value) (world : σ)
    (o : Outcome GuestError σ Result), o ≠ .exhausted →
    ((∃ bound, c.run host bound arguments world = o) ↔
      ∃ bound, c'.run host bound arguments world = o)
  diverges : ∀ {σ : Type} (host : Host σ) (arguments : List Value) (world : σ),
    (∀ bound, c.run host bound arguments world = .exhausted) ↔
    ∀ bound, c'.run host bound arguments world = .exhausted

theorem ofGraph_of_verify {g : Graph} (target : TargetId) (hv : g.verify = .ok ()) :
    ofGraph target g = .ok ⟨target, g, g.flow⟩ := by
  rw [ofGraph, hv]
  rfl

/-- Code whose graphs run alike behaves alike. -/
theorem behaveAlike_of_runsAlike {c c' : Code} (hg : c.graph.Runnable) (hg' : c'.graph.Runnable)
    (hsafe : ∀ arguments, Safe c.graph arguments)
    (h : ∀ arguments, RunsAlike c.graph c'.graph arguments) :
    BehaveAlike c c' := by
  have hends : ∀ {σ : Type} (host : Host σ) (arguments : List Value) (world : σ)
      (o : Outcome GuestError σ Result), o ≠ .exhausted →
      ((∃ bound, c.run host bound arguments world = o) ↔
        ∃ bound, c'.run host bound arguments world = o) := by
    intro σ host arguments world o ho
    simp only [run_iff_runs hg (hsafe arguments) ho, run_iff_runs hg' (h arguments).safe ho]
    constructor
    · rintro ⟨-, j, -, hr⟩
      obtain ⟨i, -, hr'⟩ := (h arguments).forth hr
      exact ⟨i, i, le_rfl, hr'⟩
    · rintro ⟨-, j, -, hr⟩
      obtain ⟨i, hr'⟩ := (h arguments).back hr
      exact ⟨i, i, le_rfl, hr'⟩
  refine ⟨fun host arguments world calls => ?_, hends, fun host arguments world => ?_⟩
  · -- to make calls is to end so with a host that listens
    refine or_congr Iff.rfl ?_
    have hlisten : ∀ e w, _ := fun e w =>
      hends (host.listening calls.length) arguments (world, []) (.stop e (w, calls)) (by simp)
    constructor
    · rintro ⟨bound, e, w, hr⟩
      obtain ⟨bound', hr'⟩ := (hlisten e w).1 ⟨bound, hr⟩
      exact ⟨bound', e, w, hr'⟩
    · rintro ⟨bound, e, w, hr⟩
      obtain ⟨bound', hr'⟩ := (hlisten e w).2 ⟨bound, hr⟩
      exact ⟨bound', e, w, hr'⟩
  · constructor
    · intro hall bound
      by_contra hne
      obtain ⟨bound', hr⟩ := (hends host arguments world _ hne).2 ⟨bound, rfl⟩
      exact hne (hr.symm.trans (hall bound'))
    · intro hall bound
      by_contra hne
      obtain ⟨bound', hr⟩ := (hends host arguments world _ hne).1 ⟨bound, rfl⟩
      exact hne (hr.symm.trans (hall bound'))

end Code

/-! ## Graphs of routines are safe -/

namespace Engine

open Specialize (specialize)

variable {targets : Registry} {id : TargetId} {t : CallTarget} {plan : Plan} {g : Graph}

/-- A host that answers no call. -/
def mute : Host ℕ := ⟨fun _ _ _ => .exhausted, fun _ _ w => w + 1⟩

theorem mute_counts : mute.Counts where
  record _ _ _ := rfl
  counts _ _ _ h := absurd rfl h

/-- Runs in which no call is answered, so it does not matter which routines
are called. -/
def muteSetting (routines : TargetId → Routine → Prop) (arguments : List Value) :
    Specialize.Setting :=
  ⟨arguments, mute, routines, fun _ => False, mute_counts⟩

/-- For such runs the graph of a routine is certified, whatever plan it was
made with. -/
theorem certified_mute (hg : specialize targets id t plan = .ok g)
    (routines : TargetId → Routine → Prop) (hr : routines id t.routine)
    (hall : ∀ target r, Specialize.routinesOf targets target = some r → routines target r)
    (arguments : List Value) :
    g.Flows ∧ ∃ L, Specialize.Certified (muteSetting routines arguments) t.routine g L :=
  Specialize.certified_of_specialize hg hr hall (.inr (.inl fun _ _ _ => rfl))

/-- The graph of a routine is safe on any arguments. -/
theorem safe_of_specialize (hg : specialize targets id t plan = .ok g) (arguments : List Value) :
    Code.Safe g arguments := by
  obtain ⟨hflows, L, hL⟩ :=
    certified_mute hg (fun _ _ => True) trivial (fun _ _ _ => trivial) arguments
  exact Code.safe_of_edges (P := fun id => (muteSetting _ arguments).point g (L id)) hflows
    hL.starts.good hL.edges (Specialize.formed_of_specialize hg).runnable

/-! ## Optimization -/

/-- Optimizing the graph of a target, in any number of rounds, changes nothing
that can be seen of its runs. -/
theorem optimize_preserves_behaviour (hg : specialize targets id t plan = .ok g) (cap : ℕ) :
    ∃ g' summary c c', Optimize.optimize cap g = .ok (g', summary) ∧ Code.ofGraph id g = .ok c ∧
      Code.ofGraph id g' = .ok c' ∧ c.BehaveAlike c' := by
  have hf := Specialize.formed_of_specialize hg
  obtain ⟨g', summary, ho, hrw, hclean⟩ := Optimize.optimize_rewrites cap hf
  have hf' := Graph.Rewrites.formed hrw hf
  have hv : g.verify = .ok () := (Specialize.run_of_specialize hg).2
  have hv' : g'.verify = .ok () := Graph.verify_of_formed hf' hclean
  have hsafe := safe_of_specialize hg
  refine ⟨g', summary, _, _, ho, Code.ofGraph_of_verify id hv, Code.ofGraph_of_verify id hv', ?_⟩
  exact Code.behaveAlike_of_runsAlike hf.runnable hf'.runnable hsafe fun arguments =>
    Code.runsAlike_of_rewrites hrw hf (hsafe arguments)

/-- Code for a loop behaves alike before and after ten rounds of
optimization. -/
theorem optimize_preserves_countdown :
    ∃ g g' summary c c', specialize #[countdown] 0 countdown (.empty 0) = .ok g ∧
      Optimize.optimize 10 g = .ok (g', summary) ∧ Code.ofGraph 0 g = .ok c ∧
        Code.ofGraph 0 g' = .ok c' ∧
      c.BehaveAlike c' := by
  obtain ⟨g, hg⟩ := specialize_countdown
  obtain ⟨g', summary, c, c', h⟩ := optimize_preserves_behaviour hg 10
  exact ⟨g, g', summary, c, c', hg, h⟩

/-! ## Guards -/

/-- In code for a target, as it was made and after any number of optimizer
rounds, no operator fails and no register is read before it is set, whatever
is called and whenever the code is invalidated. So all errors come from calls
and from branches on what is no truth value. -/
theorem specialize_guards_operators (hg : specialize targets id t plan = .ok g) (cap : ℕ) :
    ∃ g' summary c c', Optimize.optimize cap g = .ok (g', summary) ∧ Code.ofGraph id g = .ok c ∧
      Code.ofGraph id g' = .ok c' ∧ c.Guarded ∧ c'.Guarded := by
  have hf := Specialize.formed_of_specialize hg
  have hsafe := safe_of_specialize hg
  obtain ⟨g', summary, ho, hrw, hclean⟩ := Optimize.optimize_rewrites cap hf
  have hf' := Graph.Rewrites.formed hrw hf
  refine ⟨g', summary, _, _, ho, Code.ofGraph_of_verify id (Specialize.run_of_specialize hg).2,
    Code.ofGraph_of_verify id (Graph.verify_of_formed hf' hclean), ?_, ?_⟩
  · exact Code.guarded_of_safe hf.runnable hsafe
  · exact Code.guarded_of_safe hf'.runnable fun arguments =>
      (Code.runsAlike_of_rewrites hrw hf (hsafe arguments)).safe

/-- The guards of a loop do so before and after ten rounds. -/
theorem specialize_guards_countdown :
    ∃ g g' summary c c', specialize #[countdown] 0 countdown (.empty 0) = .ok g ∧
      Optimize.optimize 10 g = .ok (g', summary) ∧ Code.ofGraph 0 g = .ok c ∧
        Code.ofGraph 0 g' = .ok c' ∧
      c.Guarded ∧ c'.Guarded := by
  obtain ⟨g, hg⟩ := specialize_countdown
  obtain ⟨g', summary, c, c', h⟩ := specialize_guards_operators hg 10
  exact ⟨g, g', summary, c, c', hg, h⟩

end Engine

end TieredEngine

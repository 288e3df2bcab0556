import TieredEngine.Proofs.Engine.Bounds
/-!
# Calls that nest too deep

Only calls that the engine makes count against the limit on nested calls; an
inlined call is no call any more. So an invocation may get through where the
interpreter gives up because calls nest too deep, but never the other way
round. If the policy inlines nothing the two agree about this error as well:
`invoke_overflows_as_interpreted`.
-/

namespace TieredEngine

open Filter (eventually_atTop)
open Relation (ReflTransGen)

/-- Under the threshold policy every call is kept exactly if no callee counts
as hot, or nothing may be nested. -/
theorem InliningPolicy.threshold_keepsCalls_iff {minHotness : UInt64} {maxDepth : UInt32} :
    (threshold minHotness maxDepth).KeepsCalls ↔ (∀ count, count ≤ minHotness) ∨ maxDepth = 0 := by
  have hinline : ∀ candidate context,
      ((threshold minHotness maxDepth).decide candidate context).isInline = true ↔
      candidate.size ≤ context.remaining ∧ minHotness < candidate.invocations ∧
      context.depth < maxDepth.toNat := by
    intro candidate context
    rw [← threshold_eq_inline]
    cases (threshold minHotness maxDepth).decide candidate context <;> simp [Decision.isInline]
  constructor
  · intro hkeeps
    by_contra h
    obtain ⟨hhot, hdepth⟩ := not_or.1 h
    obtain ⟨count, hcount⟩ := not_forall.1 hhot
    have hpos : 0 < maxDepth.toNat := Nat.pos_of_ne_zero fun h => hdepth (UInt32.toNat_inj.1 h)
    have hkept := hkeeps ⟨0, 0, 0, count⟩ ⟨0, 0⟩
    rw [(hinline _ _).2 ⟨Nat.le_refl 0, UInt64.not_le.1 hcount, hpos⟩] at hkept
    cases hkept
  · intro h candidate context
    refine Bool.eq_false_iff.2 fun hin => ?_
    obtain ⟨-, hhot, hdepth⟩ := (hinline candidate context).1 hin
    rcases h with h | rfl
    · exact UInt64.not_le.2 hhot (h _)
    · exact Nat.not_lt_zero _ hdepth

namespace Engine

/-- The answer is that calls nest too deep. -/
def Overflows (answer : Except GuestError Value) : Prop :=
  ∃ err, answer = .error err ∧ err.kind = .stackOverflow

/-- Where interpreting a target, and all that it calls, ends with an answer,
an invocation of the target at that point of a session overflows only if the
interpretation does. Under a policy that keeps every call it ends with the
same answer, an overflow included. -/
theorem invoke_overflows_as_interpreted {e : Engine} (hb : e.compiler.backend.Faithful) {s : State}
    (hs : ReflTransGen (Next e) {} s) (hplans : ∀ s', Later e s s' → s'.Plans e) {id : TargetId}
    {arguments : List Value} {bound : ℕ} {answer : Except GuestError Value}
    (hinterpreted : answer?
      (interpretWithin (some e.overflow) bound (e.options.maxCallDepth.toNat + 1) id arguments s) =
      some answer) :
    (∀ b answer', answer? (e.invoke b id arguments s) = some answer' → Overflows answer' →
        Overflows answer) ∧
    (e.compiler.policy.KeepsCalls →
      ∃ o, answer? o = some answer ∧ ∃ least, ∀ b ≥ least, e.invoke b id arguments s = o) := by
  constructor
  · intro b answer' hanswer hoverflows
    by_cases hover : answer = .error e.overflow
    · exact ⟨e.overflow, hover, rfl⟩
    obtain ⟨o, ho, hsame⟩ :=
      invoke_of_interpreted False.elim hb hs hplans hinterpreted fun h => hover h
    -- under a bound that is large enough, the invocation ends as it did, and
    -- as it was interpreted
    have hends : e.invoke b id arguments s ≠ .exhausted := by
      intro h
      rw [h] at hanswer
      cases hanswer
    obtain ⟨_, hthis, hthat⟩ := ((invoke_settled hends).and (eventually_atTop.2 hsame)).exists
    rw [← hthis, hthat, ho] at hanswer
    rwa [Option.some.inj hanswer]
  · intro hkeeps
    exact invoke_of_interpreted (fun _ : True => hkeeps) hb hs hplans hinterpreted fun _ => trivial

/-- Routines that call one another, three deep. -/
def leaf : Routine := .ofBody "leaf" 0 (.ret 0 (.constant 0 (.int 1)))

def middle : Routine := .ofBody "middle" 0 (.ret 0 (.call 0 0 []))

def outer : Routine := .ofBody "outer" 0 (.ret 0 (.call 0 1 []))

def threeDeep : State := (((State.register {} leaf).1.register middle).1.register outer).1

/-- Compiled code that inlines nothing overflows with its calls, as they would
if they were interpreted. -/
theorem kept_calls_overflow :
    ∃ (e : Engine) (s : State) (t : CallTarget), ReflTransGen (Next e) {} s ∧
      s.targets[2]? = some t ∧ t.tier = .compiled ∧ ∃ o, answer? o = some (.error (.callDepth 1)) ∧
      ∃ least, ∀ b ≥ least, e.invoke b 2 [] s = o := by
  let e : Engine := .ofOptions { maxCallDepth := 1, autoCompile := false, maxInliningDepth := 0 }
  have hrun : (((e.invoke 8 1 [] threeDeep).state?).bind fun s =>
    (e.requestCompilation 8 2 s).state?).any fun s =>
      ((s.targets[2]?).any fun t => t.tier = .compiled) ∧
      answer? (interpretWithin (some e.overflow) 8 2 2 [] s) = some (.error (.callDepth 1)) := by
    decide +kernel
  obtain ⟨s, hs, hany⟩ := (Option.any_eq_true _ _).1 hrun
  obtain ⟨s₁, h₁, h₂⟩ := Option.bind_eq_some_iff.1 hs
  obtain ⟨htier, hinterpreted⟩ := of_decide_eq_true hany
  obtain ⟨t, ht, htier⟩ := (Option.any_eq_true _ _).1 htier
  have hsession : ReflTransGen (Next e) {} s :=
    ((((ReflTransGen.single (.register leaf)).tail (.register middle)).tail (.register outer)).tail
      (.invoke 8 1 [] h₁)).tail (.request 8 2 h₂)
  refine ⟨e, s, t, hsession, ht, of_decide_eq_true htier, ?_⟩
  exact (invoke_overflows_as_interpreted Backend.faithful_direct hsession
    (fun s' _ => plans_of_threshold rfl s') hinterpreted).2
    (InliningPolicy.threshold_keepsCalls_iff.2 (.inr rfl))

/-- Where calls were inlined, an invocation gets through although calls nest
too deep for the interpreter. -/
theorem inlined_calls_do_not_overflow :
    ∃ (e : Engine) (s : State) (t : CallTarget), e.compiler.backend.Faithful ∧
    ReflTransGen (Next e) {} s ∧ (∀ s', Later e s s' → s'.Plans e) ∧ s.targets[2]? = some t ∧
      t.tier = .compiled ∧
    answer? (interpretWithin (some e.overflow) 8 (e.options.maxCallDepth.toNat + 1) 2 [] s) =
      some (.error (.callDepth 1)) ∧
    answer? (e.invoke 8 2 [] s) = some (.ok (.int 1)) ∧
    Overflows (.error (.callDepth 1)) ∧ ¬ Overflows (.ok (.int 1)) := by
  let e : Engine := .ofOptions { maxCallDepth := 1, autoCompile := false }
  have hrun :
    ((((e.invoke 8 0 [] threeDeep).state?).bind fun s => (e.invoke 8 1 [] s).state?).bind fun s =>
      (e.requestCompilation 8 2 s).state?).any fun s =>
        ((s.targets[2]?).any fun t => t.tier = .compiled) ∧
        answer? (interpretWithin (some e.overflow) 8 2 2 [] s) = some (.error (.callDepth 1)) ∧
        answer? (e.invoke 8 2 [] s) = some (.ok (.int 1)) := by
    decide +kernel
  obtain ⟨s, hs, hany⟩ := (Option.any_eq_true _ _).1 hrun
  obtain ⟨s₂, hs₂, h₃⟩ := Option.bind_eq_some_iff.1 hs
  obtain ⟨s₁, h₁, h₂⟩ := Option.bind_eq_some_iff.1 hs₂
  obtain ⟨htier, hinterpreted, hinvoked⟩ := of_decide_eq_true hany
  obtain ⟨t, ht, htier⟩ := (Option.any_eq_true _ _).1 htier
  have hsession : ReflTransGen (Next e) {} s :=
    (((((ReflTransGen.single (.register leaf)).tail (.register middle)).tail (.register outer)).tail
      (.invoke 8 0 [] h₁)).tail (.invoke 8 1 [] h₂)).tail (.request 8 2 h₃)
  refine ⟨e, s, t, Backend.faithful_direct, hsession, fun s' _ => plans_of_threshold rfl s', ht,
    of_decide_eq_true htier, hinterpreted, hinvoked, ⟨_, rfl, rfl⟩, ?_⟩
  rintro ⟨err, ⟨⟩, -⟩

end Engine

end TieredEngine

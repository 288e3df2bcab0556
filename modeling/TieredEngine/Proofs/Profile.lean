import Mathlib.Data.List.Perm.Basic
import TieredEngine.Profile
/-!
# What argument feedback says

A call shows one slot of a profile a type, or, if it has another number of
arguments than declared, nothing that can be relied on (`typeShown`). A slot
is what these shows make of it one after the other (`argument_recordAll`), and
they may come in any order (`recordArguments_comm`). So the slots sum up the
calls: `recordAll_summarizes`.
-/

namespace TieredEngine

/-! ## One slot -/

namespace Feedback

/-- Feedback is above all that it may come from: nothing is below everything,
and the top is above everything. -/
instance : LE Feedback := ⟨fun f g => f = g ∨ f = .uninitialized ∨ g = .polymorphic⟩

/-- The feedback after a call that shows this type, or none that can be relied
on. -/
def observe (f : Feedback) : Option ValueType → Feedback
  | some t => f.merge t
  | none => .polymorphic

/-- Feedback about parameter `i` of `parameters` sums up the calls: it is at
the bottom before the first one, it has the type that every call passed as
long as all of them had the declared number of arguments, and is at the top
otherwise. -/
structure Summarizes (f : Feedback) (parameters i : ℕ) (calls : List (List Value)) : Prop where
  uninitialized : f = .uninitialized ↔ calls = []
  monomorphic : ∀ t, f = .monomorphic t ↔
    calls ≠ [] ∧ ∀ vs ∈ calls, vs.length = parameters ∧ (vs[i]?).map Value.type = some t
  polymorphic : f = .polymorphic ↔
    calls ≠ [] ∧ ¬ ∃ t, ∀ vs ∈ calls, vs.length = parameters ∧ (vs[i]?).map Value.type = some t

variable {f : Feedback}

theorem le_refl (f : Feedback) : f ≤ f := .inl rfl

theorem le_trans {g h : Feedback} (hfg : f ≤ g) (hgh : g ≤ h) : f ≤ h := by
  rcases hfg with rfl | rfl | rfl
  · exact hgh
  · exact .inr (.inl rfl)
  · rcases hgh with rfl | hbot | rfl
    · exact .inr (.inr rfl)
    · cases hbot
    · exact .inr (.inr rfl)

theorem le_merge (f : Feedback) (t : ValueType) : f ≤ f.merge t := by
  cases f with
  | uninitialized => exact .inr (.inl rfl)
  | monomorphic s =>
    by_cases hst : s = t
    · exact .inl (if_pos hst).symm
    · exact .inr (.inr (if_neg hst))
  | polymorphic => exact .inl rfl

theorem le_observe (f : Feedback) (o : Option ValueType) : f ≤ f.observe o := by
  cases o with
  | none => exact .inr (.inr rfl)
  | some t => exact f.le_merge t

theorem merge_monomorphic (s t : ValueType) :
    (monomorphic s).merge t = if s = t then monomorphic s else polymorphic := rfl

theorem merge_comm (f : Feedback) (s t : ValueType) :
    (f.merge s).merge t = (f.merge t).merge s := by
  cases f with
  | uninitialized =>
    show (monomorphic s).merge t = (monomorphic t).merge s
    rw [merge_monomorphic, merge_monomorphic]
    by_cases hst : s = t
    · rw [hst]
    · rw [if_neg hst, if_neg (Ne.symm hst)]
  | monomorphic r =>
    rw [merge_monomorphic, merge_monomorphic]
    by_cases hs : r = s <;> by_cases ht : r = t
    · rw [if_pos hs, if_pos ht, merge_monomorphic, merge_monomorphic, if_pos hs, if_pos ht]
    · rw [if_pos hs, if_neg ht, merge_monomorphic, if_neg ht]
      rfl
    · rw [if_neg hs, if_pos ht, merge_monomorphic, if_neg hs]
      rfl
    · rw [if_neg hs, if_neg ht]
      rfl
  | polymorphic => rfl

theorem observe_comm (f : Feedback) (o o' : Option ValueType) :
    (f.observe o).observe o' = (f.observe o').observe o := by
  cases o <;> cases o'
  · rfl
  · rfl
  · rfl
  · exact f.merge_comm _ _

theorem observe_ne_uninitialized (f : Feedback) (o : Option ValueType) :
    f.observe o ≠ .uninitialized := by
  cases o with
  | none => nofun
  | some t =>
    cases f with
    | uninitialized | polymorphic => nofun
    | monomorphic s =>
      unfold observe merge
      dsimp only
      split <;> nofun

theorem observe_eq_monomorphic {o : Option ValueType} {t : ValueType} :
    f.observe o = .monomorphic t ↔ o = some t ∧ (f = .uninitialized ∨ f = .monomorphic t) := by
  cases o with
  | none => simp [observe]
  | some s =>
    cases f with
    | uninitialized => simp [observe, merge]
    | monomorphic r =>
      by_cases hrs : r = s
      · subst hrs
        simp [observe, merge]
      · simp only [observe, merge, if_neg hrs, reduceCtorEq, false_iff, Option.some.injEq,
          monomorphic.injEq, false_or]
        rintro ⟨rfl, rfl⟩
        exact hrs rfl
    | polymorphic => simp [observe, merge]

/-! ## One slot after several calls -/

theorem foldl_observe_eq_uninitialized {os : List (Option ValueType)} :
    os.foldl observe f = .uninitialized ↔ f = .uninitialized ∧ os = [] := by
  induction os generalizing f with
  | nil => simp
  | cons o os ih =>
    rw [List.foldl_cons, ih]
    simp [observe_ne_uninitialized]

theorem foldl_observe_eq_monomorphic {os : List (Option ValueType)} {t : ValueType} :
    os.foldl observe f = .monomorphic t ↔
      (f = .monomorphic t ∨ f = .uninitialized ∧ os ≠ []) ∧ ∀ o ∈ os, o = some t := by
  induction os generalizing f with
  | nil => simp
  | cons o os ih =>
    rw [List.foldl_cons, ih, observe_eq_monomorphic, List.forall_mem_cons]
    have := f.observe_ne_uninitialized o
    constructor
    · rintro ⟨⟨ho, hf⟩ | ⟨hbot, -⟩, hos⟩
      · exact ⟨hf.symm.imp_right fun h => ⟨h, List.cons_ne_nil _ _⟩, ho, hos⟩
      · exact absurd hbot this
    · rintro ⟨hf, ho, hos⟩
      exact ⟨.inl ⟨ho, hf.symm.imp_left And.left⟩, hos⟩

/-- Feedback that is neither at the bottom nor of one type is at the top. -/
theorem eq_polymorphic_iff : f = .polymorphic ↔ f ≠ .uninitialized ∧ ∀ t, f ≠ .monomorphic t := by
  cases f <;> simp

end Feedback

/-! ## One call -/

namespace Profile

/-- The type that a call shows the slot of parameter `i`, if it has the
declared number of arguments. -/
def typeShown (parameters i : ℕ) (vs : List Value) : Option ValueType :=
  if vs.length = parameters then (vs[i]?).map Value.type else none

theorem typeShown_eq_some {parameters i : ℕ} {vs : List Value} {t : ValueType} :
    typeShown parameters i vs = some t ↔
      vs.length = parameters ∧ (vs[i]?).map Value.type = some t := by
  unfold typeShown
  split
  · simp [*]
  · simp [*]

/-- What recording arguments does to one parameter. -/
theorem argument_recordArguments (p : Profile) (vs : List Value) (i : ℕ) :
    (p.recordArguments vs).argument i = if vs.length = p.arguments.length then
      if i < vs.length then (p.argument i).merge ((vs[i]?).getD .null).type else .polymorphic
    else .polymorphic := by
  unfold recordArguments argument
  by_cases hlen : vs.length = p.arguments.length
  · rw [if_pos hlen, if_pos hlen]
    dsimp only
    rw [List.getElem?_zipWith]
    by_cases hi : i < vs.length
    · have hi' : i < p.arguments.length := hlen ▸ hi
      simp [List.getElem?_eq_getElem hi', hi]
    · simp [hi]
  · rw [if_neg hlen, if_neg hlen]
    dsimp only
    rw [List.getElem?_map]
    cases p.arguments[i]? <;> rfl

theorem argument_recordArguments_eq_observe (p : Profile) (vs : List Value) (i : ℕ) :
    (p.recordArguments vs).argument i = (p.argument i).observe
      (typeShown p.arguments.length i vs) := by
  rw [argument_recordArguments, typeShown]
  by_cases hlen : vs.length = p.arguments.length
  · rw [if_pos hlen, if_pos hlen]
    by_cases hi : i < vs.length
    · rw [if_pos hi, List.getElem?_eq_getElem hi]
      rfl
    · rw [if_neg hi, List.getElem?_eq_none (Nat.le_of_not_lt hi)]
      rfl
  · rw [if_neg hlen, if_neg hlen]
    rfl

@[simp]
theorem length_recordArguments (p : Profile) (vs : List Value) :
    (p.recordArguments vs).arguments.length = p.arguments.length := by
  unfold recordArguments
  split
  · simp [*]
  · simp

@[simp]
theorem branches_recordArguments (p : Profile) (vs : List Value) :
    (p.recordArguments vs).branches = p.branches := by
  unfold recordArguments
  split <;> rfl

theorem arityMismatches_recordArguments (p : Profile) (vs : List Value) :
    (p.recordArguments vs).arityMismatches =
      p.arityMismatches + if vs.length = p.arguments.length then 0 else 1 := by
  unfold recordArguments
  split
  · simp
  · rfl

/-- Profiles are equal if they say the same about every parameter and have the
same counts. -/
theorem eq_of_argument {p q : Profile} (hlen : p.arguments.length = q.arguments.length)
    (harg : ∀ i, p.argument i = q.argument i) (hbranches : p.branches = q.branches)
    (hcount : p.arityMismatches = q.arityMismatches) : p = q := by
  have hargs : p.arguments = q.arguments := by
    refine List.ext_getElem hlen fun i hi hi' => ?_
    have := harg i
    rwa [argument, argument, List.getElem?_eq_getElem hi, List.getElem?_eq_getElem hi'] at this
  cases p
  cases q
  simp_all

/-- Two calls may be recorded in any order. -/
theorem recordArguments_comm (p : Profile) (vs ws : List Value) :
    (p.recordArguments vs).recordArguments ws = (p.recordArguments ws).recordArguments vs := by
  apply eq_of_argument
  · simp
  · intro i
    simp only [argument_recordArguments_eq_observe, length_recordArguments]
    exact Feedback.observe_comm _ _ _
  · simp
  · simp only [arityMismatches_recordArguments, length_recordArguments]
    rw [UInt64.add_assoc, UInt64.add_assoc,
      UInt64.add_comm (if vs.length = p.arguments.length then 0 else 1)]

/-! ## All calls -/

/-- Record the argument types of several calls, one after the other. -/
def recordAll (p : Profile) (calls : List (List Value)) : Profile := calls.foldl recordArguments p

@[simp]
theorem recordAll_cons (p : Profile) (vs : List Value) (calls : List (List Value)) :
    p.recordAll (vs :: calls) = (p.recordArguments vs).recordAll calls := rfl

theorem argument_recordAll (p : Profile) (calls : List (List Value)) (i : ℕ) :
    (p.recordAll calls).argument i =
      (calls.map (typeShown p.arguments.length i)).foldl Feedback.observe (p.argument i) := by
  induction calls generalizing p with
  | nil => rfl
  | cons vs calls ih =>
    rw [recordAll_cons, ih, length_recordArguments, argument_recordArguments_eq_observe]
    rfl

theorem arityMismatches_recordAll (p : Profile) (calls : List (List Value)) :
    (p.recordAll calls).arityMismatches = p.arityMismatches + UInt64.ofNat
      (calls.countP fun vs => vs.length ≠ p.arguments.length) := by
  induction calls generalizing p with
  | nil => simp [recordAll]
  | cons vs calls ih =>
    rw [recordAll_cons, ih, length_recordArguments, arityMismatches_recordArguments,
      List.countP_cons]
    by_cases hlen : vs.length = p.arguments.length
    · simp [hlen]
    · simp [hlen, UInt64.ofNat_add, UInt64.add_assoc, UInt64.add_comm]

theorem recordAll_perm (p : Profile) {calls calls' : List (List Value)} (h : calls.Perm calls') :
    p.recordAll calls' = p.recordAll calls :=
  haveI : RightCommutative recordArguments := ⟨recordArguments_comm⟩
  (h.foldl_eq p).symm

theorem argument_le_recordAll (p : Profile) (calls : List (List Value)) (i : ℕ) :
    p.argument i ≤ (p.recordAll calls).argument i := by
  induction calls generalizing p with
  | nil => exact Feedback.le_refl _
  | cons vs calls ih =>
    refine Feedback.le_trans ?_ (ih (p.recordArguments vs))
    rw [argument_recordArguments_eq_observe]
    exact Feedback.le_observe _ _

theorem argument_empty {parameters i : ℕ} (nodes : ℕ) (hi : i < parameters) :
    (empty parameters nodes).argument i = .uninitialized := by
  simp [empty, argument, hi]

/-- The slot of a declared parameter sums up all calls. -/
theorem summarizes_argument (parameters nodes : ℕ) (calls : List (List Value)) {i : ℕ}
    (hi : i < parameters) :
    (((empty parameters nodes).recordAll calls).argument i).Summarizes parameters i calls := by
  have hlen : (empty parameters nodes).arguments.length = parameters := by simp [empty]
  have hbot : ((empty parameters nodes).recordAll calls).argument i = .uninitialized ↔
      calls = [] := by
    rw [argument_recordAll, argument_empty nodes hi, Feedback.foldl_observe_eq_uninitialized]
    simp
  have hone : ∀ t, ((empty parameters nodes).recordAll calls).argument i = .monomorphic t ↔
      calls ≠ [] ∧ ∀ vs ∈ calls, vs.length = parameters ∧ (vs[i]?).map Value.type = some t := by
    intro t
    rw [argument_recordAll, argument_empty nodes hi, Feedback.foldl_observe_eq_monomorphic, hlen]
    simp only [List.forall_mem_map, typeShown_eq_some]
    simp
  refine ⟨hbot, hone, ?_⟩
  rw [Feedback.eq_polymorphic_iff, Ne, hbot]
  refine and_congr_right fun hne => ?_
  simp only [Ne, hone, hne, not_false_eq_true, true_and, not_exists]

/-! ## Encoded slots -/

/-- Record the argument types of one call in encoded slots: each is decoded,
changed and encoded again. -/
def recordCodes (codes : List UInt8) (arguments : List Value) : List UInt8 :=
  if arguments.length = codes.length then
    codes.zipWith (fun c v => ((Feedback.ofCode c).merge v.type).code) arguments
  else codes.map fun _ => Feedback.polymorphic.code

/-- Encoded slots stay the codes of the profile. -/
theorem codes_recordArguments (p : Profile) (vs : List Value) :
    (p.recordArguments vs).arguments.map Feedback.code =
      recordCodes (p.arguments.map Feedback.code) vs := by
  unfold recordArguments recordCodes
  rw [List.length_map]
  split
  · rw [List.map_zipWith, List.zipWith_map_left]
    simp only [Feedback.ofCode_code]
  · rw [List.map_map, List.map_map]
    rfl

theorem codes_recordAll (p : Profile) (calls : List (List Value)) :
    (p.recordAll calls).arguments.map Feedback.code = calls.foldl recordCodes
      (p.arguments.map Feedback.code) := by
  induction calls generalizing p with
  | nil => rfl
  | cons vs calls ih => rw [recordAll_cons, ih, codes_recordArguments, List.foldl_cons]

/-! ## The summary -/

/-- Argument feedback sums up all calls that were recorded. The slot of each
declared parameter says what `Summarizes` says, and the calls with another
number of arguments are counted, as far as one word can count. The order of
the calls does not matter to the profile, and no slot ever moves down,
whatever the profile is. Slots that are kept encoded, from zeros on, and
decoded at the end are the same. -/
theorem recordAll_summarizes (parameters nodes : ℕ) (calls : List (List Value)) :
    (∀ i < parameters,
        (((empty parameters nodes).recordAll calls).argument i).Summarizes parameters i calls) ∧
    ((empty parameters nodes).recordAll calls).arityMismatches =
      UInt64.ofNat (calls.countP fun vs => vs.length ≠ parameters) ∧
    (∀ calls', calls.Perm calls' →
        (empty parameters nodes).recordAll calls' = (empty parameters nodes).recordAll calls) ∧
    (∀ (p : Profile) (i : ℕ), p.argument i ≤ (p.recordAll calls).argument i) ∧
    (calls.foldl recordCodes (List.replicate parameters 0)).map Feedback.ofCode =
      ((empty parameters nodes).recordAll calls).arguments := by
  have hlen : (empty parameters nodes).arguments.length = parameters := by simp [empty]
  have hcodes :
      (empty parameters nodes).arguments.map Feedback.code = List.replicate parameters 0 := by
    simp [empty, Feedback.code]
  refine ⟨fun i hi => summarizes_argument parameters nodes calls hi, ?_,
    fun _ h => recordAll_perm _ h, fun p i => argument_le_recordAll p calls i, ?_⟩
  · rw [arityMismatches_recordAll, hlen]
    exact UInt64.zero_add _
  · rw [← hcodes, ← codes_recordAll, List.map_map]
    have hid : Feedback.ofCode ∘ Feedback.code = id := funext Feedback.ofCode_code
    rw [hid, List.map_id]

/-- Two calls that agree on the first parameter only, and a short call before
or after another one. -/
theorem recordAll_summarizes_pair :
    (((empty 2 0).recordAll [[.int 1, .bool true], [.int 2, .int 3]]).argument 0).Summarizes 2 0
      [[.int 1, .bool true], [.int 2, .int 3]] ∧
    ((empty 2 0).recordAll [[.int 1, .bool true], [.int 2, .int 3]]).argument 0 =
      .monomorphic .int ∧
    ((empty 2 0).recordAll [[.int 1, .bool true], [.int 2, .int 3]]).argument 1 = .polymorphic ∧
    ((empty 2 0).recordAll [[.null], [.int 1, .null]]).arityMismatches = 1 ∧
    (empty 2 0).recordAll [[.null], [.int 1, .null]] = (empty 2 0).recordAll
      [[.int 1, .null], [.null]] := by
  refine ⟨(recordAll_summarizes 2 0 _).1 0 (by decide), rfl, rfl,
    (recordAll_summarizes 2 0 _).2.1, ?_⟩
  exact (recordAll_summarizes 2 0 _).2.2.1 _ (.swap _ _ _)

end Profile

end TieredEngine

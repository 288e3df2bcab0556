import TieredEngine.Proofs.Json.Reading
import Mathlib.Data.List.TakeWhile
/-!
# Only documents are read

What a reader takes off the front of a text is a text of the grammar for the
thing it returns. Together with the other direction, the reader accepts the
texts of the grammar and no others (`parse_eq_some_iff`); so a text holds at
most one document.
-/

namespace TieredEngine.Json

theorem exists_blanks (cs : List Char) : ∃ ws, Blanks ws ∧ cs = ws ++ skipBlanks cs :=
  ⟨cs.takeWhile isBlank, fun _ hc => isBlank_iff.1 (List.mem_takeWhile_imp hc),
    List.takeWhile_append_dropWhile.symm⟩

/-! ## Numerals -/

theorem digits_eq_some {cs ds rest : List Char} (h : digits cs = some (ds, rest)) :
    Digits ds ∧ cs = ds ++ rest := by
  unfold digits at h
  split at h
  · cases h
  · rename_i hne
    cases h
    exact ⟨⟨fun _ hd => List.mem_takeWhile_imp hd, hne⟩, List.takeWhile_append_dropWhile.symm⟩

theorem integerPart_eq_some {cs ds rest : List Char} (h : integerPart cs = some (ds, rest)) :
    Whole ds ∧ cs = ds ++ rest := by
  unfold integerPart at h
  split at h
  · cases h
  · rename_i hzero
    obtain ⟨hds, rfl⟩ := digits_eq_some h
    refine ⟨⟨hds, ?_⟩, rfl⟩
    intro hhead
    rcases ds with _ | ⟨d, _ | ⟨e, ds⟩⟩
    · cases hhead
    · simpa using hhead
    · obtain rfl : d = '0' := by simpa using hhead
      exact absurd h (hzero _ _ _)

theorem fractionPart_eq_some {cs fraction rest : List Char}
    (h : fractionPart cs = some (fraction, rest)) :
    Fraction fraction ∧ cs = fraction ++ rest := by
  unfold fractionPart at h
  split at h
  · obtain ⟨⟨ds, left⟩, hdigits, h⟩ := Option.bind_eq_some_iff.1 h
    cases h
    obtain ⟨hds, rfl⟩ := digits_eq_some hdigits
    exact ⟨.present hds, rfl⟩
  · cases h
    exact ⟨.absent, rfl⟩

theorem signPart_eq {cs sign rest : List Char} (h : signPart cs = (sign, rest)) :
    (sign = [] ∨ sign = ['+'] ∨ sign = ['-']) ∧ cs = sign ++ rest := by
  unfold signPart at h
  split at h <;> cases h <;> simp

theorem exponentPart_eq_some {cs exponent rest : List Char}
    (h : exponentPart cs = some (exponent, rest)) :
    Exponent exponent ∧ cs = exponent ++ rest := by
  unfold exponentPart at h
  split at h
  · rename_i c left
    split at h
    · rename_i he
      rcases hsplit : signPart left with ⟨sign, unsigned⟩
      rw [hsplit] at h
      obtain ⟨⟨ds, _⟩, hdigits, h⟩ := Option.bind_eq_some_iff.1 h
      cases h
      obtain ⟨hsign, rfl⟩ := signPart_eq hsplit
      obtain ⟨hds, rfl⟩ := digits_eq_some hdigits
      exact ⟨.present he hsign hds, by simp⟩
    · cases h
      exact ⟨.absent, rfl⟩
  · cases h
    exact ⟨.absent, rfl⟩

theorem unsignedNumber_eq_some {cs spelling rest : List Char}
    (h : unsignedNumber cs = some (spelling, rest)) :
    Magnitude spelling ∧ cs = spelling ++ rest := by
  unfold unsignedNumber at h
  obtain ⟨⟨whole, _⟩, hwhole, h⟩ := Option.bind_eq_some_iff.1 h
  obtain ⟨⟨fraction, _⟩, hfraction, h⟩ := Option.bind_eq_some_iff.1 h
  obtain ⟨⟨exponent, _⟩, hexponent, h⟩ := Option.bind_eq_some_iff.1 h
  cases h
  obtain ⟨hw, rfl⟩ := integerPart_eq_some hwhole
  obtain ⟨hf, rfl⟩ := fractionPart_eq_some hfraction
  obtain ⟨he, rfl⟩ := exponentPart_eq_some hexponent
  exact ⟨.parts hw hf he, by simp⟩

theorem number_eq_some {cs spelling rest : List Char} (h : number cs = some (spelling, rest)) :
    Numeral spelling ∧ cs = spelling ++ rest := by
  unfold number at h
  split at h
  · obtain ⟨⟨_, _⟩, hmagnitude, h⟩ := Option.bind_eq_some_iff.1 h
    cases h
    obtain ⟨hm, rfl⟩ := unsignedNumber_eq_some hmagnitude
    exact ⟨.minus hm, rfl⟩
  · obtain ⟨hm, rfl⟩ := unsignedNumber_eq_some h
    exact ⟨.plain hm, rfl⟩

/-! ## Strings -/

theorem spells_of_hexUnit {a b c d : Char} {n : Nat} (h : hexUnit a b c d = some n) :
    Spells (.unit n) ['\\', 'u', a, b, c, d] := by
  unfold hexUnit at h
  obtain ⟨i, hi, h⟩ := Option.bind_eq_some_iff.1 h
  obtain ⟨j, hj, h⟩ := Option.bind_eq_some_iff.1 h
  obtain ⟨k, hk, h⟩ := Option.bind_eq_some_iff.1 h
  obtain ⟨l, hl, h⟩ := Option.bind_eq_some_iff.1 h
  cases h
  exact .unit (hexValue_eq_some_iff.1 hi) (hexValue_eq_some_iff.1 hj) (hexValue_eq_some_iff.1 hk)
    (hexValue_eq_some_iff.1 hl)

theorem stringBody_eq_some {cs rest : List Char} {pieces : List Piece}
    (h : stringBody cs = some (pieces, rest)) :
    ∃ literal, Literal pieces literal ∧ cs = literal ++ '"' :: rest := by
  induction cs using stringBody.induct generalizing pieces with
  | case1 => cases h
  | case2 left =>
    simp only [stringBody, Option.some.injEq, Prod.mk.injEq] at h
    obtain ⟨rfl, rfl⟩ := h
    exact ⟨[], .nil, rfl⟩
  | case3 a b c d left ih =>
    rw [stringBody] at h
    obtain ⟨n, hn, h⟩ := Option.bind_eq_some_iff.1 h
    obtain ⟨⟨_, _⟩, hleft, h⟩ := Option.bind_eq_some_iff.1 h
    cases h
    obtain ⟨literal, hliteral, rfl⟩ := ih hleft
    exact ⟨_, .cons (spells_of_hexUnit hn) hliteral, rfl⟩
  | case4 e left hu ih =>
    rw [stringBody.eq_4 _ _ hu] at h
    obtain ⟨c, hc, h⟩ := Option.bind_eq_some_iff.1 h
    obtain ⟨⟨_, _⟩, hleft, h⟩ := Option.bind_eq_some_iff.1 h
    cases h
    obtain ⟨literal, hliteral, rfl⟩ := ih hleft
    exact ⟨_, .cons (.short (shortEscape_eq_some_iff.1 hc)) hliteral, rfl⟩
  | case5 c left hquote h1 h2 hcontrol =>
    rw [stringBody.eq_5 _ _ hquote h1 h2, if_pos hcontrol] at h
    cases h
  | case6 c left hquote h1 h2 hplain ih =>
    rw [stringBody.eq_5 _ _ hquote h1 h2, if_neg hplain] at h
    obtain ⟨⟨_, _⟩, hleft, h⟩ := Option.bind_eq_some_iff.1 h
    cases h
    obtain ⟨literal, hliteral, rfl⟩ := ih hleft
    have hc : 32 ≤ c.toNat := by
      have := not_or.1 hplain
      omega
    exact ⟨_, .cons (.plain hc hquote fun hc => hplain (.inr hc)) hliteral, rfl⟩

/-! ## Values -/

def AcceptsValues (fuel : Nat) : Prop :=
  ∀ ⦃cs rest : List Char⦄ ⦃v : Document⦄, value fuel cs = some (v, rest) →
    ∃ before body, Blanks before ∧ Written v body ∧ cs = before ++ body ++ rest

def AcceptsItems (fuel : Nat) : Prop :=
  ∀ ⦃cs rest : List Char⦄ ⦃vs : List Document⦄, items fuel cs = some (vs, rest) →
    ∃ body, Items vs body ∧ cs = body ++ ']' :: rest

def AcceptsMembers (fuel : Nat) : Prop :=
  ∀ ⦃cs rest : List Char⦄ ⦃ms : List (List Piece × Document)⦄, members fuel cs = some (ms, rest) →
    ∃ body, Members ms body ∧ cs = body ++ '\x7d' :: rest

theorem acceptsValues_succ {fuel : Nat} (hi : AcceptsItems fuel) (hm : AcceptsMembers fuel) :
    AcceptsValues (fuel + 1) := by
  intro cs rest v h
  obtain ⟨before, hb, hcs⟩ := exists_blanks cs
  suffices hbody : ∃ body, Written v body ∧ skipBlanks cs = body ++ rest by
    obtain ⟨body, hbody, heq⟩ := hbody
    exact ⟨before, body, hb, hbody, by rw [List.append_assoc, ← heq, ← hcs]⟩
  rw [value] at h
  split at h
  · cases h
    exact ⟨_, .null, ‹_›⟩
  · cases h
    exact ⟨_, .isTrue, ‹_›⟩
  · cases h
    exact ⟨_, .isFalse, ‹_›⟩
  · rename_i heq
    obtain ⟨⟨_, _⟩, hstring, h⟩ := Option.bind_eq_some_iff.1 h
    cases h
    obtain ⟨literal, hliteral, rfl⟩ := stringBody_eq_some hstring
    exact ⟨_, .string hliteral, by simp [heq]⟩
  · rename_i opened heq
    obtain ⟨ws, hws, hopened⟩ := exists_blanks opened
    split at h
    · rename_i hskip
      cases h
      rw [hskip] at hopened
      exact ⟨_, .emptyArray hws, by simp [heq, hopened]⟩
    · rw [items_skipBlanks] at h
      obtain ⟨⟨_, _⟩, hitems, h⟩ := Option.bind_eq_some_iff.1 h
      cases h
      obtain ⟨body, hbody, rfl⟩ := hi hitems
      exact ⟨_, .array hbody, by simp [heq]⟩
  · rename_i opened heq
    obtain ⟨ws, hws, hopened⟩ := exists_blanks opened
    split at h
    · rename_i hskip
      cases h
      rw [hskip] at hopened
      exact ⟨_, .emptyObject hws, by simp [heq, hopened]⟩
    · rw [members_skipBlanks] at h
      obtain ⟨⟨_, _⟩, hmembers, h⟩ := Option.bind_eq_some_iff.1 h
      cases h
      obtain ⟨body, hbody, rfl⟩ := hm hmembers
      exact ⟨_, .object hbody, by simp [heq]⟩
  · obtain ⟨⟨_, _⟩, hnumber, h⟩ := Option.bind_eq_some_iff.1 h
    cases h
    obtain ⟨hnumeral, heq⟩ := number_eq_some hnumber
    exact ⟨_, .number hnumeral, heq⟩

/-- A value that was read, with the white space up to what stands behind it. -/
theorem AcceptsValues.padded {fuel : Nat} (hv : AcceptsValues fuel) {cs left rest : List Char}
    {c : Char} {v : Document} (h : value fuel cs = some (v, left))
    (hleft : skipBlanks left = c :: rest) :
    ∃ body, Padded v body ∧ cs = body ++ c :: rest := by
  obtain ⟨before, body, hb, hbody, rfl⟩ := hv h
  obtain ⟨after, ha, hafter⟩ := exists_blanks left
  rw [hleft] at hafter
  exact ⟨_, .around hb hbody ha, by simp [hafter]⟩

theorem acceptsItems_succ {fuel : Nat} (hv : AcceptsValues fuel) (hi : AcceptsItems fuel) :
    AcceptsItems (fuel + 1) := by
  intro cs rest vs h
  rw [items] at h
  obtain ⟨⟨v, left⟩, hvalue, h⟩ := Option.bind_eq_some_iff.1 h
  dsimp only at h
  split at h <;> rename_i hleft
  · obtain ⟨⟨_, _⟩, hitems, h⟩ := Option.bind_eq_some_iff.1 h
    cases h
    obtain ⟨body, hbody, rfl⟩ := hv.padded hvalue hleft
    obtain ⟨others, hothers, rfl⟩ := hi hitems
    exact ⟨_, .more hbody hothers, by simp⟩
  · cases h
    obtain ⟨body, hbody, rfl⟩ := hv.padded hvalue hleft
    exact ⟨_, .last hbody, rfl⟩
  · cases h

theorem acceptsMembers_succ {fuel : Nat} (hv : AcceptsValues fuel) (hm : AcceptsMembers fuel) :
    AcceptsMembers (fuel + 1) := by
  intro cs rest ms h
  obtain ⟨before, hb, hcs⟩ := exists_blanks cs
  rw [members] at h
  split at h
  · rename_i opened hopen
    obtain ⟨⟨key, closed⟩, hkey, h⟩ := Option.bind_eq_some_iff.1 h
    obtain ⟨literal, hliteral, hopened⟩ := stringBody_eq_some hkey
    obtain ⟨between, hbetween, hclosed⟩ := exists_blanks closed
    rw [hopen, hopened] at hcs
    dsimp only at h
    split at h
    · rename_i named hcolon
      rw [hcolon] at hclosed
      obtain ⟨⟨v, left⟩, hvalue, h⟩ := Option.bind_eq_some_iff.1 h
      have hmember : ∀ {c : Char} {behind : List Char}, skipBlanks left = c :: behind →
          ∃ body, Member (key, v) body ∧ cs = body ++ c :: behind := by
        intro c behind hleft
        obtain ⟨body, hbody, hnamed⟩ := hv.padded hvalue hleft
        exact ⟨_, .pair hb hliteral hbetween hbody, by simp [hcs, hclosed, hnamed]⟩
      dsimp only at h
      split at h <;> rename_i hleft
      · obtain ⟨⟨_, _⟩, hmembers, h⟩ := Option.bind_eq_some_iff.1 h
        cases h
        obtain ⟨body, hbody, hbehind⟩ := hmember hleft
        obtain ⟨others, hothers, rfl⟩ := hm hmembers
        exact ⟨_, .more hbody hothers, by simp [hbehind]⟩
      · cases h
        obtain ⟨body, hbody, hbehind⟩ := hmember hleft
        exact ⟨_, .last hbody, hbehind⟩
      · cases h
    · cases h
  · cases h

theorem accepts (fuel : Nat) : AcceptsValues fuel ∧ AcceptsItems fuel ∧ AcceptsMembers fuel := by
  induction fuel with
  | zero =>
    exact ⟨fun _ _ _ h => by simp [value] at h, fun _ _ _ h => by simp [items] at h,
      fun _ _ _ h => by simp [members] at h⟩
  | succ fuel ih =>
    obtain ⟨hv, hi, hm⟩ := ih
    exact ⟨acceptsValues_succ hi hm, acceptsItems_succ hv hi, acceptsMembers_succ hv hm⟩

/-- The reader accepts what the grammar says, and reads it as what the grammar
says. -/
theorem parse_eq_some_iff {text : String} {d : Document} :
    parse text = some d ↔ Padded d text.toList := by
  refine ⟨fun h => ?_, parse_of_padded⟩
  obtain ⟨⟨v, rest⟩, hvalue, h⟩ := Option.bind_eq_some_iff.1 h
  dsimp only at h
  split at h
  · rename_i hempty
    cases h
    obtain ⟨before, body, hb, hbody, htext⟩ := (accepts _).1 hvalue
    obtain ⟨after, ha, hafter⟩ := exists_blanks rest
    rw [List.isEmpty_iff.1 hempty, List.append_nil] at hafter
    rw [htext, hafter]
    exact .around hb hbody ha
  · cases h

end TieredEngine.Json

import Mathlib.Data.Nat.Digits.Defs
import Mathlib.Logic.Function.Basic
/-!
# Texts that end by themselves

Where a part of a text stops, when it is followed by something else: a run of
characters at the first that does not belong to it, a line at its newline, a
number at the first character that is no digit.
-/

namespace TieredEngine

/-- What follows a text of characters in `p`: nothing, or a character outside
`p`. -/
def Stops (p : Char → Bool) (rest : List Char) : Prop := ∀ c ∈ rest.head?, p c = false

@[simp]
theorem stops_nil (p : Char → Bool) : Stops p [] := by simp [Stops]

@[simp]
theorem stops_cons {p : Char → Bool} {c : Char} {rest : List Char} :
    Stops p (c :: rest) ↔ p c = false := by simp [Stops]

theorem Stops.mono {p q : Char → Bool} {rest : List Char} (h : Stops q rest)
    (hpq : ∀ c, q c = false → p c = false) : Stops p rest :=
  fun c hc => hpq c (h c hc)

theorem takeWhile_of_stops {p : Char → Bool} {xs rest : List Char} (hx : ∀ c ∈ xs, p c)
    (hrest : Stops p rest) :
    (xs ++ rest).takeWhile p = xs := by
  rw [List.takeWhile_append_of_pos hx]
  cases rest with
  | nil => simp
  | cons c rest => simp [stops_cons.1 hrest]

theorem dropWhile_of_stops {p : Char → Bool} {xs rest : List Char} (hx : ∀ c ∈ xs, p c)
    (hrest : Stops p rest) :
    (xs ++ rest).dropWhile p = rest := by
  rw [List.dropWhile_append_of_pos hx]
  cases rest with
  | nil => rfl
  | cons c rest => simp [stops_cons.1 hrest]

theorem append_inj_of_stops {p : Char → Bool} {xs ys r s : List Char} (hx : ∀ c ∈ xs, p c)
    (hy : ∀ c ∈ ys, p c) (hr : Stops p r) (hs : Stops p s) (h : xs ++ r = ys ++ s) :
    xs = ys ∧ r = s := by
  induction xs generalizing ys with
  | nil =>
    cases ys with
    | nil => exact ⟨rfl, h⟩
    | cons y ys =>
      obtain rfl : r = y :: (ys ++ s) := h
      rw [stops_cons, hy y List.mem_cons_self] at hr
      cases hr
  | cons x xs ih =>
    cases ys with
    | nil =>
      obtain rfl : s = x :: (xs ++ r) := h.symm
      rw [stops_cons, hx x List.mem_cons_self] at hs
      cases hs
    | cons y ys =>
      obtain ⟨rfl, htail⟩ := List.cons.inj h
      obtain ⟨rfl, hrest⟩ := ih (fun c hc => hx c (List.mem_cons_of_mem _ hc))
        (fun c hc => hy c (List.mem_cons_of_mem _ hc)) htail
      exact ⟨rfl, hrest⟩

/-- A rendering by characters of `p` from which the rendered thing can be
told. -/
structure Legible {α : Type} (p : Char → Bool) (render : α → String) : Prop where
  chars : ∀ a, ∀ c ∈ (render a).toList, p c
  injective : Function.Injective render

theorem Legible.append_inj {α : Type} {p : Char → Bool} {render : α → String}
    (hl : Legible p render) {a b : α} {r s : List Char} (hr : Stops p r) (hs : Stops p s)
    (h : (render a).toList ++ r = (render b).toList ++ s) :
    a = b ∧ r = s := by
  obtain ⟨htext, hrest⟩ := append_inj_of_stops (hl.chars a) (hl.chars b) hr hs h
  exact ⟨hl.injective (String.toList_inj.1 htext), hrest⟩

/-- What was rendered can be told from the text up to a separator. -/
theorem Legible.inj_of_separator {α : Type} {p : Char → Bool} {render : α → String}
    (hl : Legible p render) {a b : α} {separator : String} {r s : List Char}
    (hsep : separator.toList.head?.any (!p ·))
    (h : (render a).toList ++ (separator.toList ++ r) =
      (render b).toList ++ (separator.toList ++ s)) :
    a = b ∧ r = s := by
  have hstop : ∀ t, Stops p (separator.toList ++ t) := by
    cases hd : separator.toList with
    | nil => simp [hd] at hsep
    | cons c cs => exact fun t => stops_cons.2 (by simpa [hd] using hsep)
  obtain ⟨rfl, hrest⟩ := hl.append_inj (hstop r) (hstop s) h
  exact ⟨rfl, List.append_cancel_left hrest⟩

theorem Legible.notMem {α : Type} {p : Char → Bool} {render : α → String} (hl : Legible p render)
    (a : α) {c : Char} (hc : p c = false) : c ∉ (render a).toList := fun hmem => by
  rw [hl.chars a c hmem] at hc
  cases hc

/-- Texts of lines that hold no newline can be told apart line by line. -/
theorem lines_inj {xs ys : List (List Char)} (hx : ∀ x ∈ xs, '\n' ∉ x) (hy : ∀ y ∈ ys, '\n' ∉ y)
    (h : xs.flatMap (· ++ ['\n']) = ys.flatMap (· ++ ['\n'])) : xs = ys := by
  have hplain : ∀ {x : List Char}, '\n' ∉ x → ∀ c ∈ x, (c != '\n') = true := by
    intro x hx c hc
    exact bne_iff_ne.2 fun hcn => hx (hcn ▸ hc)
  induction xs generalizing ys with
  | nil =>
    cases ys with
    | nil => rfl
    | cons y ys => simp at h
  | cons x xs ih =>
    cases ys with
    | nil => simp at h
    | cons y ys =>
      simp only [List.flatMap_cons, List.append_assoc] at h
      obtain ⟨rfl, hrest⟩ := append_inj_of_stops (p := (· != '\n'))
        (hplain (hx x List.mem_cons_self)) (hplain (hy y List.mem_cons_self)) (by simp) (by simp) h
      rw [ih (fun z hz => hx z (List.mem_cons_of_mem _ hz))
        (fun z hz => hy z (List.mem_cons_of_mem _ hz)) (List.cons.inj hrest).2]

/-! ## Numbers -/

theorem natText_injective : Function.Injective (toString : ℕ → String) := by
  intro m n h
  have hdigits : Nat.toDigits 10 m = Nat.toDigits 10 n := by
    simpa [Nat.toString_eq_ofList_toDigits] using congrArg String.toList h
  calc
    m = Nat.ofDigitChars 10 (Nat.toDigits 10 m) 0 := Nat.ofDigitChars_ten_toDigits.symm
    _ = Nat.ofDigitChars 10 (Nat.toDigits 10 n) 0 := by rw [hdigits]
    _ = n := Nat.ofDigitChars_ten_toDigits

theorem legible_number : Legible Char.isDigit (toString : ℕ → String) where
  chars n c hc := by
    rw [Nat.toString_eq_ofList_toDigits, String.toList_ofList] at hc
    exact Nat.isDigit_of_mem_toDigits (by decide) (by decide) hc
  injective := natText_injective

/-- No number has a zero in front of other digits. -/
theorem natText_of_head?_zero {n : ℕ} (h : (toString n).toList.head? = some '0') :
    (toString n).toList = ['0'] := by
  rw [Nat.toString_eq_ofList_toDigits, String.toList_ofList] at h ⊢
  induction n using Nat.strong_induction_on with
  | _ n ih =>
    by_cases hlt : n < 10
    · rw [Nat.toDigits_of_lt_base hlt] at h ⊢
      simpa using h
    · -- the first digit of a longer number is that of a tenth of it, which is not zero
      rw [Nat.toDigits_of_base_le (by decide) (by omega)] at h
      have hdigits :=
        ih (n / 10) (by omega) (by simpa [List.head?_append, List.head?_eq_some_head] using h)
      have hzero : n / 10 = 0 := by
        rw [← Nat.ofDigitChars_ten_toDigits (n := n / 10), hdigits]
        rfl
      omega

end TieredEngine

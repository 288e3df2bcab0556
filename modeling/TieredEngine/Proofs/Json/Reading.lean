import TieredEngine.Proofs.Texts
import TieredEngine.Proofs.Json.Grammar
import Mathlib.Tactic.IntervalCases
/-!
# Written documents are read back

A reader takes as much as it can, so every statement says what may follow:
after a run of digits no digit, after a numeral nothing that would go on with
it. Strings, arrays and objects end by themselves. The fuel of a reader is
spent by opening a value or a list, and the text has a character for each of
these: its length is fuel enough.
-/

namespace TieredEngine.Json

/-! ## Characters -/

theorem isBlank_iff {c : Char} : isBlank c ↔ c ∈ [' ', '\n', '\t', '\r'] := by
  simp [isBlank, or_assoc]

theorem shortEscape_eq_some_iff {e c : Char} : shortEscape e = some c ↔ (e, c) ∈ shortEscapes := by
  constructor
  · intro h
    unfold shortEscape at h
    split at h
    · rename_i he
      cases h
      rcases he with rfl | rfl | rfl <;> decide
    · split_ifs at h <;> subst_vars <;> cases h <;> decide
  · intro h
    simp only [shortEscapes, List.mem_cons, List.not_mem_nil, or_false, Prod.mk.injEq] at h
    rcases h with ⟨rfl, rfl⟩ | ⟨rfl, rfl⟩ | ⟨rfl, rfl⟩ | ⟨rfl, rfl⟩ | ⟨rfl, rfl⟩
        | ⟨rfl, rfl⟩ | ⟨rfl, rfl⟩ | ⟨rfl, rfl⟩ <;>
      decide

/-- A table holds a character that belongs to a run of it. -/
theorem getElem?_of_run {table : List Char} {start first length : Nat} {c : Char}
    (hrun : ∀ k < length, table[start + k]? = some (Char.ofNat (first + k)))
    (hlow : first ≤ c.toNat) (hhigh : c.toNat < first + length) :
    table[start + (c.toNat - first)]? = some c := by
  rw [hrun _ (by omega), Nat.add_sub_cancel' hlow, Char.ofNat_toNat]

theorem hexValue_eq_some_iff {c : Char} {n : Nat} : hexValue c = some n ↔ HexDigit c n := by
  constructor
  · intro h
    unfold hexValue at h
    split_ifs at h with hd hl hu
    · obtain ⟨hlow, hhigh⟩ : 48 ≤ c.toNat ∧ c.toNat ≤ 57 := hd
      have hrun : ∀ k < 10, "0123456789abcdef".toList[0 + k]? = some (Char.ofNat (48 + k)) := by
        decide
      obtain rfl : 0 + (c.toNat - 48) = n := by simpa using h
      exact .inl (getElem?_of_run hrun hlow (by omega))
    · obtain ⟨hlow, hhigh⟩ : 97 ≤ c.toNat ∧ c.toNat ≤ 102 := hl
      have hrun : ∀ k < 6, "0123456789abcdef".toList[10 + k]? = some (Char.ofNat (97 + k)) := by
        decide
      obtain rfl : 10 + (c.toNat - 97) = n := by
        cases h
        omega
      exact .inl (getElem?_of_run hrun hlow (by omega))
    · obtain ⟨hlow, hhigh⟩ : 65 ≤ c.toNat ∧ c.toNat ≤ 70 := hu
      have hrun : ∀ k < 6, "0123456789ABCDEF".toList[10 + k]? = some (Char.ofNat (65 + k)) := by
        decide
      obtain rfl : 10 + (c.toNat - 65) = n := by
        cases h
        omega
      exact .inr (getElem?_of_run hrun hlow (by omega))
  · rintro (h | h)
    · have hlt : n < 16 := (List.getElem?_eq_some_iff.1 h).1
      interval_cases n <;> cases h <;> decide
    · have hlt : n < 16 := (List.getElem?_eq_some_iff.1 h).1
      interval_cases n <;> cases h <;> decide

/-! ## White space -/

theorem skipBlanks_append {ws cs : List Char} (h : Blanks ws) :
    skipBlanks (ws ++ cs) = skipBlanks cs :=
  List.dropWhile_append_of_pos fun c hc => isBlank_iff.2 (h c hc)

theorem skipBlanks_cons {c : Char} {cs : List Char} (h : isBlank c = false) :
    skipBlanks (c :: cs) = c :: cs := by
  simp [skipBlanks, h]

theorem skipBlanks_skipBlanks (cs : List Char) : skipBlanks (skipBlanks cs) = skipBlanks cs := by
  induction cs with
  | nil => rfl
  | cons c cs ih => by_cases hc : isBlank c <;> simp_all [skipBlanks]

theorem skipBlanks_append_cons {ws cs : List Char} {c : Char} (h : Blanks ws)
    (hc : isBlank c = false) :
    skipBlanks (ws ++ c :: cs) = c :: cs := by
  rw [skipBlanks_append h, skipBlanks_cons hc]

/-! ## Numerals -/

/-- The characters that a numeral up to its exponent may go on with. -/
def goesOnFraction (c : Char) : Bool := isDigit c || c = '.'

/-- The characters that a numeral may go on with. -/
def goesOnNumeral (c : Char) : Bool := goesOnFraction c || c = 'e' || c = 'E'

theorem digits_append {ds rest : List Char} (hds : Digits ds) (hrest : Stops isDigit rest) :
    digits (ds ++ rest) = some (ds, rest) := by
  have hdigit : ∀ d ∈ ds, isDigit d := hds.digit
  unfold digits
  rw [takeWhile_of_stops hdigit hrest, dropWhile_of_stops hdigit hrest]
  cases ds with
  | nil => exact absurd rfl hds.nonempty
  | cons d ds => rfl

theorem Digits.exists_cons {ds : List Char} (h : Digits ds) :
    ∃ d ds', ds = d :: ds' ∧ isDigit d := by
  cases ds with
  | nil => exact absurd rfl h.nonempty
  | cons d ds => exact ⟨d, ds, rfl, h.digit d List.mem_cons_self⟩

theorem integerPart_append {ds rest : List Char} (hds : Whole ds) (hrest : Stops isDigit rest) :
    integerPart (ds ++ rest) = some (ds, rest) := by
  unfold integerPart
  rw [digits_append hds.toDigits hrest]
  split
  · rename_i heq
    obtain ⟨rfl, -⟩ := Prod.mk.inj (Option.some.inj heq)
    cases hds.zero rfl
  · rfl

theorem fractionPart_append {fraction rest : List Char} (hf : Fraction fraction)
    (hrest : Stops goesOnFraction rest) :
    fractionPart (fraction ++ rest) = some (fraction, rest) := by
  cases hf with
  | absent =>
    rw [List.nil_append]
    unfold fractionPart
    split
    · exact absurd (stops_cons.1 hrest) (by decide)
    · rfl
  | present hds =>
    have hdigits := digits_append hds (hrest.mono fun c hc => (Bool.or_eq_false_iff.1 hc).1)
    simp [fractionPart, hdigits]

theorem signPart_append {sign ds rest : List Char} (hsign : sign = [] ∨ sign = ['+'] ∨ sign = ['-'])
    (hds : Digits ds) :
    signPart (sign ++ (ds ++ rest)) = (sign, ds ++ rest) := by
  obtain ⟨d, ds, rfl, hd⟩ := hds.exists_cons
  rcases hsign with rfl | rfl | rfl
  · unfold signPart
    split
    · rename_i heq
      obtain ⟨rfl, -⟩ := List.cons.inj heq
      exact absurd hd (by decide)
    · rename_i heq
      obtain ⟨rfl, -⟩ := List.cons.inj heq
      exact absurd hd (by decide)
    · rfl
  · rfl
  · rfl

theorem exponentPart_append {exponent rest : List Char} (he : Exponent exponent)
    (hrest : Stops goesOnNumeral rest) :
    exponentPart (exponent ++ rest) = some (exponent, rest) := by
  cases he with
  | absent =>
    cases rest with
    | nil => rfl
    | cons c rest =>
      have hc := stops_cons.1 hrest
      simp only [goesOnNumeral, Bool.or_eq_false_iff, decide_eq_false_iff_not] at hc
      simp [exponentPart, hc]
  | @present e sign ds he hsign hds =>
    have hdigits : digits (ds ++ rest) = some (ds, rest) := by
      refine digits_append hds (hrest.mono fun c hc => ?_)
      simp only [goesOnNumeral, goesOnFraction, Bool.or_eq_false_iff] at hc
      exact hc.1.1.1
    simp [exponentPart, he, signPart_append hsign hds, hdigits]

/-- Neither a fraction nor an exponent goes on with the digits in front of
it. -/
theorem Exponent.stops {exponent rest : List Char} (he : Exponent exponent)
    (hrest : Stops goesOnNumeral rest) :
    Stops goesOnFraction (exponent ++ rest) := by
  cases he with
  | absent => exact hrest.mono fun c hc => by simp_all [goesOnNumeral]
  | present he => rcases he with rfl | rfl <;> exact stops_cons.2 (by decide)

theorem Fraction.stops {fraction rest : List Char} (hf : Fraction fraction)
    (hrest : Stops goesOnFraction rest) :
    Stops isDigit (fraction ++ rest) := by
  cases hf with
  | absent => exact hrest.mono fun c hc => (Bool.or_eq_false_iff.1 hc).1
  | present => exact stops_cons.2 (by decide)

theorem unsignedNumber_append {cs rest : List Char} (hm : Magnitude cs)
    (hrest : Stops goesOnNumeral rest) :
    unsignedNumber (cs ++ rest) = some (cs, rest) := by
  cases hm with
  | @parts whole fraction exponent hw hf he =>
    have hexponent := he.stops hrest
    have hwhole := integerPart_append hw (hf.stops hexponent)
    simp [unsignedNumber, hwhole, fractionPart_append hf hexponent, exponentPart_append he hrest]

theorem Magnitude.exists_cons {cs : List Char} (hm : Magnitude cs) :
    ∃ d ds, cs = d :: ds ∧ isDigit d := by
  cases hm with
  | parts hw =>
    obtain ⟨d, ds, rfl, hd⟩ := hw.exists_cons
    exact ⟨d, _, rfl, hd⟩

theorem number_append {cs rest : List Char} (h : Numeral cs) (hrest : Stops goesOnNumeral rest) :
    number (cs ++ rest) = some (cs, rest) := by
  cases h with
  | plain hm =>
    obtain ⟨d, ds, rfl, hd⟩ := hm.exists_cons
    unfold number
    split
    · rename_i heq
      obtain ⟨rfl, -⟩ := List.cons.inj heq
      exact absurd hd (by decide)
    · exact unsignedNumber_append hm hrest
  | minus hm => simp [number, unsignedNumber_append hm hrest]

theorem Numeral.exists_cons {cs : List Char} (h : Numeral cs) :
    ∃ c ds, cs = c :: ds ∧ (isDigit c ∨ c = '-') := by
  cases h with
  | plain hm =>
    obtain ⟨d, ds, rfl, hd⟩ := hm.exists_cons
    exact ⟨d, ds, rfl, .inl hd⟩
  | minus => exact ⟨'-', _, rfl, .inr rfl⟩

theorem ne_of_opens {c d : Char} (hc : isDigit c ∨ c = '-') (hd : isDigit d = false)
    (hminus : d ≠ '-') : c ≠ d := by
  rintro rfl
  rcases hc with hc | rfl
  · simp [hd] at hc
  · exact hminus rfl

theorem isBlank_of_opens {c : Char} (hc : isDigit c ∨ c = '-') : isBlank c = false := by
  cases hb : isBlank c with
  | false => rfl
  | true =>
    simp only [isBlank, Bool.or_eq_true, decide_eq_true_eq] at hb
    rcases hb with ((hb | hb) | hb) | hb <;>
      exact absurd hb (ne_of_opens hc (by decide) (by decide))

section Steps

-- every proof up to the end of this section takes single steps of the readers
attribute [local simp] stringBody value items members

/-! ## Strings -/

theorem stringBody_plain {c : Char} {rest : List Char} (hc : 32 ≤ c.toNat) (hquote : c ≠ '"')
    (hslash : c ≠ '\\') :
    stringBody (c :: rest) = (stringBody rest).map fun r => (.char c :: r.1, r.2) := by
  have hplain : ¬ (c.toNat < 32 ∨ c = '\\') := by
    rintro (hlt | hc)
    · omega
    · exact hslash hc
  rw [stringBody.eq_5 c rest hquote (fun _ _ _ _ _ hc => absurd hc hslash)
    (fun _ _ hc => absurd hc hslash), if_neg hplain]
  cases stringBody rest <;> rfl

theorem stringBody_short {e c : Char} {rest : List Char} (he : (e, c) ∈ shortEscapes) :
    stringBody ('\\' :: e :: rest) = (stringBody rest).map fun r => (.char c :: r.1, r.2) := by
  rw [← shortEscape_eq_some_iff] at he
  have hu : e ≠ 'u' := by
    rintro rfl
    cases he
  rw [stringBody.eq_4 _ _ (by simp [hu])]
  cases stringBody rest <;> simp [he]

theorem stringBody_append {pieces : List Piece} {cs rest : List Char} (h : Literal pieces cs) :
    stringBody (cs ++ '"' :: rest) = some (pieces, rest) := by
  induction h with
  | nil => simp
  | cons hp hps ih =>
    rw [List.append_assoc]
    cases hp with
    | plain hc hquote hslash =>
      rw [List.singleton_append, stringBody_plain hc hquote hslash, ih]
      rfl
    | short he =>
      simp only [List.cons_append, List.nil_append]
      rw [stringBody_short he, ih]
      rfl
    | unit ha hb hc hd =>
      rw [← hexValue_eq_some_iff] at ha hb hc hd
      simp [hexUnit, ha, hb, hc, hd, ih]

/-! ## Values -/

theorem value_skipBlanks (fuel : Nat) (cs : List Char) :
    value fuel (skipBlanks cs) = value fuel cs := by
  cases fuel with
  | zero => rfl
  | succ fuel => simp only [value, skipBlanks_skipBlanks]

theorem items_skipBlanks (fuel : Nat) (cs : List Char) :
    items fuel (skipBlanks cs) = items fuel cs := by
  cases fuel with
  | zero => rfl
  | succ fuel => simp only [items, value_skipBlanks]

theorem members_skipBlanks (fuel : Nat) (cs : List Char) :
    members fuel (skipBlanks cs) = members fuel cs := by
  cases fuel with
  | zero => rfl
  | succ fuel => simp only [members, skipBlanks_skipBlanks]

/-- A value that starts like a number is one. -/
theorem value_number {fuel : Nat} {c : Char} {cs : List Char} (hc : isDigit c ∨ c = '-') :
    value (fuel + 1) (c :: cs) = (number (c :: cs)).map fun r => (.number r.1, r.2) := by
  rw [value, skipBlanks_cons (isBlank_of_opens hc)]
  split
  case h_7 => cases number (c :: cs) <;> rfl
  all_goals
    rename_i heq
    exact absurd (List.cons.inj heq).1 (ne_of_opens hc (by decide) (by decide))

theorem value_string {fuel : Nat} {cs : List Char} :
    value (fuel + 1) ('"' :: cs) = (stringBody cs).map fun r => (.string r.1, r.2) := by
  rw [value, skipBlanks_cons (by decide)]
  simp only []
  cases stringBody cs <;> rfl

theorem value_emptyArray {fuel : Nat} {cs rest : List Char} (h : skipBlanks cs = ']' :: rest) :
    value (fuel + 1) ('[' :: cs) = some (.array [], rest) := by
  rw [value, skipBlanks_cons (by decide)]
  simp only [h]

theorem value_array {fuel : Nat} {c : Char} {cs ds : List Char} (h : skipBlanks cs = c :: ds)
    (hc : c ≠ ']') :
    value (fuel + 1) ('[' :: cs) = (items fuel cs).map fun r => (.array r.1, r.2) := by
  rw [value, skipBlanks_cons (by decide), ← items_skipBlanks]
  simp only [h]
  split
  · rename_i heq
    exact absurd (List.cons.inj heq).1 hc
  · cases items fuel (c :: ds) <;> rfl

theorem value_emptyObject {fuel : Nat} {cs rest : List Char} (h : skipBlanks cs = '\x7d' :: rest) :
    value (fuel + 1) ('\x7b' :: cs) = some (.object [], rest) := by
  rw [value, skipBlanks_cons (by decide)]
  simp only [h]

theorem value_object {fuel : Nat} {c : Char} {cs ds : List Char} (h : skipBlanks cs = c :: ds)
    (hc : c ≠ '\x7d') :
    value (fuel + 1) ('\x7b' :: cs) = (members fuel cs).map fun r => (.object r.1, r.2) := by
  rw [value, skipBlanks_cons (by decide), ← members_skipBlanks]
  simp only [h]
  split
  · rename_i heq
    exact absurd (List.cons.inj heq).1 hc
  · cases members fuel (c :: ds) <;> rfl

/-! ## Documents -/

/-- A value starts with neither white space nor a closing bracket. -/
theorem Written.exists_cons {v : Document} {cs : List Char} (h : Written v cs) :
    ∃ c ds, cs = c :: ds ∧ isBlank c = false ∧ c ≠ ']' := by
  cases h with
  | number h =>
    obtain ⟨c, ds, rfl, hc⟩ := h.exists_cons
    exact ⟨c, ds, rfl, isBlank_of_opens hc, ne_of_opens hc (by decide) (by decide)⟩
  | _ => exact ⟨_, _, rfl, by decide, by decide⟩

theorem Padded.skipBlanks {v : Document} {cs : List Char} (h : Padded v cs) (rest : List Char) :
    ∃ c ds, Json.skipBlanks (cs ++ rest) = c :: ds ∧ c ≠ ']' := by
  cases h with
  | around hb h ha =>
    obtain ⟨c, ds, rfl, hblank, hc⟩ := h.exists_cons
    simp only [List.append_assoc, List.cons_append]
    exact ⟨c, _, skipBlanks_append_cons hb hblank, hc⟩

theorem Items.skipBlanks {vs : List Document} {cs : List Char} (h : Items vs cs)
    (rest : List Char) :
    ∃ c ds, Json.skipBlanks (cs ++ rest) = c :: ds ∧ c ≠ ']' := by
  cases h with
  | last h => exact h.skipBlanks rest
  | more h =>
    rw [List.append_assoc]
    exact h.skipBlanks _

theorem Member.skipBlanks {m : List Piece × Document} {cs : List Char} (h : Member m cs)
    (rest : List Char) :
    ∃ ds, Json.skipBlanks (cs ++ rest) = '"' :: ds := by
  cases h with
  | pair hb =>
    simp only [List.append_assoc, List.cons_append]
    exact ⟨_, skipBlanks_append_cons hb (by decide)⟩

theorem Members.skipBlanks {ms : List (List Piece × Document)} {cs : List Char} (h : Members ms cs)
    (rest : List Char) :
    ∃ ds, Json.skipBlanks (cs ++ rest) = '"' :: ds := by
  cases h with
  | last h => exact h.skipBlanks rest
  | more h =>
    rw [List.append_assoc]
    exact h.skipBlanks _

def ReadsValues (fuel : Nat) : Prop :=
  ∀ ⦃v : Document⦄ ⦃cs rest : List Char⦄, Written v cs → cs.length ≤ fuel →
    Stops goesOnNumeral rest → value fuel (cs ++ rest) = some (v, rest)

def ReadsItems (fuel : Nat) : Prop :=
  ∀ ⦃vs : List Document⦄ ⦃cs rest : List Char⦄, Items vs cs → cs.length < fuel →
    items fuel (cs ++ ']' :: rest) = some (vs, rest)

def ReadsMembers (fuel : Nat) : Prop :=
  ∀ ⦃ms : List (List Piece × Document)⦄ ⦃cs rest : List Char⦄, Members ms cs → cs.length < fuel →
    members fuel (cs ++ '\x7d' :: rest) = some (ms, rest)

theorem readsValues_succ {fuel : Nat} (hi : ReadsItems fuel) (hm : ReadsMembers fuel) :
    ReadsValues (fuel + 1) := by
  intro v cs rest h hfuel hrest
  cases h with
  | null => simp [skipBlanks_cons (show isBlank 'n' = false by decide)]
  | isTrue => simp [skipBlanks_cons (show isBlank 't' = false by decide)]
  | isFalse => simp [skipBlanks_cons (show isBlank 'f' = false by decide)]
  | number h =>
    have hnumber := number_append h hrest
    obtain ⟨c, ds, rfl, hc⟩ := h.exists_cons
    rw [List.cons_append] at hnumber ⊢
    rw [value_number hc, hnumber]
    rfl
  | string h =>
    simp only [List.cons_append, List.append_assoc, List.nil_append]
    rw [value_string, stringBody_append h]
    rfl
  | emptyArray h =>
    simp only [List.cons_append, List.append_assoc, List.nil_append]
    exact value_emptyArray (skipBlanks_append_cons h (by decide))
  | array h =>
    simp only [List.length_append, List.length_cons, List.length_nil] at hfuel
    simp only [List.cons_append, List.append_assoc, List.nil_append]
    obtain ⟨c, ds, hskip, hc⟩ := h.skipBlanks (']' :: rest)
    rw [value_array hskip hc, hi h (by omega)]
    rfl
  | emptyObject h =>
    simp only [List.cons_append, List.append_assoc, List.nil_append]
    exact value_emptyObject (skipBlanks_append_cons h (by decide))
  | object h =>
    simp only [List.length_append, List.length_cons, List.length_nil] at hfuel
    simp only [List.cons_append, List.append_assoc, List.nil_append]
    obtain ⟨ds, hskip⟩ := h.skipBlanks ('\x7d' :: rest)
    rw [value_object hskip (by decide), hm h (by omega)]
    rfl

theorem stops_blanks_append {ws rest : List Char} (h : Blanks ws)
    (hrest : Stops goesOnNumeral rest) :
    Stops goesOnNumeral (ws ++ rest) := by
  cases ws with
  | nil => exact hrest
  | cons c ws =>
    have hc := h c List.mem_cons_self
    simp only [List.mem_cons, List.not_mem_nil, or_false] at hc
    rcases hc with rfl | rfl | rfl | rfl <;> exact stops_cons.2 (by decide)

/-- A value with white space around it is read up to the white space behind
it. -/
theorem ReadsValues.padded {fuel : Nat} (hv : ReadsValues fuel) {v : Document} {cs : List Char}
    (h : Padded v cs) (hfuel : cs.length ≤ fuel) {rest : List Char}
    (hrest : Stops goesOnNumeral rest) :
    ∃ left, value fuel (cs ++ rest) = some (v, left) ∧ skipBlanks left = skipBlanks rest := by
  cases h with
  | @around before after cs v hb h ha =>
    simp only [List.length_append] at hfuel
    have hread : value fuel (cs ++ (after ++ rest)) = some (v, after ++ rest) :=
      hv h (by omega) (stops_blanks_append ha hrest)
    refine ⟨after ++ rest, ?_, skipBlanks_append ha⟩
    rw [← hread, ← value_skipBlanks, List.append_assoc, List.append_assoc, skipBlanks_append hb,
      value_skipBlanks]

/-- A value in a list is read up to the separator or bracket behind it. -/
theorem ReadsValues.upTo {fuel : Nat} (hv : ReadsValues fuel) {v : Document} {cs : List Char}
    (h : Padded v cs) (hfuel : cs.length ≤ fuel) (c : Char) (rest : List Char)
    (hc : goesOnNumeral c = false) (hblank : isBlank c = false) :
    ∃ left, value fuel (cs ++ c :: rest) = some (v, left) ∧ skipBlanks left = c :: rest := by
  obtain ⟨left, hread, hleft⟩ := hv.padded h hfuel (stops_cons.2 hc)
  exact ⟨left, hread, hleft.trans (skipBlanks_cons hblank)⟩

theorem readsItems_succ {fuel : Nat} (hv : ReadsValues fuel) (hi : ReadsItems fuel) :
    ReadsItems (fuel + 1) := by
  intro vs cs rest h hfuel
  cases h with
  | last h =>
    obtain ⟨left, hread, hleft⟩ := hv.upTo h (by omega) ']' rest (by decide) (by decide)
    simp [hread, hleft]
  | @more v vs cs ds h hs =>
    simp only [List.length_append, List.length_cons] at hfuel
    simp only [List.append_assoc, List.cons_append]
    obtain ⟨left, hread, hleft⟩ :=
      hv.upTo h (by omega) ',' (ds ++ ']' :: rest) (by decide) (by decide)
    have hrest : items fuel (ds ++ ']' :: rest) = some (vs, rest) := hi hs (by omega)
    simp [hread, hleft, hrest]

/-- The stops on the way through a member: behind the opening quote, the
closing one, the colon and the value. -/
theorem ReadsValues.member {fuel : Nat} (hv : ReadsValues fuel) {m : List Piece × Document}
    {cs : List Char} (h : Member m cs) (hfuel : cs.length ≤ fuel) (c : Char) (rest : List Char)
    (hc : goesOnNumeral c = false) (hblank : isBlank c = false) :
    ∃ opened closed named left, skipBlanks (cs ++ c :: rest) = '"' :: opened ∧
      stringBody opened = some (m.1, closed) ∧
      skipBlanks closed = ':' :: named ∧ value fuel named = some (m.2, left) ∧
        skipBlanks left = c :: rest := by
  cases h with
  | @pair before key between cs pieces v hb hk hm h =>
    simp only [List.length_append, List.length_cons] at hfuel
    simp only [List.append_assoc, List.cons_append]
    obtain ⟨left, hread, hleft⟩ := hv.upTo h (by omega) c rest hc hblank
    exact ⟨_, _, _, left, skipBlanks_append_cons hb (by decide), stringBody_append hk,
      skipBlanks_append_cons hm (by decide), hread, hleft⟩

theorem readsMembers_succ {fuel : Nat} (hv : ReadsValues fuel) (hm : ReadsMembers fuel) :
    ReadsMembers (fuel + 1) := by
  intro ms cs rest h hfuel
  cases h with
  | last h =>
    obtain ⟨opened, closed, named, left, hopen, hkey, hcolon, hread, hleft⟩ :=
      hv.member h (by omega) '\x7d' rest (by decide) (by decide)
    simp [hopen, hkey, hcolon, hread, hleft]
  | @more m ms cs ds h hs =>
    simp only [List.length_append, List.length_cons] at hfuel
    simp only [List.append_assoc, List.cons_append]
    obtain ⟨opened, closed, named, left, hopen, hkey, hcolon, hread, hleft⟩ :=
      hv.member h (by omega) ',' (ds ++ '\x7d' :: rest) (by decide) (by decide)
    have hrest : members fuel (ds ++ '\x7d' :: rest) = some (ms, rest) := hm hs (by omega)
    simp [hopen, hkey, hcolon, hread, hleft, hrest]

end Steps

theorem reads (fuel : Nat) : ReadsValues fuel ∧ ReadsItems fuel ∧ ReadsMembers fuel := by
  induction fuel with
  | zero =>
    refine ⟨?_, fun _ _ _ _ hfuel => absurd hfuel (Nat.not_lt_zero _),
      fun _ _ _ _ hfuel => absurd hfuel (Nat.not_lt_zero _)⟩
    intro v cs rest h hfuel
    obtain ⟨c, ds, rfl, -⟩ := h.exists_cons
    simp at hfuel
  | succ fuel ih =>
    obtain ⟨hv, hi, hm⟩ := ih
    exact ⟨readsValues_succ hi hm, readsItems_succ hv hi, readsMembers_succ hv hm⟩

/-- A text that holds a document by the grammar is read as that document. -/
theorem parse_of_padded {d : Document} {text : String} (h : Padded d text.toList) :
    parse text = some d := by
  obtain ⟨left, hread, hleft⟩ :=
    (reads (2 * text.toList.length + 2)).1.padded h (by omega) (stops_nil _)
  rw [List.append_nil] at hread
  have hempty : skipBlanks left = [] := hleft
  simp [parse, hread, hempty]

end TieredEngine.Json

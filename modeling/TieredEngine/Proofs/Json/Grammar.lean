import TieredEngine.Json.Document
/-!
# The grammar of JSON

How a document may be written, said without a reader: white space around every
value and every bracket, brace, colon and comma, the numerals, the escapes of
a string. Every rule pairs what is meant with the characters that say it.
Lists of items and of members are those that have some; an empty array or
object has a rule of its own, so a comma stands between two items only.
-/

namespace TieredEngine.Json

/-- White space of any length. -/
def Blanks (cs : List Char) : Prop := ∀ c ∈ cs, c ∈ [' ', '\n', '\t', '\r']

instance (cs : List Char) : Decidable (Blanks cs) := List.decidableBAll _ cs

/-! ## Numerals -/

/-- A run of digits, at least one. -/
structure Digits (ds : List Char) : Prop where
  digit : ∀ d ∈ ds, d.isDigit
  nonempty : ds ≠ []

/-- The digits of a whole number: no zero in front of others. -/
structure Whole (ds : List Char) : Prop extends Digits ds where
  zero : ds.head? = some '0' → ds = ['0']

inductive Fraction : List Char → Prop where
  | absent : Fraction []
  | present {ds : List Char} (hds : Digits ds) : Fraction ('.' :: ds)

inductive Exponent : List Char → Prop where
  | absent : Exponent []
  | present {e : Char} {sign ds : List Char} (he : e = 'e' ∨ e = 'E')
      (hsign : sign = [] ∨ sign = ['+'] ∨ sign = ['-']) (hds : Digits ds) :
      Exponent (e :: sign ++ ds)

/-- A numeral without its sign. -/
inductive Magnitude : List Char → Prop where
  | parts {whole fraction exponent : List Char} (hw : Whole whole) (hf : Fraction fraction)
      (he : Exponent exponent) : Magnitude (whole ++ fraction ++ exponent)

inductive Numeral : List Char → Prop where
  | plain {cs : List Char} (hm : Magnitude cs) : Numeral cs
  | minus {cs : List Char} (hm : Magnitude cs) : Numeral ('-' :: cs)

/-! ## Strings -/

/-- The letters of the short escapes, with the characters that they stand
for. -/
def shortEscapes : List (Char × Char) :=
  [('"', '"'), ('\\', '\\'), ('/', '/'), ('b', '\x08'), ('f', '\x0c'), ('n', '\n'), ('r', '\r'),
    ('t', '\t')]

/-- A digit in base sixteen, in either case, with its value. -/
def HexDigit (c : Char) (n : Nat) : Prop :=
  "0123456789abcdef".toList[n]? = some c ∨ "0123456789ABCDEF".toList[n]? = some c

instance (c : Char) (n : Nat) : Decidable (HexDigit c n) := inferInstanceAs (Decidable (_ ∨ _))

/-- How one piece of a string may be written. -/
inductive Spells : Piece → List Char → Prop where
  | plain {c : Char} (hc : 32 ≤ c.toNat) (hquote : c ≠ '"') (hslash : c ≠ '\\') : Spells
      (.char c) [c]
  | short {e c : Char} (he : (e, c) ∈ shortEscapes) : Spells (.char c) ['\\', e]
  | unit {a b c d : Char} {i j k l : Nat} (ha : HexDigit a i) (hb : HexDigit b j)
      (hc : HexDigit c k) (hd : HexDigit d l) :
      Spells (.unit (((i * 16 + j) * 16 + k) * 16 + l)) ['\\', 'u', a, b, c, d]

/-- How the pieces between two quotes may be written. -/
inductive Literal : List Piece → List Char → Prop where
  | nil : Literal [] []
  | cons {p : Piece} {ps : List Piece} {cs ds : List Char} (hp : Spells p cs)
      (hps : Literal ps ds) : Literal (p :: ps) (cs ++ ds)

/-! ## Values -/

mutual

/-- How a value may be written. -/
inductive Written : Document → List Char → Prop where
  | null : Written .null ['n', 'u', 'l', 'l']
  | isTrue : Written (.bool true) ['t', 'r', 'u', 'e']
  | isFalse : Written (.bool false) ['f', 'a', 'l', 's', 'e']
  | number {cs : List Char} (h : Numeral cs) : Written (.number cs) cs
  | string {pieces : List Piece} {cs : List Char} (h : Literal pieces cs) : Written (.string pieces)
      ('"' :: cs ++ ['"'])
  | emptyArray {ws : List Char} (h : Blanks ws) : Written (.array []) ('[' :: ws ++ [']'])
  | array {vs : List Document} {cs : List Char} (h : Items vs cs) : Written (.array vs)
      ('[' :: cs ++ [']'])
  | emptyObject {ws : List Char} (h : Blanks ws) : Written (.object []) ('\x7b' :: ws ++ ['\x7d'])
  | object {ms : List (List Piece × Document)} {cs : List Char} (h : Members ms cs) :
    Written (.object ms) ('\x7b' :: cs ++ ['\x7d'])

/-- How a value may be written with white space around it. -/
inductive Padded : Document → List Char → Prop where
  | around {before after cs : List Char} {v : Document} (hb : Blanks before) (h : Written v cs)
      (ha : Blanks after) : Padded v (before ++ cs ++ after)

/-- How the items of an array that has some may be written. -/
inductive Items : List Document → List Char → Prop where
  | last {v : Document} {cs : List Char} (h : Padded v cs) : Items [v] cs
  | more {v : Document} {vs : List Document} {cs ds : List Char} (h : Padded v cs)
      (hs : Items vs ds) : Items (v :: vs) (cs ++ ',' :: ds)

/-- How a key and its value may be written. -/
inductive Member : List Piece × Document → List Char → Prop where
  | pair {before key between cs : List Char} {pieces : List Piece} {v : Document}
      (hb : Blanks before) (hk : Literal pieces key) (hm : Blanks between)
    (h : Padded v cs) : Member (pieces, v) (before ++ '"' :: key ++ '"' :: between ++ ':' :: cs)

/-- How the members of an object that has some may be written. -/
inductive Members : List (List Piece × Document) → List Char → Prop where
  | last {m : List Piece × Document} {cs : List Char} (h : Member m cs) : Members [m] cs
  | more {m : List Piece × Document} {ms : List (List Piece × Document)} {cs ds : List Char}
      (h : Member m cs) (hs : Members ms ds) : Members (m :: ms) (cs ++ ',' :: ds)

end

end TieredEngine.Json

import TieredEngine.Json.Layout
import TieredEngine.Proofs.Json.Grammar
import Mathlib.Data.List.Basic
/-!
# What is written is JSON

A quoted string holds the string, escapes and all, and an indented object is
an object of the grammar: the white space that the layout puts between its
members belongs to the members on both sides.
-/

namespace TieredEngine.Json

/-! ## Quoted strings -/

/-- The piece that a quoted character is. -/
def quotedPiece (c : Char) : Piece :=
  if c.toNat < 32 ∧
    c ∉ ['\n', '\r', '\t', Char.ofNat 8, Char.ofNat 12] then .unit c.toNat else .char c

/-- The pieces of a quoted string. -/
def quotedPieces (s : String) : List Piece := s.toList.map quotedPiece

theorem hexDigit_hexDigit : ∀ n < 16, HexDigit (hexDigit n) n := by decide

theorem eq_ofNat {c : Char} {n : Nat} (h : c.toNat = n) : c = Char.ofNat n := by
  rw [← h, Char.ofNat_toNat]

theorem spells_quoteChar (c : Char) : Spells (quotedPiece c) (quoteChar c) := by
  unfold quoteChar
  split_ifs with hquote hslash hn hr ht hb hf hlt
  · subst hquote
    exact .short (by decide)
  · subst hslash
    exact .short (by decide)
  · subst hn
    exact .short (by decide)
  · subst hr
    exact .short (by decide)
  · subst ht
    exact .short (by decide)
  · rw [eq_ofNat hb]
    exact .short (by decide)
  · rw [eq_ofNat hf]
    exact .short (by decide)
  · -- a control character without a letter of its own
    have hother : c ∉ ['\n', '\r', '\t', Char.ofNat 8, Char.ofNat 12] := by
      simp only [List.mem_cons, List.not_mem_nil, or_false, not_or]
      refine ⟨hn, hr, ht, ?_, ?_⟩
      · rintro rfl
        exact hb (by decide)
      · rintro rfl
        exact hf (by decide)
    have hzero : HexDigit '0' 0 := by decide
    have hunit := Spells.unit hzero hzero (hexDigit_hexDigit (c.toNat / 16) (by omega))
      (hexDigit_hexDigit (c.toNat % 16) (by omega))
    have hvalue : ((0 * 16 + 0) * 16 + c.toNat / 16) * 16 + c.toNat % 16 = c.toNat := by omega
    rw [hvalue] at hunit
    rw [quotedPiece, if_pos ⟨hlt, hother⟩]
    exact hunit
  · rw [quotedPiece, if_neg fun h => hlt h.1]
    exact .plain (by omega) hquote hslash

theorem literal_quoteChars (cs : List Char) :
    Literal (cs.map quotedPiece) (cs.flatMap quoteChar) := by
  induction cs with
  | nil => exact .nil
  | cons c cs ih => exact .cons (spells_quoteChar c) ih

theorem decodePieces_unit {n : Nat} {ps : List Piece} (hl : isLeading n = false)
    (ht : isTrailing n = false) :
    decodePieces (.unit n :: ps) = (decodePieces ps).map (Char.ofNat n :: ·) := by
  rcases ps with _ | ⟨_ | _, ps⟩ <;> simp [decodePieces, hl, ht]

theorem textOf?_quotedPieces (s : String) : textOf? (quotedPieces s) = some s := by
  have hdecode : ∀ cs : List Char, decodePieces (cs.map quotedPiece) = some cs := by
    intro cs
    induction cs with
    | nil => rfl
    | cons c cs ih =>
      rw [List.map_cons, quotedPiece]
      split
      · rename_i h
        have hl : isLeading c.toNat = false := by simp [isLeading]; omega
        have ht : isTrailing c.toNat = false := by simp [isTrailing]; omega
        rw [decodePieces_unit hl ht, ih, Char.ofNat_toNat]
        rfl
      · rw [decodePieces, ih]
        rfl
  simp [textOf?, quotedPieces, hdecode]

/-! ## Indented objects -/

theorem blanks_indent (level : Nat) : Blanks (indent level).toList := by
  intro c hc
  simp only [indent, String.toList_ofList, List.mem_replicate] at hc
  rw [hc.2]
  decide

theorem Blanks.append {ws us : List Char} (hw : Blanks ws) (hu : Blanks us) :
    Blanks (ws ++ us) := by
  intro c hc
  rcases List.mem_append.1 hc with hc | hc
  · exact hw c hc
  · exact hu c hc

/-- One member of an indented object. -/
def memberLine (level : Nat) (m : String × String) : String :=
  indent (level + 1) ++ quote m.1 ++ ": " ++ m.2

theorem member_memberLine (level : Nat) {before after : List Char} (hb : Blanks before)
    (ha : Blanks after) (name : String) {text : String} {d : Document}
    (hd : Written d text.toList) :
    Member (quotedPieces name, d) (before ++ (memberLine level (name, text)).toList ++ after) := by
  have hnone : Blanks [] := by decide
  have hvalue : Padded d ([' '] ++ text.toList ++ after) := .around (by decide) hd ha
  have hmember := Member.pair (hb.append (blanks_indent (level + 1)))
    (literal_quoteChars name.toList) hnone hvalue
  simpa [memberLine, quote, quotedPieces] using hmember

section Object

variable {α : Type} (name : α → String) {text : α → String} {document : α → Document}
  (hwritten : ∀ a, Written (document a) (text a).toList)
include hwritten

/-- The members of an object with white space in front and behind. The newline
behind a comma belongs to the next member. -/
theorem members_lines (level : Nat) {after : List Char} (ha : Blanks after) (a : α) (as : List α) :
    Members ((a :: as).map fun a => (quotedPieces (name a), document a))
      ('\n' :: [',', '\n'].intercalate
          ((a :: as).map fun a => (memberLine level (name a, text a)).toList) ++ after) := by
  have hnewline : Blanks ['\n'] := by decide
  induction as generalizing a with
  | nil =>
    have hlast := Members.last (member_memberLine level hnewline ha (name a) (hwritten a))
    simpa [List.intercalate] using hlast
  | cons b as ih =>
    have hnone : Blanks [] := by decide
    have hfirst := member_memberLine level hnewline hnone (name a) (hwritten a)
    simpa [List.intercalate_cons_cons] using Members.more hfirst (ih b)

theorem written_objectText (level : Nat) {as : List α} (has : as ≠ []) :
    Written (.object (as.map fun a => (quotedPieces (name a), document a)))
      (objectText level (as.map fun a => (name a, text a))).toList := by
  obtain ⟨a, as, rfl⟩ := List.exists_cons_of_ne_nil has
  have hnewline : Blanks ['\n'] := by decide
  have hobject :=
    Written.object (members_lines name hwritten level (hnewline.append (blanks_indent level)) a as)
  have htext : (objectText level ((a :: as).map fun a => (name a, text a))).toList =
      '\x7b' :: ('\n' :: [',', '\n'].intercalate
        ((a :: as).map fun a => (memberLine level (name a, text a)).toList) ++
        (['\n'] ++ (indent level).toList)) ++ ['\x7d'] := by
    unfold objectText
    simp only [String.toList_append, String.toList_intercalate, List.map_map]
    simp [memberLine, Function.comp_def]
  rw [htext]
  exact hobject

end Object

end TieredEngine.Json

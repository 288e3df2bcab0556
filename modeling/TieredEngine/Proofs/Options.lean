import TieredEngine.Options.Text
import TieredEngine.Proofs.Json.Reading
import TieredEngine.Proofs.Json.Writing
/-!
# Options survive being written and read

An object lists settings when its keys name fields, each with a value of its
kind, among members whose keys name none. Reading such an object replaces the
listed fields of the default options and no others, whatever the order, the
white space, the escapes in the keys and the values of the other members
(`parse?_replaces_listed`). The text of options lists all their fields, so it
is read as these options.
-/

namespace TieredEngine

/-- The document of a setting. Whole numbers have one spelling without a point
or an exponent. -/
def Setting.document : Setting → Json.Document
  | .count n => .number (toString n).toList
  | .flag b => .bool b

namespace Options

/-! ## Settings -/

theorem numeral_natText (n : ℕ) : Json.Numeral (toString n).toList := by
  have hwhole : Json.Whole (toString n).toList :=
    { digit := legible_number.chars n
      nonempty := by simp
      zero := natText_of_head?_zero }
  simpa using Json.Numeral.plain (.parts hwhole .absent .absent)

theorem written_setting (s : Setting) : Json.Written s.document s.text.toList := by
  rcases s with n | _ | _
  · exact .number (numeral_natText n)
  · exact .isFalse
  · exact .isTrue

theorem spelledNat_natText (n : ℕ) : spelledNat (toString n).toList = n := by
  have hspelled : ∀ ds, spelledNat ds = Nat.ofDigitChars 10 ds 0 := by
    intro ds
    simp only [spelledNat, Nat.ofDigitChars, Nat.mul_comm]
    rfl
  rw [hspelled, Nat.toString_eq_ofList_toDigits, String.toList_ofList,
    Nat.ofDigitChars_ten_toDigits]

theorem setting?_document (s : Setting) : setting? s.document = some s := by
  cases s with
  | count n =>
    have hall : (toString n).toList.all Json.isDigit := List.all_eq_true.2 (legible_number.chars n)
    rw [Setting.document, setting?, if_pos hall, spelledNat_natText]
  | flag b => rfl

/-! ## Fields -/

namespace Field

/-- The settings that a field has room for. -/
def Admits : Field → Setting → Prop
  | .autoCompile, .flag _ => True
  | .autoCompile, .count _ => False
  | _, .flag _ => False
  | .maxInliningDepth, .count n => n < 2 ^ 32
  | .maxDeopts, .count n => n < 2 ^ 32
  | _, .count n => n < 2 ^ 64

theorem admits_get (f : Field) (o : Options) : f.Admits (f.get o) := by
  cases f with
  | autoCompile => trivial
  | maxInliningDepth | maxDeopts => exact UInt32.toNat_lt _
  | _ => exact UInt64.toNat_lt _

theorem exists_word64 {n : ℕ} (h : n < 2 ^ 64) : ∃ w, word64 n = some w ∧ w.toNat = n :=
  ⟨.ofNat n, if_pos h, UInt64.toNat_ofNat_of_lt h⟩

theorem exists_word32 {n : ℕ} (h : n < 2 ^ 32) : ∃ w, word32 n = some w ∧ w.toNat = n :=
  ⟨.ofNat n, if_pos h, UInt32.toNat_ofNat_of_lt h⟩

/-- A setting that fits is stored, and the other fields stay. -/
theorem exists_put {f : Field} {s : Setting} (h : f.Admits s) (o : Options) :
    ∃ o', f.put o s = some o' ∧ ∀ g : Field, g.get o' = if g = f then s else g.get o := by
  cases s with
  | flag b =>
    cases f with
    | autoCompile => exact ⟨_, rfl, fun g => by cases g <;> rfl⟩
    | _ => exact h.elim
  | count n =>
    cases f with
    | autoCompile => exact h.elim
    | maxInliningDepth | maxDeopts =>
      obtain ⟨w, hw, hn⟩ := exists_word32 h
      exact ⟨_, congrArg (Option.map _) hw, fun g => by cases g <;> simp [get, hn]⟩
    | _ =>
      obtain ⟨w, hw, hn⟩ := exists_word64 h
      exact ⟨_, congrArg (Option.map _) hw, fun g => by cases g <;> simp [get, hn]⟩

theorem eq_of_get {o o' : Options} (h : ∀ f : Field, f.get o = f.get o') : o = o' := by
  have h1 := h .compilationThreshold
  have h2 := h .autoCompile
  have h3 := h .inliningMinHotness
  have h4 := h .maxInliningDepth
  have h5 := h .inliningBudget
  have h6 := h .canonicalizerIterations
  have h7 := h .maxDeopts
  have h8 := h .maxCallDepth
  simp only [get, Setting.count.injEq, Setting.flag.injEq, UInt64.toNat_inj, UInt32.toNat_inj] at *
  cases o
  cases o'
  simp_all

theorem ofName?_name (f : Field) : ofName? f.name = some f := by cases f <;> decide

theorem ofName?_eq_none {name : String} (h : ∀ f : Field, f.name ≠ name) : ofName? name = none := by
  simp [ofName?, List.find?_eq_none, h]

end Field

/-! ## Objects that list settings -/

/-- The settings that the members of an object list, in the order in which
they stand. A member whose key is no field's name lists nothing, and its value
is free. -/
inductive Lists : List (List Json.Piece × Json.Document) → List (Field × Setting) → Prop where
  | nil : Lists [] []
  | field {key : List Json.Piece} {f : Field} {s : Setting}
      {members : List (List Json.Piece × Json.Document)} {listed : List (Field × Setting)}
    (hkey : Json.textOf? key = some f.name) (h : Lists members listed) :
      Lists ((key, s.document) :: members) ((f, s) :: listed)
  | other {key : List Json.Piece} {name : String} {v : Json.Document}
      {members : List (List Json.Piece × Json.Document)} {listed : List (Field × Setting)}
    (hkey : Json.textOf? key = some name) (hname : ∀ f : Field, f.name ≠ name)
    (h : Lists members listed) : Lists ((key, v) :: members) listed

/-- The invariant of reading: no field met so far is listed again. -/
theorem Lists.readMembers {members : List (List Json.Piece × Json.Document)}
    {listed : List (Field × Setting)} (h : Lists members listed)
    (hnodup : (listed.map Prod.fst).Nodup) (hadmits : ∀ p ∈ listed, p.1.Admits p.2)
    {seen : List Field} (hseen : ∀ p ∈ listed, p.1 ∉ seen) (o : Options) :
    ∃ o', Options.readMembers members seen o = some o' ∧
      ∀ f : Field, f.get o' = (listed.lookup f).getD (f.get o) := by
  induction h generalizing seen o with
  | nil => exact ⟨o, rfl, fun f => rfl⟩
  | @field key f s members listed hkey h ih =>
    obtain ⟨hf, hnodup⟩ := List.nodup_cons.1 hnodup
    obtain ⟨hfits, hadmits⟩ := List.forall_mem_cons.1 hadmits
    obtain ⟨hfresh, hseen⟩ := List.forall_mem_cons.1 hseen
    have hlater : ∀ p ∈ listed, p.1 ∉ f :: seen := by
      intro p hp hmem
      rcases List.mem_cons.1 hmem with hpf | hmem
      · exact hf (List.mem_map.2 ⟨p, hp, hpf⟩)
      · exact hseen p hp hmem
    obtain ⟨o₁, hput, hget⟩ := Field.exists_put hfits o
    obtain ⟨o', hread, hgets⟩ := ih hnodup hadmits hlater o₁
    refine ⟨o', ?_, ?_⟩
    · simpa [Options.readMembers, hkey, Field.ofName?_name, setting?_document, hput, hread]
        using hfresh
    · intro g
      rw [hgets g, hget g, List.lookup_cons]
      by_cases hg : g = f
      · have hnone : listed.lookup f = none := by
          simp only [List.lookup_eq_none_iff, bne_iff_ne]
          exact fun p hp hfp => hf (List.mem_map.2 ⟨p, hp, hfp.symm⟩)
        simp [hg, hnone]
      · simp [hg, beq_eq_false_iff_ne.2 hg]
  | other hkey hname h ih =>
    obtain ⟨o', hread, hgets⟩ := ih hnodup hadmits hseen o
    refine ⟨o', ?_, hgets⟩
    simp [Options.readMembers, hkey, Field.ofName?_eq_none hname, hread]

theorem lists_written (o : Options) (fs : List Field) :
    Lists (fs.map fun f => (Json.quotedPieces f.name, (f.get o).document))
      (fs.map fun f => (f, f.get o)) := by
  induction fs with
  | nil => exact .nil
  | cons f fs ih => exact .field (Json.textOf?_quotedPieces f.name) ih

/-! ## Texts -/

theorem exists_parse? {text : String} {members : List (List Json.Piece × Json.Document)}
    {listed : List (Field × Setting)} (htext : Json.Padded (.object members) text.toList)
    (h : Lists members listed) (hnodup : (listed.map Prod.fst).Nodup)
    (hadmits : ∀ p ∈ listed, p.1.Admits p.2) :
    ∃ o, parse? text = some o ∧ ∀ f : Field, f.get o = (listed.lookup f).getD (f.get {}) := by
  obtain ⟨o, hread, hget⟩ := h.readMembers hnodup hadmits (fun _ _ => List.not_mem_nil) {}
  refine ⟨o, ?_, hget⟩
  rw [parse?, Json.parse_of_padded htext]
  exact hread

theorem padded_text (o : Options) :
    Json.Padded (.object (Field.all.map fun f => (Json.quotedPieces f.name, (f.get o).document)))
      o.text.toList := by
  have hnone : Json.Blanks [] := by decide
  have hwritten := Json.written_objectText Field.name (fun f => written_setting (f.get o)) 0
    (show Field.all ≠ [] by decide)
  simpa [text] using Json.Padded.around hnone hwritten hnone

/-- Options are read back from their text, and an object that lists some
fields once each, with settings that fit them, is read as the default options
with these fields replaced. -/
theorem parse?_replaces_listed :
    (∀ o : Options, parse? o.text = some o) ∧
    ∀ (text : String) (members : List (List Json.Piece × Json.Document))
      (listed : List (Field × Setting)),
      Json.Padded (.object members) text.toList → Lists members listed →
      (listed.map Prod.fst).Nodup → (∀ p ∈ listed, p.1.Admits p.2) →
      ∃ o, parse? text = some o ∧ ∀ f : Field, f.get o = (listed.lookup f).getD (f.get {}) := by
  refine ⟨fun o => ?_, fun text members listed => exists_parse?⟩
  have hadmits : ∀ p ∈ Field.all.map fun f => (f, f.get o), p.1.Admits p.2 := by
    intro p hp
    obtain ⟨f, -, rfl⟩ := List.mem_map.1 hp
    exact f.admits_get o
  obtain ⟨o', hparse, hget⟩ :=
    exists_parse? (padded_text o) (lists_written o Field.all) (by simp [Field.all]) hadmits
  have ho : o' = o := by
    refine Field.eq_of_get fun f => ?_
    rw [hget f]
    cases f <;> rfl
  rw [hparse, ho]

/-- Two fields out of order and with odd white space, the first under a key
with an escape, and a member that is no field. -/
theorem parse?_deopts_and_compile :
    parse?
        " \x7b\"note\":[null, \x7b\x7d],\n\"\\u006dax_deopts\" : 12,\"auto_compile\":false\x7d\t" =
      some { maxDeopts := 12, autoCompile := false } := by
  have hnone : Json.Blanks [] := by decide
  have hspace : Json.Blanks [' '] := by decide
  have hnewline : Json.Blanks ['\n'] := by decide
  have htab : Json.Blanks ['\t'] := by decide
  have hnote := Json.Member.pair hnone (Json.literal_quoteChars "note".toList) hnone
    (.around hnone (.array
    (.more (.around hnone .null hnone) (.last (.around hspace (.emptyObject hnone) hnone)))) hnone)
  have hdeopts := Json.Member.pair hnewline
    (.cons (.unit (show Json.HexDigit '0' 0 by decide) (show Json.HexDigit '0' 0 by decide)
      (show Json.HexDigit '6' 6 by decide)
      (show Json.HexDigit 'd' 13 by decide)) (Json.literal_quoteChars "ax_deopts".toList)) hspace
    (.around hspace (written_setting (.count 12)) hnone)
  have hcompile := Json.Member.pair hnone (Json.literal_quoteChars "auto_compile".toList) hnone
    (.around hnone (written_setting (.flag false)) hnone)
  have hpadded :=
    Json.Padded.around hspace (.object (.more hnote (.more hdeopts (.last hcompile)))) htab
  have hlists := Lists.other (v := .array [.null, .object []]) (Json.textOf?_quotedPieces "note")
    (by rintro (_ | _) <;> decide)
    (.field (f := .maxDeopts) (s := .count 12)
      (show Json.textOf?
          (.unit 0x6d :: Json.quotedPieces "ax_deopts") = some "max_deopts" by decide)
      (.field (f := .autoCompile) (s := .flag false)
        (Json.textOf?_quotedPieces "auto_compile") .nil))
  obtain ⟨o, hparse, hget⟩ := parse?_replaces_listed.2
    " \x7b\"note\":[null, \x7b\x7d],\n\"\\u006dax_deopts\" : 12,\"auto_compile\":false\x7d\t"
    _ _ (Eq.subst (motive := Json.Padded _) (by decide) hpadded) hlists (by decide)
    (by simp [Field.Admits])
  have ho : o = { maxDeopts := 12, autoCompile := false } := by
    refine Field.eq_of_get fun f => (hget f).trans ?_
    cases f <;> rfl
  rw [hparse, ho]

end Options

end TieredEngine

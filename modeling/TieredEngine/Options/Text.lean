import TieredEngine.Options.Basic
import TieredEngine.Json.Document
import TieredEngine.Json.Layout
/-!
# Options as text

Options are written as a JSON object with one field per line, in a fixed
order, and read from an object or an array. In an object, missing fields keep
their defaults, unknown ones are ignored and no known field may come twice. An
array gives the fields in order and may stop early. A count is a plain decimal
number that fits the field.
-/

namespace TieredEngine

/-- The value of one option. -/
inductive Setting where
  | count (n : Nat)
  | flag (b : Bool)
deriving DecidableEq

/-- A setting as text. -/
def Setting.text : Setting → String
  | .count n => toString n
  | .flag true => "true"
  | .flag false => "false"

namespace Options

/-- The options, one by one. -/
inductive Field where
  | compilationThreshold
  | autoCompile
  | inliningMinHotness
  | maxInliningDepth
  | inliningBudget
  | canonicalizerIterations
  | maxDeopts
  | maxCallDepth
deriving DecidableEq

namespace Field

/-- Every field, in the order in which they are written. -/
def all : List Field :=
  [.compilationThreshold, .autoCompile, .inliningMinHotness, .maxInliningDepth, .inliningBudget,
   .canonicalizerIterations, .maxDeopts, .maxCallDepth]

/-- The name of a field. -/
def name : Field → String
  | .compilationThreshold => "compilation_threshold"
  | .autoCompile => "auto_compile"
  | .inliningMinHotness => "inlining_min_hotness"
  | .maxInliningDepth => "max_inlining_depth"
  | .inliningBudget => "inlining_budget"
  | .canonicalizerIterations => "canonicalizer_iterations"
  | .maxDeopts => "max_deopts"
  | .maxCallDepth => "max_call_depth"

/-- The field with a name. -/
def ofName? (name : String) : Option Field := all.find? fun f => f.name = name

/-- The setting of a field. -/
def get (f : Field) (o : Options) : Setting :=
  match f with
  | .compilationThreshold => .count o.compilationThreshold.toNat
  | .autoCompile => .flag o.autoCompile
  | .inliningMinHotness => .count o.inliningMinHotness.toNat
  | .maxInliningDepth => .count o.maxInliningDepth.toNat
  | .inliningBudget => .count o.inliningBudget.toNat
  | .canonicalizerIterations => .count o.canonicalizerIterations.toNat
  | .maxDeopts => .count o.maxDeopts.toNat
  | .maxCallDepth => .count o.maxCallDepth.toNat

/-- A count as a 64-bit word, if it fits. -/
def word64 (n : Nat) : Option UInt64 := if n < UInt64.size then some (UInt64.ofNat n) else none

/-- A count as a 32-bit word, if it fits. -/
def word32 (n : Nat) : Option UInt32 := if n < UInt32.size then some (UInt32.ofNat n) else none

/-- Change the setting of a field, if the setting fits it. -/
def put (f : Field) (o : Options) (s : Setting) : Option Options :=
  match f, s with
  | .compilationThreshold, .count n => (word64 n).map fun w => { o with compilationThreshold := w }
  | .autoCompile, .flag b => some { o with autoCompile := b }
  | .inliningMinHotness, .count n => (word64 n).map fun w => { o with inliningMinHotness := w }
  | .maxInliningDepth, .count n => (word32 n).map fun w => { o with maxInliningDepth := w }
  | .inliningBudget, .count n => (word64 n).map fun w => { o with inliningBudget := w }
  | .canonicalizerIterations, .count n =>
    (word64 n).map fun w => { o with canonicalizerIterations := w }
  | .maxDeopts, .count n => (word32 n).map fun w => { o with maxDeopts := w }
  | .maxCallDepth, .count n => (word64 n).map fun w => { o with maxCallDepth := w }
  | _, _ => none

end Field

/-! ## Writing -/

/-- The options as indented JSON text. -/
def text (o : Options) : String :=
  Json.objectText 0 (Field.all.map fun f => (f.name, (f.get o).text))

/-! ## Reading -/

/-- The number that a run of decimal digits spells. -/
def spelledNat (ds : List Char) : Nat := ds.foldl (fun n d => n * 10 + (d.toNat - 48)) 0

/-- The setting that a document holds: a truth value, or a number of digits
only. -/
def setting? : Json.Document → Option Setting
  | .bool b => some (.flag b)
  | .number spelling =>
    if spelling.all Json.isDigit then some (.count (spelledNat spelling)) else none
  | _ => none

/-- Read the members of an object one after the other; `seen` holds the fields
met so far. -/
def readMembers :
    List (List Json.Piece × Json.Document) → (seen : List Field) → Options → Option Options
  | [], _, o => some o
  | (key, v) :: rest, seen, o => do
    match Field.ofName? (← Json.textOf? key) with
    | none => readMembers rest seen o
    | some f =>
      if seen.contains f then none
      else readMembers rest (f :: seen) (← f.put o (← setting? v))

/-- Read the items of an array into the fields, in order. -/
def readItems : List Json.Document → List Field → Options → Option Options
  | [], _, o => some o
  | _ :: _, [], _ => none
  | v :: rest, f :: fields, o => do readItems rest fields (← f.put o (← setting? v))

/-- The options that a document holds. -/
def ofDocument? : Json.Document → Option Options
  | .object members => readMembers members [] {}
  | .array items => readItems items Field.all {}
  | _ => none

/-- Read options from JSON text. -/
def parse? (text : String) : Option Options := (Json.parse text).bind ofDocument?

end Options

end TieredEngine

/-!
# Guest values

The values a guest program computes with and their types. `Value.text` is the
one rendering of a value, used in error messages and in the text of graphs.
-/

namespace TieredEngine

/-- The type of a guest value. -/
inductive ValueType where
  | int
  | bool
  | null
deriving DecidableEq

/-- The name of a type in messages. -/
def ValueType.text : ValueType → String
  | .int => "Int"
  | .bool => "Bool"
  | .null => "Null"

/-- A guest value. Integers are 64-bit words that wrap around. -/
inductive Value where
  | int (n : Int64)
  | bool (b : Bool)
  | null
deriving DecidableEq

namespace Value

instance : Inhabited Value := ⟨.null⟩

/-- The type of a value. -/
def type : Value → ValueType
  | .int _ => .int
  | .bool _ => .bool
  | .null => .null

/-- The integer, if the value is one. -/
def int? : Value → Option Int64
  | .int n => some n
  | _ => none

/-- The truth value, if the value is one. -/
def bool? : Value → Option Bool
  | .bool b => some b
  | _ => none

/-- Whether the value is null. -/
def isNull (v : Value) : Bool := v = .null

/-- A value as text: a decimal number, a truth value or `null`. -/
def text : Value → String
  | .int n => toString n.toInt
  | .bool true => "true"
  | .bool false => "false"
  | .null => "null"

end Value

/-- Whether a value has this type. -/
def ValueType.admits (t : ValueType) (v : Value) : Bool := v.type = t

end TieredEngine

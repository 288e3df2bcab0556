import TieredEngine.Json.Quoted
/-!
# Indented JSON text

Arrays and objects with one member per line, two spaces deeper than what
encloses them.
-/

namespace TieredEngine.Json

/-- Indent by two spaces per level. -/
def indent (level : Nat) : String := String.ofList (List.replicate (2 * level) ' ')

/-- An array with one item per line; an empty one is written on the spot. -/
def arrayText (level : Nat) (items : List String) : String :=
  if items.isEmpty then "[]"
  else
    "[\n" ++ ",\n".intercalate (items.map (indent (level + 1) ++ ·)) ++ "\n" ++ indent level ++ "]"

/-- An object with one member per line. -/
def objectText (level : Nat) (members : List (String × String)) : String :=
  "\x7b\n" ++
    ",\n".intercalate (members.map fun m => indent (level + 1) ++ quote m.1 ++ ": " ++ m.2) ++
    "\n" ++ indent level ++ "\x7d"

end TieredEngine.Json

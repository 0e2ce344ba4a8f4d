/-
JSON values as texts.

`compact` writes a value on one line without spaces.  `pretty` gives every item and
every entry a line of its own, two spaces deeper than the brackets around it; empty
brackets stay together.  Text outside ASCII is written as it is.
-/
import CyclePatterns.Json.Basic

namespace CyclePatterns.Json

/-- A character inside a JSON string. -/
def escapedChar (c : Char) : List Char :=
  match c with
  | '"' => ['\\', '"']
  | '\\' => ['\\', '\\']
  | '\n' => ['\\', 'n']
  | '\t' => ['\\', 't']
  | '\r' => ['\\', 'r']
  | c =>
    if c.toNat = 8 then ['\\', 'b']
    else if c.toNat = 12 then ['\\', 'f']
    else if c.toNat < 0x20 then
      ['\\', 'u', '0', '0', Nat.digitChar (c.toNat / 16), Nat.digitChar (c.toNat % 16)]
    else [c]

/-- A text as a JSON string. -/
def stringText (s : String) : String :=
  String.ofList ('"' :: s.toList.flatMap escapedChar ++ ['"'])

/-- The start of a new line inside `depth` brackets. -/
def newLine (depth : Nat) : String :=
  String.ofList ('\n' :: List.replicate (2 * depth) ' ')

mutual
/-- The value on one line. -/
def compact : Json → String
  | null => "null"
  | bool b => if b then "true" else "false"
  | number n => n.text
  | string s => stringText s
  | array items => "[" ++ ",".intercalate (compactItems items) ++ "]"
  | object entries => "\x7b" ++ ",".intercalate (compactEntries entries) ++ "\x7d"
termination_by structural j => j

/-- Each item on one line. -/
def compactItems : List Json → List String
  | [] => []
  | item :: rest => compact item :: compactItems rest
termination_by structural js => js

/-- Each entry on one line. -/
def compactEntries : List (String × Json) → List String
  | [] => []
  | (key, value) :: rest => (stringText key ++ ":" ++ compact value) :: compactEntries rest
termination_by structural es => es
end

/-- Written items between brackets, each on its own line. -/
def bracketed (opening closing : String) (depth : Nat) (items : List String) : String :=
  if items.isEmpty then opening ++ closing
  else
    opening ++ ",".intercalate (items.map (newLine (depth + 1) ++ ·)) ++ newLine depth ++ closing

mutual
/-- The value over several lines, inside `depth` brackets. -/
def prettyAt (depth : Nat) : Json → String
  | null => "null"
  | bool b => if b then "true" else "false"
  | number n => n.text
  | string s => stringText s
  | array items => bracketed "[" "]" depth (prettyItems (depth + 1) items)
  | object entries => bracketed "\x7b" "\x7d" depth (prettyEntries (depth + 1) entries)
termination_by structural j => j

/-- Each item over several lines. -/
def prettyItems (depth : Nat) : List Json → List String
  | [] => []
  | item :: rest => prettyAt depth item :: prettyItems depth rest
termination_by structural js => js

/-- Each entry over several lines. -/
def prettyEntries (depth : Nat) : List (String × Json) → List String
  | [] => []
  | (key, value) :: rest =>
    (stringText key ++ ": " ++ prettyAt depth value) :: prettyEntries depth rest
termination_by structural es => es
end

/-- The value over several lines. -/
def pretty (j : Json) : String :=
  prettyAt 0 j

end CyclePatterns.Json

/-
Scales by name.

A scale name may begin with a tonic.  What is left names the type of scale, whose
degrees are intervals from the tonic.  A scale with seven degrees has one for each
letter; the chromatic scale has the usual spelling of every semitone; five more are
given with their spelling.
-/
import CyclePatterns.Theory.Mode
import CyclePatterns.Theory.Pitch

namespace CyclePatterns.Scale

/-! ### Tonic and type -/

/-- A text up to its first space or colon, and what follows that. -/
def split? : List Char → Option (List Char × List Char)
  | [] => none
  | c :: r =>
    if c = ' ' || c = ':' then some ([], r)
    else (split? r).map fun (front, back) => (c :: front, back)

/-- A scale name as its tonic and its type.  A name that does not begin with a pitch is
all type. -/
def tokenize (name : String) : Option Pitch × String :=
  let cs := Text.trim name.toList
  let (front, back) := (split? cs).getD (cs, [])
  match Pitch.ofChars? front with
  | some tonic => (some tonic, String.ofList (Text.trim back))
  | none => (none, String.ofList cs)

/-! ### Degrees -/

/-- A name in small letters, with one space between its words. -/
def normalize (name : String) : String :=
  " ".intercalate ((Text.words name.toList).map fun w => String.ofList (w.map Char.toLower))

/-- Intervals by letter steps and semitones. -/
def degrees (parts : List (Int32 × Int32)) : List Interval :=
  parts.map fun (steps, semitones) => ⟨steps, semitones⟩

/-- Scales that are given with their spelling. -/
def spelled : List (List String × List Interval) :=
  [(["major pentatonic", "pentatonic major", "pent maj"],
    degrees [(0, 0), (1, 2), (2, 4), (4, 7), (5, 9)]),
   (["minor pentatonic", "pentatonic minor", "pent min"],
    degrees [(0, 0), (2, 3), (3, 5), (4, 7), (6, 10)]),
   (["blues", "minor blues"],
    degrees [(0, 0), (2, 3), (3, 5), (4, 6), (4, 7), (6, 10)]),
   (["major blues"],
    degrees [(0, 0), (1, 2), (2, 3), (2, 4), (4, 7), (5, 9)]),
   (["whole tone", "wholetone"],
    degrees [(0, 0), (1, 2), (2, 4), (3, 6), (4, 8), (6, 10)])]

/-- All twelve semitones. -/
def chromatic : List Interval :=
  (List.range 12).map fun (n : Nat) => Interval.ofSemitones (Int32.ofNat n)

/-- The degrees at a number of semitones each: with seven of them there is one for each
letter, otherwise they have their usual spelling. -/
def ofOffsets (offsets : List Nat) : List Interval :=
  if offsets.length = 7 then offsets.mapIdx fun i n => ⟨Int32.ofNat i, Int32.ofNat n⟩
  else offsets.map fun (n : Nat) => Interval.ofSemitones (Int32.ofNat n)

/-- The degrees of a mode. -/
def ofMode (m : Mode) : List Interval :=
  ofOffsets m.offsets

/-- The mode that a type names: the one it is recognised as, if it is one of its names. -/
def mode? (type : String) : Option Mode := do
  let m ← Mode.recognise type.toList
  if m.names.contains (normalize type) then some m else none

/-- The intervals of a type of scale, in rising order.  A type that is not known, or has
no degrees, is reported without the white space around it, unless it has nothing else. -/
def intervals (type : String) : Except TheoryError (List Interval) :=
  let name := normalize type
  if name = "" then .error (.unknownScale type)
  else if name = "chromatic" then .ok chromatic
  else
    match spelled.find? fun (names, _) => names.contains name with
    | some (_, intervals) => .ok intervals
    | none =>
      match (mode? type).map ofMode with
      | some (first :: rest) => .ok (first :: rest)
      | _ => .error (.unknownScale (String.ofList (Text.trim type.toList)))

end CyclePatterns.Scale

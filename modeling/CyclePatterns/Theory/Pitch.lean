/-
Spelled pitches.

A pitch is a letter, an alteration in semitones and perhaps an octave; without one it
stands for a pitch class and stays one when it is moved.  Moving a pitch moves its
letter by the steps of the interval and lets the alteration take up whatever the
semitones ask for.
-/
import CyclePatterns.Text.Blank
import CyclePatterns.Theory.Error
import CyclePatterns.Theory.Interval

namespace CyclePatterns

/-- A note name. -/
structure Pitch where
  letter : Letter
  /-- Sharps count up and flats down. -/
  alteration : Int32
  octave : Option Int32
deriving DecidableEq, Repr

namespace Pitch

/-- Middle C. -/
def c4 : Pitch := ⟨.c, 0, some 4⟩

/-- Semitones above the C of the same octave. -/
def semitones (p : Pitch) : Int :=
  p.letter.semitones + p.alteration.toInt

/-- The semitones as a word.  Unlike all that moving a pitch computes this sum is not
checked: it wraps round if it does not fit. -/
def chroma (p : Pitch) : Int :=
  (Int32.ofInt p.semitones).toInt

/-- An octave raised by a number of octaves, if it fits; a pitch without one has none. -/
def raise? (octave : Option Int32) (octaves : Int) : Option (Option Int32) :=
  match octave with
  | some o => (narrow (o.toInt + octaves)).map some
  | none => some none

/-- The pitch moved by an interval, unless something on the way to its octave and its
alteration does not fit into a word. -/
def transpose (p : Pitch) (i : Interval) : Option Pitch := do
  let moved ← narrow (p.letter.index + i.steps.toInt)
  let letter := Letter.fromC moved.toInt
  let shift := moved.toInt / 7
  let target ← narrow (p.chroma + i.semitones.toInt)
  let natural ← narrow (shift * 12)
  let natural ← narrow (natural.toInt + letter.semitones)
  let octave ← raise? p.octave shift
  let alteration ← narrow (target.toInt - natural.toInt)
  return ⟨letter, alteration, octave⟩

/-! ### Names -/

/-- What one accidental adds to the alteration. -/
def accidental? (c : Char) : Option Int :=
  match c with
  | '#' => some 1
  | 'x' => some 2
  | 'b' => some (-1)
  | _ => none

/-- The alteration that a run of equal accidentals makes, and what follows the run. -/
def accidentals (cs : List Char) : Int × List Char :=
  match cs with
  | [] => (0, [])
  | c :: _ =>
    match accidental? c with
    | some a => (a * (cs.takeWhile (· == c)).length, cs.dropWhile (· == c))
    | none => (0, cs)

/-- The octave at the end of a name: nothing, or an integer without a plus. -/
def octave? (cs : List Char) : Option (Option Int32) :=
  match cs with
  | [] => some none
  | '+' :: _ => none
  | _ => do
    let n ← Text.signedDigits? cs
    return some (← narrow n)

/-- Reads a note name; white space around it does not count.  The accidentals are counted in
a word, and like the semitones this count is not checked. -/
def ofChars? (cs : List Char) : Option Pitch :=
  match Text.trim cs with
  | [] => none
  | c :: r => do
    let letter ← Letter.ofChar? c
    let (alteration, rest) := accidentals r
    let octave ← octave? rest
    return ⟨letter, Int32.ofInt alteration, octave⟩

/-- Reads a note name from a text. -/
def ofText (s : String) : Except TheoryError Pitch :=
  match ofChars? s.toList with
  | some p => .ok p
  | none => .error (.invalidNote s)

/-- The name of a pitch. -/
def name (p : Pitch) : String :=
  let a := p.alteration.toInt
  String.ofList
      (p.letter.toChar :: List.replicate a.natAbs (if 0 ≤ a then '#' else 'b')) ++
    match p.octave with
    | some o => Text.integer o.toInt
    | none => ""

end Pitch

end CyclePatterns

/-
Modes and the names that they are recognised by.

A mode is found by looking for one of its names in a text, most of them only at its
front.  The names are tried in a fixed order and the first that is found decides, so a
text may be recognised that merely begins like the name of a mode; whether it is a name
is a second question, which `Mode.names` answers.

How a name is looked for and which notes a mode has are rules of a general library of
scales, which the lookup of scales only calls.  They have a section of their own; the
names, and the degrees that are made of the notes, are outside of it.
-/
import CyclePatterns.Text.Blank

namespace CyclePatterns

/-- The modes with seven degrees. -/
inductive Mode where
  | ionian
  | dorian
  | phrygian
  | lydian
  | mixolydian
  | aeolian
  | locrian
  | harmonicMinor
  | melodicMinor
deriving DecidableEq, Repr

namespace Mode

/-! ### Names -/

/-- The names of a mode in small letters. -/
def names : Mode → List String
  | ionian => ["major", "maj", "ionian", "m"]
  | aeolian => ["minor", "min", "aeolian", "m"]
  | dorian => ["dorian"]
  | phrygian => ["phrygian"]
  | lydian => ["lydian"]
  | mixolydian => ["mixolydian"]
  | locrian => ["locrian"]
  | harmonicMinor => ["harmonic minor", "harmonicminor", "har minor"]
  | melodicMinor => ["melodic minor", "melodicminor", "mel minor"]

/-! ### The general library of scales

The lookup of scales calls two of these definitions: `recognise`, for the mode that a text
names, and `notes`, for the semitones of a mode.  Of the notes results use `zero_mem_notes`
only, that a mode has its first note, so what they say of degrees holds for any `distances`.
Of `recognise` they use which names it finds and with what white space between their words,
and Proofs/Theory/ModeNames is the one module that opens its definition.
-/

section Library

/-- The text begins with a word, capitals or not. -/
def beginsWith (word : String) (cs : List Char) : Bool :=
  word.toList.isPrefixOf (cs.map Char.toLower)

/-- The text begins with one word, white space, and another word. -/
def beginsWithPair (first second : String) (cs : List Char) : Bool :=
  beginsWith first cs &&
    match cs.drop first.length with
    | [] => false
    | c :: r => Text.isBlank c && beginsWith second (Text.trimFront r)

/-- A test of the front of a text succeeds somewhere in it. -/
def somewhere (test : List Char → Bool) : List Char → Bool
  | [] => test []
  | c :: r => test (c :: r) || somewhere test r

/-- The word stands somewhere in a text, capitals or not. -/
def occurs (word : String) : List Char → Bool :=
  somewhere (beginsWith word)

/-- Two words stand somewhere in a text with white space between them. -/
def occursPair (first second : String) : List Char → Bool :=
  somewhere (beginsWithPair first second)

/-- The text begins with this very letter, and nothing or white space follows it. -/
def isLetter (letter : Char) : List Char → Bool
  | [] => false
  | c :: r =>
    c == letter &&
      match r with
      | [] => true
      | d :: _ => Text.isBlank d

/-- The mode that a text is recognised as: `M` stands for major and `m` for minor. -/
def recognise (cs : List Char) : Option Mode :=
  let cs := Text.trim cs
  if isLetter 'M' cs || beginsWith "maj" cs || beginsWith "ionian" cs then some ionian
  else if occurs "har minor" cs || occurs "harmonicminor" cs ||
      occursPair "harmonic" "minor" cs then some harmonicMinor
  else if occurs "mel minor" cs || occurs "melodicminor" cs ||
      occursPair "melodic" "minor" cs then some melodicMinor
  else if isLetter 'm' cs || beginsWith "min" cs || beginsWith "aeolian" cs then some aeolian
  else if beginsWith "dorian" cs then some dorian
  else if beginsWith "locrian" cs then some locrian
  else if beginsWith "mixolydian" cs then some mixolydian
  else if beginsWith "phrygian" cs then some phrygian
  else if beginsWith "lydian" cs then some lydian
  else none

/-- The semitones from one note to the next, over an octave. -/
def distances : Mode → List Int
  | harmonicMinor => [2, 1, 2, 2, 1, 3, 1]
  | melodicMinor => [2, 1, 2, 2, 2, 2, 1]
  | ionian => major.rotateLeft 0
  | dorian => major.rotateLeft 1
  | phrygian => major.rotateLeft 2
  | lydian => major.rotateLeft 3
  | mixolydian => major.rotateLeft 4
  | aeolian => major.rotateLeft 5
  | locrian => major.rotateLeft 6
where
  /-- The distances of the major scale, of which six more modes are rotations. -/
  major : List Int := [2, 2, 1, 2, 2, 2, 1]

/-- The running sums of a list, from `start` to the sum of all. -/
def runningSums (start : Int) : List Int → List Int
  | [] => [start]
  | d :: rest => start :: runningSums (start + d) rest

/-- The notes of a mode in semitones above the first, which comes again at the end, an
octave higher. -/
def notes (m : Mode) : List Int :=
  runningSums 0 m.distances

/-- A mode has its first note. -/
theorem zero_mem_notes (m : Mode) : 0 ∈ m.notes := by
  rw [notes]
  cases m.distances <;> exact List.mem_cons_self

end Library

/-! ### Degrees -/

/-- The semitones within an octave that the notes have, each once and in rising order. -/
def offsetsOf (notes : List Int) : List Nat :=
  (List.range 12).filter fun n => notes.any fun note => note % 12 == n

/-- The semitones from the first degree to each. -/
def offsets (m : Mode) : List Nat :=
  offsetsOf m.notes

end Mode

end CyclePatterns

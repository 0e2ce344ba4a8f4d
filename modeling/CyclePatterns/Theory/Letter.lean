/-
Letters of notes.

Seven letters make an octave.  Counted from C they have an index, and going on past B
starts over at C.
-/

namespace CyclePatterns

/-- The letters in order. -/
inductive Letter where
  | c
  | d
  | e
  | f
  | g
  | a
  | b
deriving DecidableEq, Repr

namespace Letter

/-- How many letters a letter is above C. -/
def index : Letter → Nat
  | c => 0
  | d => 1
  | e => 2
  | f => 3
  | g => 4
  | a => 5
  | b => 6

/-- The letter that is a number of letters above C, or below it. -/
def fromC (steps : Int) : Letter :=
  match (steps % 7).toNat with
  | 0 => c
  | 1 => d
  | 2 => e
  | 3 => f
  | 4 => g
  | 5 => a
  | _ => b

/-- Semitones above C. -/
def semitones : Letter → Int
  | c => 0
  | d => 2
  | e => 4
  | f => 5
  | g => 7
  | a => 9
  | b => 11

/-- The capital that names a letter. -/
def toChar : Letter → Char
  | c => 'C'
  | d => 'D'
  | e => 'E'
  | f => 'F'
  | g => 'G'
  | a => 'A'
  | b => 'B'

/-- The letter that a character names, in either case. -/
def ofChar? (ch : Char) : Option Letter :=
  match ch.toUpper with
  | 'C' => some c
  | 'D' => some d
  | 'E' => some e
  | 'F' => some f
  | 'G' => some g
  | 'A' => some a
  | 'B' => some b
  | _ => none

/-! ### Small facts -/

theorem index_lt (l : Letter) : l.index < 7 := by
  cases l <;> decide

theorem semitones_nonneg (l : Letter) : 0 ≤ l.semitones := by
  cases l <;> decide

theorem semitones_le (l : Letter) : l.semitones ≤ 11 := by
  cases l <;> decide

theorem fromC_index (l : Letter) : fromC l.index = l := by
  cases l <;> rfl

theorem eq_of_index {k l : Letter} (h : k.index = l.index) : k = l := by
  rw [← fromC_index k, h, fromC_index]

theorem index_fromC (steps : Int) : ((fromC steps).index : Int) = steps % 7 := by
  have hlow := Int.emod_nonneg steps (by decide : (7 : Int) ≠ 0)
  have hhigh := Int.emod_lt_of_pos steps (by decide : (0 : Int) < 7)
  have hcases : steps % 7 = 0 ∨ steps % 7 = 1 ∨ steps % 7 = 2 ∨ steps % 7 = 3 ∨
      steps % 7 = 4 ∨ steps % 7 = 5 ∨ steps % 7 = 6 := by
    omega
  rcases hcases with h | h | h | h | h | h | h <;> rw [fromC, h] <;> rfl

/-- Seven letters on, the letters start over. -/
theorem fromC_congr {a b : Int} (h : a % 7 = b % 7) : fromC a = fromC b := by
  rw [fromC, fromC, h]

end Letter

end CyclePatterns

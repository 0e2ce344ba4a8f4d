/-
Pitches without bounds.

A pitch has words of 32 bits for its alteration and its octave.  Here are pitches that have
integers in their place, so that each of them can be moved by any number of letters and of
semitones.  Letters count on from octave to octave, and so do semitones: moving adds to both
counts and to nothing else, hence moving twice is moving by the sums, and what is moved there
and back is what it was.
-/
import CyclePatterns.Theory.Pitch

namespace CyclePatterns

/-- A pitch whose alteration and octave have no bounds. -/
@[ext]
structure Spelling where
  letter : Letter
  alteration : Int
  octave : Option Int
deriving DecidableEq, Repr

namespace Spelling

/-- Semitones above the C of the same octave. -/
def semitones (s : Spelling) : Int :=
  s.letter.semitones + s.alteration

/-- The octaves from the C below a pitch to the C below the letter it is moved to. -/
def shift (steps : Int) (s : Spelling) : Int :=
  (s.letter.index + steps) / 7

/-- The pitch a number of letters and of semitones away. -/
def moved (steps semitones : Int) (s : Spelling) : Spelling :=
  let letter := Letter.fromC (s.letter.index + steps)
  ⟨letter, s.semitones + semitones - (12 * s.shift steps + letter.semitones),
    s.octave.map (· + s.shift steps)⟩

/-- The same pitch a number of octaves away. -/
def raised (octaves : Int) (s : Spelling) : Spelling :=
  { s with octave := s.octave.map (· + octaves) }

variable {s t : Spelling} {a b c d k : Int}

/-! ### What moving adds to -/

theorem letter_moved : (s.moved a b).letter = Letter.fromC (s.letter.index + a) := rfl

theorem index_moved : ((s.moved a b).letter.index : Int) = (s.letter.index + a) % 7 :=
  Letter.index_fromC _

theorem octave_moved : (s.moved a b).octave = s.octave.map (· + s.shift a) := rfl

theorem semitones_moved : (s.moved a b).semitones = s.semitones + b - 12 * s.shift a := by
  simp only [semitones, moved]
  omega

/-! ### Moving as an action -/

/-- The semitones decide on the alteration. -/
theorem eq_of_semitones (hletter : s.letter = t.letter) (hsemitones : s.semitones = t.semitones)
    (hoctave : s.octave = t.octave) : s = t := by
  refine Spelling.ext hletter ?_ hoctave
  rw [semitones, semitones, hletter] at hsemitones
  exact Int.add_left_cancel hsemitones

theorem shift_moved : (s.moved a b).shift c = s.shift (a + c) - s.shift a := by
  simp only [shift, index_moved]
  omega

theorem moved_moved : (s.moved a b).moved c d = s.moved (a + c) (b + d) := by
  refine eq_of_semitones ?_ ?_ ?_
  · show Letter.fromC ((s.moved a b).letter.index + c) = Letter.fromC (s.letter.index + (a + c))
    rw [index_moved]
    exact Letter.fromC_congr (by omega)
  · rw [semitones_moved, semitones_moved, semitones_moved, shift_moved]
    omega
  · rw [octave_moved, octave_moved, octave_moved, shift_moved, Option.map_map]
    refine Option.map_congr fun o _ => ?_
    simp only [Function.comp_apply]
    omega

theorem shift_zero : s.shift 0 = 0 := by
  have hindex := s.letter.index_lt
  rw [shift]
  omega

theorem moved_zero : s.moved 0 0 = s := by
  refine eq_of_semitones ?_ ?_ ?_
  · rw [letter_moved, Int.add_zero, Letter.fromC_index]
  · rw [semitones_moved, shift_zero]
    omega
  · rw [octave_moved, shift_zero]
    cases s.octave with
    | none => rfl
    | some o => exact congrArg some (Int.add_zero o)

/-- Seven letters and twelve semitones make an octave. -/
theorem moved_octaves : s.moved (a + 7 * k) (b + 12 * k) = (s.moved a b).raised k := by
  have hshift : s.shift (a + 7 * k) = s.shift a + k := by
    rw [shift, shift]
    omega
  refine eq_of_semitones ?_ ?_ ?_
  · show Letter.fromC (s.letter.index + (a + 7 * k)) = Letter.fromC (s.letter.index + a)
    exact Letter.fromC_congr (by omega)
  · show _ = (s.moved a b).semitones
    rw [semitones_moved, semitones_moved, hshift]
    omega
  · show _ = (s.moved a b).octave.map (· + k)
    rw [octave_moved, octave_moved, hshift, Option.map_map]
    refine Option.map_congr fun o _ => ?_
    simp only [Function.comp_apply]
    omega

end Spelling

namespace Pitch

/-- A pitch with integers in place of its words. -/
def spelling (p : Pitch) : Spelling :=
  ⟨p.letter, p.alteration.toInt, p.octave.map Int32.toInt⟩

theorem spelling_injective {p q : Pitch} (h : p.spelling = q.spelling) : p = q := by
  obtain ⟨letter, alteration, octave⟩ := p
  obtain ⟨letter', alteration', octave'⟩ := q
  simp only [spelling, Spelling.mk.injEq] at h
  obtain ⟨rfl, halteration, hoctave⟩ := h
  rw [Int32.toInt_inj.mp halteration,
    Option.map_injective (fun _ _ => Int32.toInt_inj.mp) hoctave]

theorem octave_moved_spelling (p : Pitch) (steps semitones : Int) :
    (p.spelling.moved steps semitones).octave
      = p.octave.map fun o => o.toInt + p.spelling.shift steps :=
  Option.map_map _ _ _

/-- In an octave, moving adds to the letters and to the semitones above the C of octave 0. -/
theorem exists_octave_of_spelling_eq_moved {p q : Pitch} {steps semitones : Int} {o : Int32}
    (h : q.spelling = p.spelling.moved steps semitones) (ho : p.octave = some o) :
    ∃ o', q.octave = some o' ∧
      7 * o'.toInt + q.letter.index = 7 * o.toInt + p.letter.index + steps ∧
      12 * o'.toInt + q.semitones = 12 * o.toInt + p.semitones + semitones := by
  have hindex : (q.letter.index : Int) = (p.letter.index + steps) % 7 :=
    (congrArg (fun s : Spelling => (s.letter.index : Int)) h).trans Spelling.index_moved
  have hsemitones : q.semitones = p.semitones + semitones - 12 * ((p.letter.index + steps) / 7) :=
    (congrArg Spelling.semitones h).trans Spelling.semitones_moved
  have hoctave : q.octave.map Int32.toInt = some (o.toInt + (p.letter.index + steps) / 7) := by
    have hshifted := (congrArg Spelling.octave h).trans (octave_moved_spelling p steps semitones)
    rw [ho] at hshifted
    exact hshifted
  obtain ⟨o', ho', hshift⟩ := Option.map_eq_some_iff.mp hoctave
  exact ⟨o', ho', by omega, by omega⟩

end Pitch

end CyclePatterns

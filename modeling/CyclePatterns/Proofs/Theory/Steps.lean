/-
Steps of a scale by floor division.

A step is a double.  One that stands for an integer is cut into whole octaves and a degree by
dividing with a floor, in both directions of zero alike.  On the way the double becomes an
integer of 64 bits and the octaves one of 32, and neither takes anything away: a step that is
too great for the first has too many octaves for the second.  What is left is the sum of the
degree and its octaves, by which the tonic is moved.
-/
import CyclePatterns.Proofs.Binary64.Integer
import CyclePatterns.Proofs.Theory.Transposition
import CyclePatterns.Theory.Step

namespace CyclePatterns

/-! ### Integers that are held in a double -/

theorem Binary64.toInt64_of_value? {b : Binary64} {n : Int} (h : b.value? = some (n : Rat)) :
    b.toInt64 = clamp int64Min int64Max n := by
  cases b with
  | finite x =>
    obtain rfl := Option.some.inj h
    rw [toInt64, truncate_intCast]
  | negativeZero =>
    obtain rfl : (0 : Int) = n := by exact_mod_cast Option.some.inj h
    decide
  | infinity negative => exact absurd h (Option.some_ne_none _).symm
  | nan => exact absurd h (Option.some_ne_none _).symm

/-- Dividing by less than two to the power of 31 leaves too much of an integer of more than 63
bits for a word of 32. -/
theorem lt_of_inWord_ediv {n count : Int} (hpos : 0 < count) (hcount : count < 2147483648)
    (h : InWord (n / count)) : int64Min < n ∧ n < int64Max := by
  have hlow := Int.ediv_mul_le n (Int.ne_of_gt hpos)
  have hhigh := Int.lt_ediv_add_one_mul_self n hpos
  have hfloor := mul_le_mul_of_nonneg_right h.1 (Int.le_of_lt hpos)
  have hceil := mul_le_mul_of_nonneg_right (Int.add_le_add_right h.2 1) (Int.le_of_lt hpos)
  unfold int64Min int64Max
  constructor <;> omega

namespace Scale

variable {tonic p p' : Pitch} {intervals : List Interval} {degree : Interval} {s : Int}

/-- Holding a step within 64 bits changes nothing. -/
theorem stepInterval_clamp (hne : intervals ≠ []) (hlength : intervals.length < 2147483648) :
    stepInterval intervals (clamp int64Min int64Max s) = stepInterval intervals s := by
  have hpos : 0 < (intervals.length : Int) := by exact_mod_cast List.length_pos_of_ne_nil hne
  have hcount : (intervals.length : Int) < 2147483648 := by exact_mod_cast hlength
  by_cases hin : int64Min ≤ s ∧ s ≤ int64Max
  · rw [clamp_of_mem hin.1 hin.2]
  · -- Neither the step nor what it is held to has octaves that fit into a word.
    have hnone (n : Int) (hout : ¬ (int64Min < n ∧ n < int64Max)) :
        stepInterval intervals n = none := by
      have hwide := mt (lt_of_inWord_ediv hpos hcount) hout
      rw [stepInterval, narrow_eq_none_iff.mpr hwide]
      rfl
    have hclamp : ¬ (int64Min < clamp int64Min int64Max s ∧
        clamp int64Min int64Max s < int64Max) := by
      unfold clamp
      unfold int64Min int64Max at hin ⊢
      split <;> [omega; (split <;> omega)]
    rw [hnone _ hclamp, hnone s (fun h => hin ⟨Int.le_of_lt h.1, Int.le_of_lt h.2⟩)]

theorem stepToPitch_of_integral (hne : intervals ≠ []) (hlength : intervals.length < 2147483648)
    {step : Binary64} (hstep : step.value? = some (s : Rat)) :
    stepToPitch tonic intervals step = (stepInterval intervals s).bind tonic.transpose := by
  have hnonempty : intervals.isEmpty = false := by simpa using hne
  have hden : ((s : Rat).den != 1) = false := by simp
  simp only [stepToPitch, hstep, hnonempty, hden]
  rw [Binary64.toInt64_of_value? hstep, stepInterval_clamp hne hlength]
  rfl

/-! ### What a step has to fit -/

/-- Every step belongs to a degree. -/
theorem exists_degree (hne : intervals ≠ []) (s : Int) :
    ∃ degree, intervals[(s % intervals.length).toNat]? = some degree := by
  have hpos : 0 < (intervals.length : Int) := by exact_mod_cast List.length_pos_of_ne_nil hne
  have hlow := Int.emod_nonneg s (Int.ne_of_gt hpos)
  have hhigh := Int.emod_lt_of_pos s hpos
  exact ⟨_, List.getElem?_eq_getElem (by omega)⟩

/-- The integers that have to fit into words for a degree some octaves away to be an interval:
the octaves, their letters and semitones, and those with the degree added. -/
def reach (degree : Interval) (octaves : Int) : List Int :=
  [octaves, 7 * octaves, 12 * octaves, degree.steps.toInt + 7 * octaves,
    degree.semitones.toInt + 12 * octaves]

theorem forall_reach {P : Int → Prop} {octaves : Int} :
    (∀ n ∈ reach degree octaves, P n) ↔
      P octaves ∧ P (7 * octaves) ∧ P (12 * octaves) ∧ P (degree.steps.toInt + 7 * octaves) ∧
        P (degree.semitones.toInt + 12 * octaves) := by
  simp only [reach, List.forall_mem_cons, List.not_mem_nil, false_implies, implies_true, and_true]

theorem stepInterval_eq_some_iff (hdegree : intervals[(s % intervals.length).toNat]? = some degree)
    {i : Interval} :
    stepInterval intervals s = some i ↔
      (∀ n ∈ reach degree (s / intervals.length), InWord n) ∧
        i.steps.toInt = degree.steps.toInt + 7 * (s / intervals.length) ∧
        i.semitones.toInt = degree.semitones.toInt + 12 * (s / intervals.length) := by
  rw [forall_reach]
  simp only [stepInterval, hdegree, Option.bind_eq_bind, Option.bind_some, Option.bind_eq_some_iff,
    narrow_eq_some_iff, Interval.octaves?_eq_some_iff, Interval.checkedAdd_eq_some_iff]
  generalize s / (intervals.length : Int) = octaves
  constructor
  · rintro ⟨count, rfl, whole, ⟨hsteps, hsemitones⟩, hi⟩
    rw [hsteps, hsemitones, Int.mul_comm, Int.mul_comm count.toInt] at hi
    rw [Int.mul_comm] at hsteps hsemitones
    rw [← hi.1, ← hi.2, ← hsteps, ← hsemitones]
    refine ⟨⟨?_, ?_, ?_, ?_, ?_⟩, rfl, rfl⟩ <;> exact inWord_toInt _
  · rintro ⟨⟨hcount, hsteps, hsemitones, -, -⟩, hi⟩
    obtain ⟨count, rfl⟩ := exists_toInt_eq_iff.mpr hcount
    obtain ⟨steps, hsteps⟩ := exists_toInt_eq_iff.mpr hsteps
    obtain ⟨semitones, hsemitones⟩ := exists_toInt_eq_iff.mpr hsemitones
    refine ⟨count, rfl, ⟨steps, semitones⟩, ⟨?_, ?_⟩, ?_, ?_⟩
    · rw [hsteps, Int.mul_comm]
    · rw [hsemitones, Int.mul_comm]
    · rw [hsteps]
      exact hi.1
    · rw [hsemitones]
      exact hi.2

/-- The integers that have to fit into words for a step to have a pitch. -/
def needed (tonic : Pitch) (degree : Interval) (octaves : Int) : List Int :=
  let steps := degree.steps.toInt + 7 * octaves
  let semitones := degree.semitones.toInt + 12 * octaves
  reach degree octaves ++ tonic.spelling.onTheWay steps semitones ++
    (tonic.spelling.moved steps semitones).numbers

/-- The pitch of a step is the tonic moved by the letters and semitones of the degree and of the
octaves. -/
theorem stepToPitch_eq_some_iff (hne : intervals ≠ []) (hlength : intervals.length < 2147483648)
    (htonic : InWord tonic.semitones) {step : Binary64} (hstep : step.value? = some (s : Rat))
    (hdegree : intervals[(s % intervals.length).toNat]? = some degree) :
    stepToPitch tonic intervals step = some p ↔
      (∀ n ∈ reach degree (s / intervals.length) ++ tonic.spelling.onTheWay
          (degree.steps.toInt + 7 * (s / intervals.length))
          (degree.semitones.toInt + 12 * (s / intervals.length)), InWord n) ∧
        p.spelling = tonic.spelling.moved
          (degree.steps.toInt + 7 * (s / intervals.length))
          (degree.semitones.toInt + 12 * (s / intervals.length)) := by
  rw [stepToPitch_of_integral hne hlength hstep, Option.bind_eq_some_iff, List.forall_mem_append]
  constructor
  · rintro ⟨i, hi, hp⟩
    obtain ⟨hreach, hsteps, hsemitones⟩ := (stepInterval_eq_some_iff hdegree).mp hi
    obtain ⟨hway, hspelling⟩ := (Pitch.transpose_eq_some_iff htonic).mp hp
    rw [hsteps, hsemitones] at hway hspelling
    exact ⟨⟨hreach, hway⟩, hspelling⟩
  · rintro ⟨⟨hreach, hway⟩, hspelling⟩
    have hfits := forall_reach.mp hreach
    obtain ⟨steps, hsteps⟩ := exists_toInt_eq_iff.mpr hfits.2.2.2.1
    obtain ⟨semitones, hsemitones⟩ := exists_toInt_eq_iff.mpr hfits.2.2.2.2
    refine ⟨⟨steps, semitones⟩, (stepInterval_eq_some_iff hdegree).mpr ⟨hreach, hsteps, hsemitones⟩,
      (Pitch.transpose_eq_some_iff htonic).mpr ?_⟩
    rw [hsteps, hsemitones]
    exact ⟨hway, hspelling⟩

theorem stepToPitch_eq_none_iff (hne : intervals ≠ []) (hlength : intervals.length < 2147483648)
    (htonic : InWord tonic.semitones) {step : Binary64} (hstep : step.value? = some (s : Rat))
    (hdegree : intervals[(s % intervals.length).toNat]? = some degree) :
    stepToPitch tonic intervals step = none ↔
      ∃ n ∈ needed tonic degree (s / intervals.length), ¬ InWord n :=
  Pitch.eq_none_iff_of_eq_some_iff fun _ => stepToPitch_eq_some_iff hne hlength htonic hstep hdegree

/-- The octaves of a step that is a number of times through the scale further on. -/
theorem ediv_add_mul_length (hne : intervals ≠ []) (k : Int) :
    (s + k * intervals.length) / intervals.length = s / intervals.length + k :=
  Int.add_mul_ediv_right s k (by exact_mod_cast List.length_pos_of_ne_nil hne |>.ne')

/-- **Steps follow floor division.**  A step of a scale is a degree and a number of octaves.  If it
has a pitch, that is the tonic moved by the letters and semitones of both; it has none exactly if
one of the integers that are computed does not fit into a word.  Once through the scale further
on is the same pitch an octave higher. -/
theorem steps_follow_floor (hne : intervals ≠ []) (hlength : intervals.length < 2147483648)
    (htonic : InWord tonic.semitones) {step : Binary64} (hstep : step.value? = some (s : Rat)) :
    let octaves := s / intervals.length
    ∃ degree, intervals[(s - octaves * intervals.length).toNat]? = some degree ∧
      (∀ p, stepToPitch tonic intervals step = some p →
        p.spelling = tonic.spelling.moved (degree.steps.toInt + 7 * octaves)
          (degree.semitones.toInt + 12 * octaves)) ∧
      (stepToPitch tonic intervals step = none ↔ ∃ n ∈ needed tonic degree octaves, ¬ InWord n) ∧
      ∀ (k : Int) (further : Binary64) (p p' : Pitch),
        further.value? = some ((s + k * intervals.length : Int) : Rat) →
        stepToPitch tonic intervals step = some p →
        stepToPitch tonic intervals further = some p' →
        p'.letter = p.letter ∧ p'.alteration = p.alteration ∧
          p'.octave.map Int32.toInt = p.octave.map fun o => o.toInt + k := by
  intro octaves
  obtain ⟨degree, hdegree⟩ := exists_degree hne s
  have hspelling {p : Pitch} (hp : stepToPitch tonic intervals step = some p) :=
    ((stepToPitch_eq_some_iff hne hlength htonic hstep hdegree).mp hp).2
  refine ⟨degree, ?_, fun p hp => hspelling hp,
    stepToPitch_eq_none_iff hne hlength htonic hstep hdegree, ?_⟩
  · rw [← hdegree, Int.emod_def, Int.mul_comm]
  · intro k further p p' hfurther hp hp'
    have hagain :
        intervals[((s + k * intervals.length) % intervals.length).toNat]? = some degree := by
      rw [Int.add_mul_emod_self_right]
      exact hdegree
    have hraised := ((stepToPitch_eq_some_iff hne hlength htonic hfurther hagain).mp hp').2
    rw [ediv_add_mul_length hne, Int.mul_add, Int.mul_add, ← Int.add_assoc, ← Int.add_assoc,
      Spelling.moved_octaves, ← hspelling hp] at hraised
    refine ⟨congrArg Spelling.letter hraised, ?_, ?_⟩
    · exact Int32.toInt_inj.mp (congrArg Spelling.alteration hraised)
    · have hoctave := congrArg Spelling.octave hraised
      exact hoctave.trans (Option.map_map _ _ _)

/-- Eight steps down a triad on D, to its third in the third octave below, and from there five
times through the triad. -/
theorem steps_follow_floor_triad :
    let triad : List Interval := [⟨0, 0⟩, ⟨2, 4⟩, ⟨4, 7⟩]
    let d : Pitch := ⟨.d, 0, some 3⟩
    let low : Pitch := ⟨.f, 1, some 0⟩
    let high : Pitch := ⟨.f, 1, some 5⟩
    let down : Binary64 := .finite (-8)
    let up : Binary64 := .finite 7
    triad ≠ [] ∧ triad.length < 2147483648 ∧ InWord d.semitones ∧
      down.value? = some ((-8 : Int) : Rat) ∧ up.value? = some ((-8 + 5 * 3 : Int) : Rat) ∧
      stepToPitch d triad down = some low ∧ stepToPitch d triad up = some high ∧
      low.spelling = d.spelling.moved (2 + 7 * -3) (4 + 12 * -3) ∧
      high.letter = low.letter ∧ high.alteration = low.alteration ∧
      high.octave.map Int32.toInt = low.octave.map fun o => o.toInt + 5 := by
  intro triad d low high down up
  have hne : triad ≠ [] := List.cons_ne_nil _ _
  have hlength : triad.length < 2147483648 := by decide
  have hd : InWord d.semitones := by decide
  have hdown : down.value? = some ((-8 : Int) : Rat) := by decide +kernel
  have hup : up.value? = some ((-8 + 5 * 3 : Int) : Rat) := by decide +kernel
  have hlow : stepToPitch d triad down = some low := by decide +kernel
  have hhigh : stepToPitch d triad up = some high := by decide +kernel
  obtain ⟨degree, hdegree, hpitch, -, hfurther⟩ := steps_follow_floor hne hlength hd hdown
  obtain rfl : (⟨2, 4⟩ : Interval) = degree := Option.some.inj hdegree
  exact ⟨hne, hlength, hd, hdown, hup, hlow, hhigh, hpitch low hlow,
    hfurther 5 up low high hup hlow hhigh⟩

/-- A degree that has no pitch, although it would be a C with five flats in an octave that a word
can hold: the semitones of the octaves on the way to it do not fit. -/
theorem step_without_pitch :
    let degree : Interval := ⟨1252698797, 2147483647⟩
    let octave : Int := 178956975
    InWord Pitch.c4.semitones ∧ (Binary64.finite 0).value? = some ((0 : Int) : Rat) ∧
      stepToPitch Pitch.c4 [degree] (.finite 0) = none ∧
      (∀ n ∈ reach degree 0, InWord n) ∧
      Pitch.c4.spelling.moved degree.steps.toInt degree.semitones.toInt = ⟨.c, -5, some octave⟩ ∧
      InWord (-5) ∧ InWord octave := by
  refine ⟨?_, ?_, ?_, ?_, ?_, ?_, ?_⟩ <;> decide +kernel

end Scale

end CyclePatterns

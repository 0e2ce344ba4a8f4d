/-
Moving a pitch by an interval.

A pitch is moved in words of 32 bits, and whatever does not fit on the way makes the result
no pitch.  What fits is exact: it is the pitch that moving without bounds leads to.  So the
laws of moving without bounds are laws of pitches, as long as the pitches have a chroma.

That last condition is not idle.  The chroma of a pitch is the one sum that is not checked,
and moving a pitch down past a C can lead to an alteration that is within a word of its own
but not any more with the semitones of its letter added.
-/
import CyclePatterns.Proofs.Theory.Spelling
import Mathlib.Tactic.ByContra

namespace CyclePatterns

namespace Spelling

variable {s : Spelling} {steps semitones : Int}

/-- What is computed before the alteration and the octave of the moved pitch: the letters and
the semitones above the C of the pitch, the semitones of the octaves between, and those of
the letter with them. -/
def onTheWay (steps semitones : Int) (s : Spelling) : List Int :=
  let octaves := s.shift steps * 12
  [s.letter.index + steps, s.semitones + semitones, octaves,
    octaves + (Letter.fromC (s.letter.index + steps)).semitones]

/-- The numbers in a pitch. -/
def numbers (s : Spelling) : List Int :=
  s.alteration :: s.octave.toList

theorem forall_onTheWay {P : Int → Prop} :
    (∀ n ∈ s.onTheWay steps semitones, P n) ↔
      P (s.letter.index + steps) ∧ P (s.semitones + semitones) ∧ P (s.shift steps * 12) ∧
        P (s.shift steps * 12 + (Letter.fromC (s.letter.index + steps)).semitones) := by
  simp only [onTheWay, List.forall_mem_cons, List.not_mem_nil, false_implies, implies_true,
    and_true]

/-- On the way to nowhere only the semitones of the pitch itself can be too many. -/
theorem inWord_onTheWay_zero (h : InWord s.semitones) : ∀ n ∈ s.onTheWay 0 0, InWord n := by
  have hindex := s.letter.index_lt
  have hlow := s.letter.semitones_nonneg
  have hhigh := s.letter.semitones_le
  rw [forall_onTheWay, shift_zero, Int.add_zero, Int.add_zero, Letter.fromC_index]
  refine ⟨⟨?_, ?_⟩, h, by decide, ?_, ?_⟩ <;> omega

theorem alteration_moved :
    (s.moved steps semitones).alteration = s.semitones + semitones -
      (s.shift steps * 12 + (Letter.fromC (s.letter.index + steps)).semitones) := by
  rw [Int.mul_comm]
  rfl

end Spelling

namespace Pitch

variable {p q r : Pitch} {i j k : Interval}

/-! ### Pitches among the spellings -/

theorem chroma_of_inWord (h : InWord p.semitones) : p.chroma = p.semitones :=
  toInt_ofInt_of_inWord h

/-- A spelling is that of a pitch if its numbers fit into words. -/
theorem exists_spelling_eq_iff {s : Spelling} :
    (∃ q : Pitch, q.spelling = s) ↔ ∀ n ∈ s.numbers, InWord n := by
  obtain ⟨letter, alteration, octave⟩ := s
  constructor
  · rintro ⟨q, hq⟩ n hn
    rw [← hq] at hn
    rcases List.mem_cons.mp hn with rfl | hoctave
    · exact inWord_toInt q.alteration
    · obtain ⟨o, -, rfl⟩ := Option.map_eq_some_iff.mp (Option.mem_toList.mp hoctave)
      exact inWord_toInt o
  · intro h
    obtain ⟨w, rfl⟩ := exists_toInt_eq_iff.mpr (h alteration List.mem_cons_self)
    cases octave with
    | none => exact ⟨⟨letter, w, none⟩, rfl⟩
    | some o =>
      obtain ⟨v, rfl⟩ := exists_toInt_eq_iff.mpr (h o (List.mem_cons_of_mem _ List.mem_cons_self))
      exact ⟨⟨letter, w, some v⟩, rfl⟩

/-! ### What moving computes -/

theorem raise?_eq_some_iff {octave octave' : Option Int32} {n : Int} :
    raise? octave n = some octave' ↔
      octave'.map Int32.toInt = octave.map fun o => o.toInt + n := by
  cases octave with
  | none => simp [raise?, eq_comm]
  | some o => simp [raise?, narrow_eq_some_iff, Option.map_eq_some_iff, and_comm, eq_comm]

/-- **Moving a pitch is exact.**  It gives a pitch if everything on the way and the numbers in
the pitch fit into words, and then it is the one that moving without bounds leads to. -/
theorem transpose_eq_some_iff (hp : InWord p.semitones) :
    p.transpose i = some q ↔
      (∀ n ∈ p.spelling.onTheWay i.steps.toInt i.semitones.toInt, InWord n) ∧
        q.spelling = p.spelling.moved i.steps.toInt i.semitones.toInt := by
  rw [Spelling.forall_onTheWay]
  simp only [transpose, chroma_of_inWord hp, Option.bind_eq_bind, Option.bind_eq_some_iff,
    narrow_eq_some_iff, raise?_eq_some_iff]
  constructor
  · rintro ⟨place, hplace, target, htarget, octaves, hoctaves, natural, hnatural, octave, hoctave,
      alteration, halteration, hq⟩
    obtain rfl := Option.some.inj hq
    rw [hplace] at hoctaves hnatural hoctave
    rw [hoctaves] at hnatural
    refine ⟨⟨?_, ?_, ?_, ?_⟩, Spelling.ext ?_ ?_ ?_⟩
    · exact exists_toInt_eq_iff.mp ⟨place, hplace⟩
    · exact exists_toInt_eq_iff.mp ⟨target, htarget⟩
    · exact exists_toInt_eq_iff.mp ⟨octaves, hoctaves⟩
    · exact exists_toInt_eq_iff.mp ⟨natural, hnatural⟩
    · show Letter.fromC place.toInt = _
      rw [hplace]
      rfl
    · show alteration.toInt = _
      rw [halteration, htarget, hnatural, Spelling.alteration_moved]
      rfl
    · show octave.map Int32.toInt = _
      rw [hoctave, octave_moved_spelling]
      rfl
  · rintro ⟨⟨hplace, htarget, hoctaves, hnatural⟩, hq⟩
    obtain ⟨place, hplace⟩ := exists_toInt_eq_iff.mpr hplace
    obtain ⟨target, htarget⟩ := exists_toInt_eq_iff.mpr htarget
    obtain ⟨octaves, hoctaves⟩ := exists_toInt_eq_iff.mpr hoctaves
    obtain ⟨natural, hnatural⟩ := exists_toInt_eq_iff.mpr hnatural
    have hletter := congrArg Spelling.letter hq
    have halteration := congrArg Spelling.alteration hq
    have hoctave := congrArg Spelling.octave hq
    rw [Spelling.letter_moved, ← hplace] at hletter
    rw [Spelling.alteration_moved, ← htarget, ← hnatural] at halteration
    rw [octave_moved_spelling, Spelling.shift, ← hplace] at hoctave
    rw [Spelling.shift, ← hplace] at hoctaves hnatural
    refine ⟨place, hplace, target, htarget, octaves, hoctaves, natural, ?_, q.octave, hoctave,
      q.alteration, halteration, ?_⟩
    · rw [hnatural, hoctaves]
    · rw [← hletter]
      rfl

/-- What is a pitch with a given spelling as soon as all that is computed fits is none exactly if
something of that, or of the pitch, does not fit. -/
theorem eq_none_iff_of_eq_some_iff {moved : Option Pitch} {way : List Int} {s : Spelling}
    (h : ∀ q, moved = some q ↔ (∀ n ∈ way, InWord n) ∧ q.spelling = s) :
    moved = none ↔ ∃ n ∈ way ++ s.numbers, ¬ InWord n := by
  rw [Option.eq_none_iff_forall_ne_some]
  constructor
  · intro hnone
    by_contra hall
    simp only [not_exists, not_and, not_not, List.forall_mem_append] at hall
    obtain ⟨q, hq⟩ := exists_spelling_eq_iff.mpr hall.2
    exact hnone q ((h q).mpr ⟨hall.1, hq⟩)
  · rintro ⟨n, hn, hout⟩ q hsome
    obtain ⟨hway, hq⟩ := (h q).mp hsome
    rcases List.mem_append.mp hn with hmem | hmem
    · exact hout (hway n hmem)
    · exact hout (exists_spelling_eq_iff.mp ⟨q, hq⟩ n hmem)

theorem transpose_eq_none_iff (hp : InWord p.semitones) :
    p.transpose i = none ↔
      ∃ n ∈ p.spelling.onTheWay i.steps.toInt i.semitones.toInt ++
        (p.spelling.moved i.steps.toInt i.semitones.toInt).numbers, ¬ InWord n :=
  eq_none_iff_of_eq_some_iff fun _ => transpose_eq_some_iff hp

/-! ### Moving on and moving back -/

theorem spelling_transpose (hp : InWord p.semitones) (h : p.transpose i = some q) :
    q.spelling = p.spelling.moved i.steps.toInt i.semitones.toInt :=
  ((transpose_eq_some_iff hp).mp h).2

theorem index_transpose (hp : InWord p.semitones) (h : p.transpose i = some q) :
    (q.letter.index : Int) = (p.letter.index + i.steps.toInt) % 7 := by
  have hletter := congrArg (fun s => (s.letter.index : Int)) (spelling_transpose hp h)
  exact hletter.trans Spelling.index_moved

theorem semitones_transpose (hp : InWord p.semitones) (h : p.transpose i = some q) :
    q.semitones =
      p.semitones + i.semitones.toInt - 12 * ((p.letter.index + i.steps.toInt) / 7) := by
  have hsemitones := congrArg Spelling.semitones (spelling_transpose hp h)
  exact hsemitones.trans Spelling.semitones_moved

/-- Moving twice is moving by the sum. -/
theorem eq_of_transpose_transpose (hp : InWord p.semitones) (hq : InWord q.semitones)
    (hi : p.transpose i = some q) (hj : q.transpose j = some r)
    (hsteps : k.steps.toInt = i.steps.toInt + j.steps.toInt)
    (hsemitones : k.semitones.toInt = i.semitones.toInt + j.semitones.toInt)
    {r' : Pitch} (hk : p.transpose k = some r') : r = r' := by
  refine spelling_injective ?_
  rw [spelling_transpose hq hj, spelling_transpose hp hi, spelling_transpose hp hk,
    Spelling.moved_moved, hsteps, hsemitones]

/-- A word with its sign turned; the least one keeps it. -/
theorem toInt_neg_cases (w : Int32) :
    (-w).toInt = -w.toInt ∨ w.toInt = -2147483648 ∧ (-w).toInt = -2147483648 := by
  have hlow := (inWord_toInt w).1
  have hhigh := (inWord_toInt w).2
  rw [Int32.toInt_neg, Int.bmod_def]
  omega

/-- What is moved there and back is what it was.  An interval whose sign cannot be turned does
not lead there or does not lead back. -/
theorem eq_of_transpose_neg (hp : InWord p.semitones) (hq : InWord q.semitones)
    (hi : p.transpose i = some q) (hback : q.transpose i.neg = some r) : r = p := by
  have hindex := p.letter.index_lt
  have hway := Spelling.forall_onTheWay.mp ((transpose_eq_some_iff hp).mp hi).1
  have hsteps : i.neg.steps.toInt = -i.steps.toInt := by
    rcases toInt_neg_cases i.steps with h | ⟨hleast, -⟩
    · exact h
    · -- So many letters down are more octaves than have their semitones in a word.
      have hoctaves := hway.2.2.1.1
      simp only [Spelling.shift, spelling, hleast] at hoctaves
      omega
  have hsemitones : i.neg.semitones.toInt = -i.semitones.toInt := by
    rcases toInt_neg_cases i.semitones with h | ⟨hleast, hneg⟩
    · exact h
    · -- Both moves go down by these semitones, which no pitch with a chroma has room for.
      have hthere := semitones_transpose hp hi
      have hagain := semitones_transpose hq hback
      have hneg' : i.neg.semitones.toInt = -2147483648 := hneg
      rw [index_transpose hp hi, hsteps, hneg', hthere, hleast] at hagain
      have hr := (inWord_toInt r.alteration).1
      have hletter := r.letter.semitones_nonneg
      have hhigh := hp.2
      rw [semitones] at hagain
      omega
  refine spelling_injective ?_
  rw [spelling_transpose hq hback, spelling_transpose hp hi, Spelling.moved_moved, hsteps,
    hsemitones, Int.add_right_neg, Int.add_right_neg, Spelling.moved_zero]

/-- **Intervals act on pitches.**  In an octave or without one, a pitch is moved by exactly the
letters and the semitones of the interval; the next two parts are the laws of an action, for
pitches that have a chroma. -/
theorem transpose_acts (hp : InWord p.semitones) :
    (∀ i q, p.transpose i = some q →
      (∀ o, p.octave = some o → ∃ o', q.octave = some o' ∧
        7 * o'.toInt + q.letter.index = 7 * o.toInt + p.letter.index + i.steps.toInt ∧
        12 * o'.toInt + q.semitones = 12 * o.toInt + p.semitones + i.semitones.toInt) ∧
      (p.octave = none → q.octave = none ∧
        (q.letter.index : Int) = (p.letter.index + i.steps.toInt) % 7 ∧
        q.semitones = p.semitones + i.semitones.toInt
          - 12 * ((p.letter.index + i.steps.toInt) / 7))) ∧
    (∀ i j k q r r', i.checkedAdd j = some k → InWord q.semitones →
      p.transpose i = some q → q.transpose j = some r → p.transpose k = some r' → r = r') ∧
    (∀ i q r, InWord q.semitones →
      p.transpose i = some q → q.transpose i.neg = some r → r = p) := by
  refine ⟨fun i q hi => ?_, fun i j k q r r' hk hq hi hj hr' => ?_, fun i q r hq hi hback => ?_⟩
  · have hspelling := spelling_transpose hp hi
    refine ⟨fun o ho => exists_octave_of_spelling_eq_moved hspelling ho, fun hnone => ?_⟩
    have hoctave := (congrArg Spelling.octave hspelling).trans (octave_moved_spelling p _ _)
    rw [hnone] at hoctave
    exact ⟨Option.map_eq_none_iff.mp hoctave, index_transpose hp hi, semitones_transpose hp hi⟩
  · obtain ⟨hsteps, hsemitones⟩ := Interval.checkedAdd_eq_some_iff.mp hk
    exact eq_of_transpose_transpose hp hq hi hj hsteps hsemitones hr'
  · exact eq_of_transpose_neg hp hq hi hback

/-- From an E flat down to the B flat below, up from there by more than fourteen octaves, and
back from the B flat. -/
theorem transpose_acts_from_E_flat :
    let eFlat : Pitch := ⟨.e, -1, some 3⟩
    let bFlat : Pitch := ⟨.b, -1, some 2⟩
    let high : Pitch := ⟨.d, -1, some 17⟩
    let down : Interval := ⟨-3, -5⟩
    let up : Interval := ⟨100, 171⟩
    InWord eFlat.semitones ∧ InWord bFlat.semitones ∧ down.checkedAdd up = some ⟨97, 166⟩ ∧
      eFlat.transpose down = some bFlat ∧ bFlat.transpose up = some high ∧
      (∃ o, bFlat.octave = some o ∧
        7 * o.toInt + bFlat.letter.index = 7 * (3 : Int32).toInt + eFlat.letter.index + -3 ∧
        12 * o.toInt + bFlat.semitones = 12 * (3 : Int32).toInt + eFlat.semitones + -5) ∧
      eFlat.transpose ⟨97, 166⟩ = some high ∧ bFlat.transpose down.neg = some eFlat := by
  intro eFlat bFlat high down up
  have hp : InWord eFlat.semitones := by decide
  have hq : InWord bFlat.semitones := by decide
  have hdown : eFlat.transpose down = some bFlat := by decide
  have hup : bFlat.transpose up = some high := by decide
  obtain ⟨hmoved, htwice, hback⟩ := transpose_acts hp
  obtain ⟨r, hr⟩ := Option.isSome_iff_exists.mp
    (by decide : (eFlat.transpose ⟨97, 166⟩).isSome = true)
  obtain ⟨t, ht⟩ := Option.isSome_iff_exists.mp
    (by decide : (bFlat.transpose down.neg).isSome = true)
  have hsum : down.checkedAdd up = some ⟨97, 166⟩ := by decide
  rw [hr, ht, ← htwice down up _ bFlat high r hsum hq hdown hup hr,
    hback down bFlat t hq hdown ht]
  exact ⟨hp, hq, hsum, hdown, hup, (hmoved down bFlat hdown).1 3 rfl, rfl, rfl⟩

end Pitch

end CyclePatterns

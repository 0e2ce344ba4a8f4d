/-
The one sum that is not checked.

Before a pitch is moved its chroma is computed, the semitones of its letter with its
alteration.  Moving checks that the alteration is a word, but not that this sum will be one
again.  It is not too small, since no letter lies below C, and it is too great only for an
alteration within eleven of the greatest word.  A move that stays above the C of the pitch
does not lead there, nor does a route of such moves; one down past that C may, and the next
move then starts from a chroma that has wrapped round.
-/
import CyclePatterns.Proofs.Theory.Transposition

namespace CyclePatterns.Pitch

variable {p q : Pitch} {i : Interval}

/-- Only the greatest word is a bound. -/
theorem inWord_semitones_iff : InWord p.semitones ↔ p.semitones ≤ 2147483647 := by
  have hletter := p.letter.semitones_nonneg
  have halteration := (inWord_toInt p.alteration).1
  rw [InWord, semitones]
  omega

theorem semitones_le (p : Pitch) : p.semitones ≤ 2147483647 + p.letter.semitones := by
  have halteration := (inWord_toInt p.alteration).2
  rw [semitones]
  omega

/-- A chroma that is not in a word has wrapped round once. -/
theorem chroma_of_not_inWord (h : ¬ InWord p.semitones) : p.chroma = p.semitones - 4294967296 := by
  have hlow := Int.not_le.mp fun hle => h (inWord_semitones_iff.mpr hle)
  have hhigh := p.semitones_le
  have hletter := p.letter.semitones_le
  have hsize : Int32.size = 4294967296 := rfl
  rw [chroma, Int32.toInt_ofInt, Int.bmod_def, hsize]
  omega

/-- A move that stays above the C of the pitch keeps to words. -/
theorem inWord_of_transpose (hp : InWord p.semitones) (h : p.transpose i = some q)
    (hup : 0 ≤ p.letter.index + i.steps.toInt) : InWord q.semitones := by
  have hway := Spelling.forall_onTheWay.mp ((transpose_eq_some_iff hp).mp h).1
  have htarget : p.semitones + i.semitones.toInt ≤ 2147483647 := hway.2.1.2
  have hshift := Int.ediv_nonneg hup (by decide : (0 : Int) ≤ 7)
  rw [inWord_semitones_iff, semitones_transpose hp h]
  omega

/-- No interval of a route leads down past the C of the pitch that it moves. -/
def StaysAbove (p : Pitch) : List Interval → Prop
  | [] => True
  | i :: rest =>
    0 ≤ p.letter.index + i.steps.toInt ∧ ∀ q, p.transpose i = some q → q.StaysAbove rest

/-- Nor does a route of such moves leave words, whatever its length. -/
theorem inWord_of_route {route : List Interval} (hp : InWord p.semitones)
    (habove : p.StaysAbove route) (h : route.foldlM transpose p = some q) :
    InWord q.semitones := by
  induction route generalizing p with
  | nil =>
    obtain rfl := Option.some.inj h
    exact hp
  | cons i rest ih =>
    rw [List.foldlM_cons] at h
    obtain ⟨next, hnext, hrest⟩ := Option.bind_eq_some_iff.mp h
    exact ih (inWord_of_transpose hp hnext habove.1) (habove.2 next hnext) hrest

/-- **Moving up keeps a chroma.**  A pitch that has been moved has one exactly if the semitones
it is moved to, counted from its own C, are not above the greatest word, which they exceed by
the semitones of a letter at most.  Moves that do not lead down past a C always keep it, one
after another. -/
theorem chroma_kept (hp : InWord p.semitones) :
    (∀ i q, p.transpose i = some q →
      (q.chroma = q.semitones ↔ p.semitones + i.semitones.toInt
        - 12 * ((p.letter.index + i.steps.toInt) / 7) ≤ 2147483647) ∧
      q.semitones ≤ 2147483647 + q.letter.semitones ∧
      (0 ≤ p.letter.index + i.steps.toInt → InWord q.semitones)) ∧
    ∀ route q, p.StaysAbove route → route.foldlM transpose p = some q →
      InWord q.semitones ∧ q.chroma = q.semitones := by
  refine ⟨fun i q h => ⟨?_, q.semitones_le, inWord_of_transpose hp h⟩, fun route q habove h => ?_⟩
  · rw [← semitones_transpose hp h, ← inWord_semitones_iff]
    by_cases hq : InWord q.semitones
    · exact iff_of_true (chroma_of_inWord hq) hq
    · refine iff_of_false ?_ hq
      rw [chroma_of_not_inWord hq]
      omega
  · have hq := inWord_of_route hp habove h
    exact ⟨hq, chroma_of_inWord hq⟩

/-- Up by as much as there is room for, down again within the octave, and up once more. -/
theorem chroma_kept_within_octave :
    let p : Pitch := ⟨.d, 0, none⟩
    let route : List Interval := [⟨1, 2147483600⟩, ⟨-2, 40⟩, ⟨7, 0⟩]
    let q : Pitch := ⟨.c, 2147483630, none⟩
    InWord p.semitones ∧ p.StaysAbove route ∧ route.foldlM transpose p = some q ∧
      InWord q.semitones ∧ q.chroma = q.semitones := by
  intro p route q
  have hp : InWord p.semitones := by decide
  have hroute : route.foldlM transpose p = some q := by decide
  have habove : p.StaysAbove route := by
    have hfirst : p.transpose ⟨1, 2147483600⟩ = some ⟨.e, 2147483598, none⟩ := by decide
    refine ⟨by decide, fun e he => ?_⟩
    rw [hfirst] at he
    obtain rfl := Option.some.inj he
    have hsecond : transpose ⟨.e, 2147483598, none⟩ ⟨-2, 40⟩ = some ⟨.c, 2147483642, none⟩ := by
      decide
    refine ⟨by decide, fun c hc => ?_⟩
    rw [hsecond] at hc
    obtain rfl := Option.some.inj hc
    exact ⟨by decide, fun _ _ => trivial⟩
  exact ⟨hp, habove, hroute, (chroma_kept hp).2 route q habove hroute⟩

/-- Down one letter from C, with a count of semitones that the alteration just holds: the chroma
is below zero where it should be above the greatest word, and a whole tone further up the pitch
has as many flats as it had sharps. -/
theorem chroma_wraps :
    let c : Pitch := ⟨.c, 0, none⟩
    let b : Pitch := ⟨.b, 2147483647, none⟩
    InWord c.semitones ∧ c.transpose ⟨-1, 2147483646⟩ = some b ∧
      ¬ InWord b.semitones ∧ b.chroma = -2147483638 ∧
      b.transpose ⟨1, 2⟩ = some ⟨.c, -2147483648, none⟩ := by
  refine ⟨?_, ?_, ?_, ?_, ?_⟩ <;> decide

end CyclePatterns.Pitch

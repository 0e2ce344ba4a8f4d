/-
Named scales rise.

Wherever the degrees of a named scale come from, a table, the semitones or the notes of a mode,
they begin with the tonic, stay within an octave, and rise from each to the next: in semitones
always, in letters never down.  Steps go through the degrees in order and on to the next octave,
so what holds within an octave holds over all of them.  Scales with seven degrees have one for
each letter, and there the steps count the letters.
-/
import CyclePatterns.Proofs.Theory.Steps
import CyclePatterns.Theory.Scale

namespace CyclePatterns.Scale

/-- What the degrees of a named scale have in common. -/
structure Rising (intervals : List Interval) : Prop where
  /-- The first degree is the tonic. -/
  head : intervals.head? = some Interval.unison
  /-- There is at most one degree for each semitone. -/
  length_le : intervals.length ≤ 12
  /-- No degree is an octave away. -/
  within : ∀ i ∈ intervals, (0 ≤ i.steps.toInt ∧ i.steps.toInt < 7) ∧
    0 ≤ i.semitones.toInt ∧ i.semitones.toInt < 12
  /-- A later degree is higher, and its letter is not lower. -/
  rises : intervals.Pairwise fun i j =>
    i.steps.toInt ≤ j.steps.toInt ∧ i.semitones.toInt < j.semitones.toInt
  /-- Seven degrees have seven letters. -/
  letters : intervals.length = 7 → ∀ k (h : k < intervals.length), intervals[k].steps.toInt = k

/-! ### Where the degrees come from -/

theorem rising_of_mem_spelled {names : List String} {intervals : List Interval}
    (h : (names, intervals) ∈ spelled) : Rising intervals := by
  have hall : ∀ entry ∈ spelled,
      (entry.2.head? = some Interval.unison ∧ entry.2.length ≤ 12) ∧
      (∀ i ∈ entry.2, (0 ≤ i.steps.toInt ∧ i.steps.toInt < 7) ∧
        0 ≤ i.semitones.toInt ∧ i.semitones.toInt < 12) ∧
      (entry.2.Pairwise fun i j =>
        i.steps.toInt ≤ j.steps.toInt ∧ i.semitones.toInt < j.semitones.toInt) ∧
      entry.2.length ≠ 7 := by
    decide
  obtain ⟨⟨hhead, hlength⟩, hwithin, hrises, hseven⟩ := hall _ h
  exact ⟨hhead, hlength, hwithin, hrises, fun h => absurd h hseven⟩

/-- Semitones in rising order within an octave, those of the tonic first. -/
structure Ascending (offsets : List Nat) : Prop where
  head : offsets.head? = some 0
  length_le : offsets.length ≤ 12
  within : ∀ n ∈ offsets, n < 12
  rises : offsets.Pairwise (· < ·)

/-- Degrees at ascending semitones, if the letter of each is chosen by its place and its
semitones. -/
theorem Ascending.rising {offsets : List Nat} {intervals : List Interval} (h : Ascending offsets)
    (letter : Nat → Nat → Nat) (hlen : intervals.length = offsets.length)
    (hget : ∀ k (h : k < offsets.length), intervals[k].semitones.toInt = offsets[k] ∧
      intervals[k].steps.toInt = letter k offsets[k])
    (hfirst : letter 0 0 = 0)
    (hlt : ∀ k n, k < offsets.length → n < 12 → letter k n < 7)
    (hle : ∀ k l m n, k < l → l < offsets.length → m < n → n < 12 → letter k m ≤ letter l n)
    (hseven : offsets.length = 7 → ∀ k n, letter k n = k) : Rising intervals where
  head := by
    obtain ⟨rest, rfl⟩ := List.head?_eq_some_iff.mp h.head
    obtain ⟨hsemitones, hsteps⟩ := hget 0 (Nat.zero_lt_succ _)
    rw [List.getElem_cons_zero] at hsemitones hsteps
    rw [hfirst] at hsteps
    rw [List.head?_eq_getElem?, List.getElem?_eq_getElem (hlen ▸ Nat.zero_lt_succ _)]
    exact congrArg some (Interval.eq_of_toInt (j := Interval.unison) hsteps hsemitones)
  length_le := by
    rw [hlen]
    exact h.length_le
  within := by
    intro i hi
    obtain ⟨k, hk, rfl⟩ := List.getElem_of_mem hi
    have hk' : k < offsets.length := by omega
    obtain ⟨hsemitones, hsteps⟩ := hget k hk'
    have hn := h.within _ (List.getElem_mem hk')
    have hletter := hlt k offsets[k] hk' hn
    omega
  rises := by
    rw [List.pairwise_iff_getElem]
    intro k l hk hl hkl
    have hmn := List.pairwise_iff_getElem.mp h.rises k l (by omega) (by omega) hkl
    have hn := h.within _ (List.getElem_mem (by omega : l < offsets.length))
    have hletter := hle k l _ _ hkl (by omega) hmn hn
    obtain ⟨hlow, hlowSteps⟩ := hget k (by omega)
    obtain ⟨hhigh, hhighSteps⟩ := hget l (by omega)
    omega
  letters := by
    intro hcount k hk
    rw [(hget k (by omega)).2, hseven (by omega)]

theorem toInt_ofNat_of_lt_twelve {n : Nat} (h : n < 12) : (Int32.ofNat n).toInt = n :=
  Int32.toInt_ofNat_of_lt (by omega)

/-- Within an octave the usual spelling has the semitones asked for. -/
theorem ofSemitones_within {n : Nat} (h : n < 12) :
    (Interval.ofSemitones (Int32.ofNat n)).semitones.toInt = n ∧
      (Interval.ofSemitones (Int32.ofNat n)).steps.toInt = Interval.usualSteps n := by
  have hall : ∀ n < 12, (Interval.ofSemitones (Int32.ofNat n)).semitones.toInt = n ∧
      (Interval.ofSemitones (Int32.ofNat n)).steps.toInt = Interval.usualSteps n := by
    decide
  exact hall n h

/-- And more semitones never have a lower letter. -/
theorem usualSteps_le {m n : Nat} (hmn : m < n) (hn : n < 12) :
    Interval.usualSteps m ≤ Interval.usualSteps n := by
  have hall : ∀ n < 12, ∀ m < n, Interval.usualSteps m ≤ Interval.usualSteps n := by decide
  exact hall n hn m hmn

/-- Seven of them have the letters in order, any other number their usual letters. -/
theorem Ascending.rising_ofOffsets {offsets : List Nat} (h : Ascending offsets) :
    Rising (ofOffsets offsets) := by
  have hoffset {k : Nat} (hk : k < offsets.length) := h.within _ (List.getElem_mem hk)
  unfold ofOffsets
  split
  · rename_i hseven
    refine h.rising (fun k _ => k) List.length_mapIdx (fun k hk => ?_) rfl ?_ ?_ fun _ _ _ => rfl
    · rw [List.getElem_mapIdx]
      exact ⟨toInt_ofNat_of_lt_twelve (hoffset hk), toInt_ofNat_of_lt_twelve (by omega)⟩
    · intro k n hk _
      omega
    · intro k l m n hkl _ _ _
      omega
  · rename_i hseven
    refine h.rising (fun _ n => Interval.usualSteps n) (List.length_map _) (fun k hk => ?_) rfl
      ?_ ?_ fun hcount => absurd hcount hseven
    · rw [List.getElem_map]
      exact ofSemitones_within (hoffset hk)
    · exact fun _ n _ _ => Interval.usualSteps_lt n
    · exact fun _ _ _ _ _ _ => usualSteps_le

theorem ascending_range : Ascending (List.range 12) where
  head := rfl
  length_le := by decide
  within _ := List.mem_range.mp
  rises := List.pairwise_lt_range

/-- The notes of a mode may come in any order and in any octave. -/
theorem ascending_offsetsOf {notes : List Int} (h : 0 ∈ notes) :
    Ascending (Mode.offsetsOf notes) where
  head := by
    have hnote : (notes.any fun note => note % 12 == (0 : Nat)) = true :=
      List.any_eq_true.mpr ⟨0, h, rfl⟩
    rw [Mode.offsetsOf, List.head?_filter, List.range_succ_eq_map, List.find?_cons_of_pos]
    exact hnote
  length_le := List.length_filter_le _ _
  within n hn := List.mem_range.mp (List.mem_filter.mp hn).1
  rises := List.pairwise_lt_range.filter _

/-- The degrees of every named scale rise. -/
theorem rising_intervals {type : String} {intervals : List Interval}
    (h : Scale.intervals type = .ok intervals) : Rising intervals := by
  simp only [Scale.intervals] at h
  split at h
  · cases h
  · split at h
    · cases h
      exact ascending_range.rising_ofOffsets
    · split at h
      next hfind =>
        cases h
        exact rising_of_mem_spelled (List.mem_of_find?_eq_some hfind)
      next =>
        split at h
        next hmode =>
          cases h
          obtain ⟨m, -, hdegrees⟩ := Option.map_eq_some_iff.mp hmode
          rw [← hdegrees]
          exact (ascending_offsetsOf m.zero_mem_notes).rising_ofOffsets
        next => cases h

/-! ### Steps of rising degrees -/

variable {intervals : List Interval} {tonic p q : Pitch} {o : Int32} {s t : Int}

theorem Rising.ne_nil (h : Rising intervals) : intervals ≠ [] := by
  rintro rfl
  exact absurd h.head (Option.some_ne_none _).symm

theorem Rising.length_lt (h : Rising intervals) : intervals.length < 2147483648 :=
  Nat.lt_of_le_of_lt h.length_le (by decide)

theorem Rising.length_pos (h : Rising intervals) : 0 < (intervals.length : Int) := by
  exact_mod_cast List.length_pos_of_ne_nil h.ne_nil

/-- Step 0 is the first degree, in its own octave. -/
theorem Rising.degree_zero (h : Rising intervals) :
    intervals[((0 : Int) % intervals.length).toNat]? = some Interval.unison := by
  rw [Int.zero_emod, Int.toNat_zero, ← List.head?_eq_getElem?]
  exact h.head

/-- A later step is a later degree of the same octave, or in a later octave. -/
theorem Rising.rises_on (h : Rising intervals) {low high : Interval} (hst : s < t)
    (hlow : intervals[(s % intervals.length).toNat]? = some low)
    (hhigh : intervals[(t % intervals.length).toNat]? = some high) :
    low.steps.toInt + 7 * (s / intervals.length) ≤
        high.steps.toInt + 7 * (t / intervals.length) ∧
      low.semitones.toInt + 12 * (s / intervals.length) <
        high.semitones.toInt + 12 * (t / intervals.length) := by
  have hpos := h.length_pos
  rcases Int.lt_or_eq_of_le (Int.ediv_le_ediv hpos (Int.le_of_lt hst)) with hoctave | hoctave
  · -- An octave is more than lies between any two degrees.
    have hwithin := h.within low (List.mem_of_getElem? hlow)
    have hwithin' := h.within high (List.mem_of_getElem? hhigh)
    omega
  · have hplace : (s % intervals.length).toNat < (t % intervals.length).toNat := by
      have hnonneg := Int.emod_nonneg s (Int.ne_of_gt hpos)
      have hs := Int.emod_add_mul_ediv s intervals.length
      have ht := Int.emod_add_mul_ediv t intervals.length
      rw [hoctave] at hs
      omega
    obtain ⟨hs, rfl⟩ := List.getElem?_eq_some_iff.mp hlow
    obtain ⟨ht, rfl⟩ := List.getElem?_eq_some_iff.mp hhigh
    have hrises := List.pairwise_iff_getElem.mp h.rises _ _ hs ht hplace
    omega

/-- With a degree for each letter, steps count letters. -/
theorem Rising.counts_letters (h : Rising intervals) (hseven : intervals.length = 7)
    {degree : Interval} (hdegree : intervals[(s % intervals.length).toNat]? = some degree) :
    degree.steps.toInt + 7 * (s / intervals.length) = s := by
  obtain ⟨hs, rfl⟩ := List.getElem?_eq_some_iff.mp hdegree
  rw [h.letters hseven _ hs, hseven]
  omega

/-- The degree that a step is reached by, and what it adds to the letters and to the semitones of
the tonic. -/
theorem Rising.exists_degree_of_step (h : Rising intervals) (ho : tonic.octave = some o)
    (htonic : InWord tonic.semitones) {step : Binary64} (hstep : step.value? = some (s : Rat))
    (hp : stepToPitch tonic intervals step = some p) :
    ∃ degree, intervals[(s % intervals.length).toNat]? = some degree ∧
      ∃ a, p.octave = some a ∧
        7 * a.toInt + p.letter.index = 7 * o.toInt + tonic.letter.index
          + (degree.steps.toInt + 7 * (s / intervals.length)) ∧
        12 * a.toInt + p.semitones = 12 * o.toInt + tonic.semitones
          + (degree.semitones.toInt + 12 * (s / intervals.length)) := by
  obtain ⟨degree, hdegree⟩ := exists_degree h.ne_nil s
  have hspelling :=
    ((stepToPitch_eq_some_iff h.ne_nil h.length_lt htonic hstep hdegree).mp hp).2
  exact ⟨degree, hdegree, Pitch.exists_octave_of_spelling_eq_moved hspelling ho⟩

/-- Whatever the tonic, as long as it has a chroma, moving it nowhere fits. -/
theorem Rising.step_zero (h : Rising intervals) (htonic : InWord tonic.semitones)
    {step : Binary64} (hstep : step.value? = some ((0 : Int) : Rat)) :
    stepToPitch tonic intervals step = some tonic := by
  rw [stepToPitch_eq_some_iff h.ne_nil h.length_lt htonic hstep h.degree_zero, Int.zero_ediv]
  refine ⟨?_, Spelling.moved_zero.symm⟩
  exact List.forall_mem_append.mpr ⟨by decide, Spelling.inWord_onTheWay_zero htonic⟩

/-- **Named scales rise.**  Over all the octaves, a later step of a named scale sounds higher, and
does not stand lower on the staff; step 0 is the tonic.  If the scale has seven degrees, a step
stands as many letters from the tonic as it counts, and two steps share a letter only if they are
the same degree. -/
theorem named_scales_rise {type : String} (hscale : Scale.intervals type = .ok intervals)
    (ho : tonic.octave = some o) (htonic : InWord tonic.semitones) :
    (∀ step : Binary64, step.value? = some ((0 : Int) : Rat) →
      stepToPitch tonic intervals step = some tonic) ∧
    (∀ (s t : Int) (low high : Binary64) (p q : Pitch),
      low.value? = some (s : Rat) → high.value? = some (t : Rat) → s < t →
      stepToPitch tonic intervals low = some p → stepToPitch tonic intervals high = some q →
      ∃ a b, p.octave = some a ∧ q.octave = some b ∧
        12 * a.toInt + p.semitones < 12 * b.toInt + q.semitones ∧
        7 * a.toInt + p.letter.index ≤ 7 * b.toInt + q.letter.index) ∧
    (intervals.length = 7 →
      (∀ (s : Int) (step : Binary64) (p : Pitch),
        step.value? = some (s : Rat) → stepToPitch tonic intervals step = some p →
        ∃ a, p.octave = some a ∧
          7 * a.toInt + p.letter.index = 7 * o.toInt + tonic.letter.index + s) ∧
      ∀ (s t : Int) (low high : Binary64) (p q : Pitch),
        low.value? = some (s : Rat) → high.value? = some (t : Rat) →
        stepToPitch tonic intervals low = some p → stepToPitch tonic intervals high = some q →
        (p.letter = q.letter ↔ s % 7 = t % 7)) := by
  have hrising := rising_intervals hscale
  have hcounts (hseven : intervals.length = 7) (s : Int) (step : Binary64) (p : Pitch)
      (hstep : step.value? = some (s : Rat)) (hp : stepToPitch tonic intervals step = some p) :
      ∃ a, p.octave = some a ∧
        7 * a.toInt + p.letter.index = 7 * o.toInt + tonic.letter.index + s := by
    obtain ⟨degree, hdegree, a, ha, hletters, -⟩ :=
      hrising.exists_degree_of_step ho htonic hstep hp
    rw [hrising.counts_letters hseven hdegree] at hletters
    exact ⟨a, ha, hletters⟩
  refine ⟨fun step => hrising.step_zero htonic, fun s t low high p q hlow hhigh hst hp hq => ?_,
    fun hseven => ⟨hcounts hseven, fun s t low high p q hlow hhigh hp hq => ?_⟩⟩
  · obtain ⟨degree, hdegree, a, ha, hletters, hsemitones⟩ :=
      hrising.exists_degree_of_step ho htonic hlow hp
    obtain ⟨degree', hdegree', b, hb, hletters', hsemitones'⟩ :=
      hrising.exists_degree_of_step ho htonic hhigh hq
    have hrises := hrising.rises_on hst hdegree hdegree'
    exact ⟨a, b, ha, hb, by omega, by omega⟩
  · obtain ⟨a, -, hletters⟩ := hcounts hseven s low p hlow hp
    obtain ⟨b, -, hletters'⟩ := hcounts hseven t high q hhigh hq
    have hp := p.letter.index_lt
    have hq := q.letter.index_lt
    constructor
    · intro h
      rw [h] at hletters
      omega
    · intro h
      exact Letter.eq_of_index (by omega)

/-- The harmonic minor scale of E flat, from its leading tone below the tonic to the second degree
above the next one. -/
theorem named_scales_rise_harmonic_minor :
    let intervals := degrees [(0, 0), (1, 2), (2, 3), (3, 5), (4, 7), (5, 8), (6, 11)]
    let eFlat : Pitch := ⟨.e, -1, some 3⟩
    let leading : Pitch := ⟨.d, 0, some 3⟩
    let second : Pitch := ⟨.f, 0, some 4⟩
    let down : Binary64 := .finite (-1)
    let up : Binary64 := .finite 8
    Scale.intervals "Harmonic  Minor" = .ok intervals ∧ InWord eFlat.semitones ∧
      down.value? = some ((-1 : Int) : Rat) ∧ up.value? = some ((8 : Int) : Rat) ∧
      stepToPitch eFlat intervals down = some leading ∧
      stepToPitch eFlat intervals up = some second ∧
      stepToPitch eFlat intervals .negativeZero = some eFlat ∧
      (∃ a b, leading.octave = some a ∧ second.octave = some b ∧
        12 * a.toInt + leading.semitones < 12 * b.toInt + second.semitones ∧
        7 * a.toInt + leading.letter.index ≤ 7 * b.toInt + second.letter.index) ∧
      ∃ a, second.octave = some a ∧
        7 * a.toInt + second.letter.index = 7 * (3 : Int32).toInt + eFlat.letter.index + 8 := by
  intro intervals eFlat leading second down up
  have hscale : Scale.intervals "Harmonic  Minor" = .ok intervals := by decide +kernel
  have htonic : InWord eFlat.semitones := by decide
  have hdown : down.value? = some ((-1 : Int) : Rat) := by decide +kernel
  have hup : up.value? = some ((8 : Int) : Rat) := by decide +kernel
  have hleading : stepToPitch eFlat intervals down = some leading := by decide +kernel
  have hsecond : stepToPitch eFlat intervals up = some second := by decide +kernel
  obtain ⟨hzero, hrises, hletters⟩ := named_scales_rise hscale rfl htonic
  exact ⟨hscale, htonic, hdown, hup, hleading, hsecond, hzero _ (by decide +kernel),
    hrises (-1) 8 down up leading second hdown hup (by decide) hleading hsecond,
    (hletters rfl).1 8 up second hup hsecond⟩

end CyclePatterns.Scale

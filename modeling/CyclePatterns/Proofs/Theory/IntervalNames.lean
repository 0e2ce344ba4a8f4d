/-
Intervals as they are spelled and named.

A number of semitones is spelled by its whole octaves and what is left of it, and downward like
upward with the signs turned, so that spellings an octave apart differ by an octave.  A name is
the number of letters that an interval spans, with a minus if it leads down, and its quality.
No quality begins like a number goes on, so a name says where its number ends.  The number tells
the direction and the letter steps.  These tell whether the interval is perfect, and then the
quality tells how far it is altered, however far that is: a perfect interval lowered once is
diminished already, a major one only minor.
-/
import CyclePatterns.Proofs.Text.Fractions
import CyclePatterns.Theory.Interval

namespace CyclePatterns

open Notation.Written (Decimal)

namespace Interval

variable {i j : Interval} {n k m : Int32}

/-! ### Signs turned -/

theorem inWord_neg_of_natCast {a : Nat} (h : InWord a) : InWord (-(a : Int)) := by
  have hhigh := h.2
  rw [InWord]
  omega

/-- Only the least word cannot have its sign turned. -/
theorem inWord_neg_iff : InWord (-n.toInt) ↔ n ≠ Int32.minValue := by
  have hleast : n = Int32.minValue ↔ n.toInt = -2147483648 := Int32.toInt_inj.symm
  have hword := inWord_toInt n
  rw [ne_eq, hleast]
  rw [InWord] at hword ⊢
  omega

/-! ### Usual spellings -/

/-- The letter steps of a number of semitones. -/
def spelledSteps (semitones : Nat) : Nat :=
  usualSteps (semitones % 12) + 7 * (semitones / 12)

/-- The usual spelling upward. -/
def spelled (semitones : Nat) : Interval :=
  ⟨Int32.ofInt (spelledSteps semitones), Int32.ofInt semitones⟩

theorem ofSemitones_eq (n : Int32) :
    ofSemitones n =
      if n.toInt < 0 then (spelled n.toInt.natAbs).neg else spelled n.toInt.natAbs := by
  have hsign : n < 0 ↔ n.toInt < 0 := Int32.lt_iff_toInt_lt
  by_cases hn : n.toInt < 0
  · rw [if_pos hn, ofSemitones, if_pos (hsign.mpr hn)]
    rfl
  · rw [if_neg hn, ofSemitones, if_neg (mt hsign.mp hn)]
    rfl

theorem spelledSteps_octaves (semitones octaves : Nat) :
    spelledSteps (semitones + 12 * octaves) = spelledSteps semitones + 7 * octaves := by
  rw [spelledSteps, spelledSteps, Nat.add_mul_mod_self_left,
    Nat.add_mul_div_left _ _ (by decide : 0 < 12), Nat.mul_add, Nat.add_assoc]

/-- Octaves have fewer letters than semitones, and what is left of one has few of either. -/
theorem inWord_spelledSteps {semitones : Nat} (h : InWord semitones) :
    InWord (spelledSteps semitones) := by
  have hrest := usualSteps_lt (semitones % 12)
  have hhigh := h.2
  rw [InWord, spelledSteps]
  omega

theorem inWord_natAbs (hn : n ≠ Int32.minValue) : InWord n.toInt.natAbs := by
  have hword := inWord_toInt n
  have hneg := inWord_neg_iff.mpr hn
  rw [InWord] at hword hneg ⊢
  omega

/-- What is spelled has the semitones asked for, and the letter steps for them on either side. -/
theorem toInt_ofSemitones (hn : n ≠ Int32.minValue) :
    (ofSemitones n).semitones.toInt = n.toInt ∧
      (ofSemitones n).steps.toInt =
        if n.toInt < 0 then -(spelledSteps n.toInt.natAbs : Int)
        else spelledSteps n.toInt.natAbs := by
  have hsize := inWord_natAbs hn
  have hletters := inWord_spelledSteps hsize
  have hsteps : (spelled n.toInt.natAbs).steps.toInt = spelledSteps n.toInt.natAbs :=
    toInt_ofInt_of_inWord hletters
  have hsemitones : (spelled n.toInt.natAbs).semitones.toInt = n.toInt.natAbs :=
    toInt_ofInt_of_inWord hsize
  rw [ofSemitones_eq]
  by_cases hdown : n.toInt < 0
  · rw [if_pos hdown, if_pos hdown, neg,
      toInt_neg_of_inWord hsteps (inWord_neg_of_natCast hletters),
      toInt_neg_of_inWord hsemitones (inWord_neg_of_natCast hsize)]
    exact ⟨by omega, rfl⟩
  · rw [if_neg hdown, if_neg hdown, hsteps, hsemitones]
    exact ⟨by omega, rfl⟩

/-- Downward is upward with the signs turned. -/
theorem ofSemitones_neg (hn : n ≠ Int32.minValue) : ofSemitones (-n) = (ofSemitones n).neg := by
  rw [ofSemitones_eq, ofSemitones_eq, toInt_neg_of_inWord rfl (inWord_neg_iff.mpr hn),
    Int.natAbs_neg]
  rcases lt_trichotomy n.toInt 0 with hdown | hzero | hup
  · rw [if_pos hdown, if_neg (by omega), neg_neg]
  · rw [hzero]
    rfl
  · rw [if_pos (by omega), if_neg (by omega)]

/-- Octaves are spelled as they are counted. -/
theorem octaves?_eq_ofSemitones (hm : m.toInt = 12 * k.toInt) :
    octaves? k = some (ofSemitones m) := by
  have hne : m ≠ Int32.minValue := by
    rintro rfl
    have hleast : Int32.minValue.toInt = -2147483648 := rfl
    omega
  obtain ⟨hsemitones, hsteps⟩ := toInt_ofSemitones hne
  have hsize : m.toInt.natAbs = 0 + 12 * k.toInt.natAbs := by omega
  have hletters : spelledSteps m.toInt.natAbs = 7 * k.toInt.natAbs := by
    rw [hsize, spelledSteps_octaves]
    exact Nat.zero_add _
  rw [octaves?_eq_some_iff, hsteps, hsemitones, hletters]
  split <;> omega

theorem toInt_ofSemitones_of_nonneg (hn : 0 ≤ n.toInt) :
    (ofSemitones n).semitones.toInt = n.toInt ∧
      (ofSemitones n).steps.toInt = spelledSteps n.toInt.natAbs := by
  have hne : n ≠ Int32.minValue := by
    rintro rfl
    exact absurd hn (by decide)
  obtain ⟨hsemitones, hsteps⟩ := toInt_ofSemitones hne
  rw [if_neg (not_lt.mpr hn)] at hsteps
  exact ⟨hsemitones, hsteps⟩

/-- Upward, octaves add to a spelling what they count. -/
theorem ofSemitones_octaves (hn : 0 ≤ n.toInt) (hk : 0 ≤ k.toInt)
    (hm : m.toInt = n.toInt + 12 * k.toInt) :
    ∃ octaves, octaves? k = some octaves ∧
      (ofSemitones n).checkedAdd octaves = some (ofSemitones m) := by
  have hword : InWord (12 * k.toInt) := by
    have hmword := inWord_toInt m
    rw [InWord] at hmword ⊢
    omega
  obtain ⟨o, ho⟩ := exists_toInt_eq_iff.mpr hword
  have hoctaves := octaves?_eq_ofSemitones ho
  refine ⟨ofSemitones o, hoctaves, checkedAdd_eq_some_iff.mpr ?_⟩
  obtain ⟨hosteps, hosemitones⟩ := octaves?_eq_some_iff.mp hoctaves
  obtain ⟨hnsemitones, hnsteps⟩ := toInt_ofSemitones_of_nonneg hn
  obtain ⟨hmsemitones, hmsteps⟩ := toInt_ofSemitones_of_nonneg (n := m) (by omega)
  have hsize : m.toInt.natAbs = n.toInt.natAbs + 12 * k.toInt.natAbs := by omega
  rw [hsize, spelledSteps_octaves] at hmsteps
  constructor <;> omega

/-! ### Qualities -/

/-- If its sign can be turned, an alteration has the quality that it has without bounds. -/
theorem quality_eq (perfect : Bool) {a : Int32} (h : InWord (-a.toInt)) :
    quality perfect a =
      if a.toInt = 0 then (if perfect then ['P'] else ['M'])
      else if 0 < a.toInt then List.replicate a.toInt.toNat 'A'
      else if perfect then List.replicate (-a.toInt).toNat 'd'
      else if a.toInt = -1 then ['m']
      else List.replicate (-a.toInt - 1).toNat 'd' := by
  have hneg := toInt_neg_of_inWord rfl h
  have hpred : (-a - 1).toInt = -a.toInt - 1 := by
    refine toInt_sub_of_inWord hneg Int32.toInt_one ?_
    have hhigh := (inWord_toInt a).2
    rw [InWord] at h ⊢
    omega
  have hzero : a = 0 ↔ a.toInt = 0 := Int32.toInt_inj.symm
  have hone : a = -1 ↔ a.toInt = -1 := Int32.toInt_inj.symm
  have hsign : 0 < a ↔ 0 < a.toInt := Int32.lt_iff_toInt_lt
  simp only [quality, hneg, hpred, hzero, hone, hsign]

/-- The alteration that a quality stands for. -/
def alterationOf (perfect : Bool) : List Char → Int
  | 'm' :: _ => -1
  | 'A' :: more => more.length + 1
  | 'd' :: more => if perfect then -(more.length + 1) else -(more.length + 2)
  | _ => 0

/-- A quality tells the alteration, if it is known whether the interval is perfect. -/
theorem alterationOf_quality (perfect : Bool) {a : Int32} (h : InWord (-a.toInt)) :
    alterationOf perfect (quality perfect a) = a.toInt := by
  have hrun {count : Nat} (c : Char) (hcount : 0 < count) :
      List.replicate count c = c :: List.replicate (count - 1) c := by
    rw [← List.replicate_succ, Nat.sub_add_cancel hcount]
  rw [quality_eq perfect h]
  split
  next hzero =>
    rw [hzero]
    cases perfect <;> rfl
  split
  next hup =>
    rw [hrun 'A' (by omega), alterationOf, List.length_replicate]
    omega
  split
  next hperfect =>
    rw [hrun 'd' (by omega), alterationOf, if_pos hperfect, List.length_replicate]
    omega
  split
  next hone => exact hone.symm
  next hmore =>
    rw [hrun 'd' (by omega), alterationOf, if_neg (by assumption), List.length_replicate]
    omega

/-- A character that a number is written with. -/
def InNumber (c : Char) : Bool :=
  c == '-' || c.isDigit

/-- A quality repeats one character, which no number is written with. -/
theorem exists_replicate_eq_quality (perfect : Bool) (a : Int32) :
    ∃ c, InNumber c = false ∧ ∃ count, quality perfect a = List.replicate count c := by
  unfold quality
  split
  · cases perfect
    · exact ⟨'M', rfl, 1, rfl⟩
    · exact ⟨'P', rfl, 1, rfl⟩
  split
  · exact ⟨'A', rfl, _, rfl⟩
  split
  · exact ⟨'d', rfl, _, rfl⟩
  split
  · exact ⟨'m', rfl, 1, rfl⟩
  · exact ⟨'d', rfl, _, rfl⟩

theorem inNumber_of_mem_quality {perfect : Bool} {a : Int32} {c : Char}
    (h : c ∈ quality perfect a) : InNumber c = false := by
  obtain ⟨d, hd, count, hcount⟩ := exists_replicate_eq_quality perfect a
  rw [hcount] at h
  rw [List.eq_of_mem_replicate h]
  exact hd

/-! ### Spans -/

/-- Semitones of the major or perfect interval with a number of letter steps, without bounds. -/
def naturalSemitones (steps : Int) : Int :=
  (Letter.fromC steps).semitones + 12 * (steps / 7)

/-- What is computed for the name of an interval that leads up: the letters it spans, the
semitones of its octaves, those of the major or perfect interval, and the alteration, whose sign
is turned if it is below zero and could be turned if it is not. -/
def spanNumbers (steps semitones : Int) : List Int :=
  let alteration := semitones - naturalSemitones steps
  [steps + 1, 12 * (steps / 7), naturalSemitones steps, alteration, -alteration]

/-- An interval that leads up, with nothing computed for its name that does not fit. -/
structure SpansUp (i : Interval) : Prop where
  nonneg : 0 ≤ i.steps.toInt
  fits : ∀ n ∈ spanNumbers i.steps.toInt i.semitones.toInt, InWord n

theorem forall_spanNumbers {P : Int → Prop} {steps semitones : Int} :
    (∀ n ∈ spanNumbers steps semitones, P n) ↔
      P (steps + 1) ∧ P (12 * (steps / 7)) ∧ P (naturalSemitones steps) ∧
        P (semitones - naturalSemitones steps) ∧ P (-(semitones - naturalSemitones steps)) := by
  simp only [spanNumbers, List.forall_mem_cons, List.not_mem_nil, false_implies, implies_true,
    and_true]

theorem SpansUp.toInt_number (h : i.SpansUp) : (i.steps + 1).toInt = i.steps.toInt + 1 :=
  toInt_add_of_inWord rfl Int32.toInt_one (forall_spanNumbers.mp h.fits).1

theorem toInt_natural {steps : Int32} (hoctaves : InWord (12 * (steps.toInt / 7)))
    (hnatural : InWord (naturalSemitones steps.toInt)) :
    (natural steps).toInt = naturalSemitones steps.toInt := by
  have hletter : (Int32.ofInt (Letter.fromC steps.toInt).semitones).toInt
      = (Letter.fromC steps.toInt).semitones := by
    cases Letter.fromC steps.toInt <;> rfl
  have hcount : (Int32.ofInt (steps.toInt / 7)).toInt = steps.toInt / 7 := by
    have hword := inWord_toInt steps
    refine toInt_ofInt_of_inWord ?_
    rw [InWord] at hword ⊢
    omega
  have htwelve : (12 : Int32).toInt = 12 := rfl
  exact toInt_add_of_inWord hletter (toInt_mul_of_inWord htwelve hcount hoctaves) hnatural

theorem SpansUp.toInt_alteration (h : i.SpansUp) :
    i.alteration.toInt = i.semitones.toInt - naturalSemitones i.steps.toInt ∧
      InWord (-i.alteration.toInt) := by
  obtain ⟨-, hoctaves, hnatural, halteration, hneg⟩ := forall_spanNumbers.mp h.fits
  have hexact : i.alteration.toInt = i.semitones.toInt - naturalSemitones i.steps.toInt :=
    toInt_sub_of_inWord rfl (toInt_natural hoctaves hnatural) halteration
  exact ⟨hexact, by rw [hexact]; exact hneg⟩

/-- The letter steps and the quality tell an interval. -/
theorem SpansUp.eq_of_quality (hi : i.SpansUp) (hj : j.SpansUp)
    (hsteps : i.steps.toInt = j.steps.toInt)
    (hquality : quality i.isPerfect i.alteration = quality j.isPerfect j.alteration) : i = j := by
  obtain ⟨hialteration, hineg⟩ := hi.toInt_alteration
  obtain ⟨hjalteration, hjneg⟩ := hj.toInt_alteration
  have hperfect : i.isPerfect = j.isPerfect := by rw [isPerfect, isPerfect, hsteps]
  have halteration := congrArg (alterationOf i.isPerfect) hquality
  rw [alterationOf_quality _ hineg, hperfect, alterationOf_quality _ hjneg, hialteration,
    hjalteration, hsteps] at halteration
  exact eq_of_toInt hsteps (by omega)

/-! ### Names -/

theorem isDescending_iff :
    i.isDescending = true ↔
      i.steps.toInt < 0 ∨ i.steps.toInt = 0 ∧ i.semitones.toInt < 0 := by
  simp only [isDescending, Bool.or_eq_true, Bool.and_eq_true, decide_eq_true_eq, beq_iff_eq,
    Int32.lt_iff_toInt_lt, ← Int32.toInt_inj, Int32.toInt_zero]

/-- What is computed for the name of an interval. -/
def nameNumbers (i : Interval) : List Int :=
  if i.isDescending then
    [-i.steps.toInt, -i.semitones.toInt] ++ spanNumbers (-i.steps.toInt) (-i.semitones.toInt)
  else spanNumbers i.steps.toInt i.semitones.toInt

/-- All that is computed for the name of an interval fits into words. -/
def Nameable (i : Interval) : Prop :=
  ∀ n ∈ i.nameNumbers, InWord n

instance (i : Interval) : Decidable i.Nameable :=
  inferInstanceAs (Decidable (∀ n ∈ i.nameNumbers, InWord n))

/-- The interval or its opposite, whichever leads up. -/
def upward (i : Interval) : Interval :=
  if i.isDescending then i.neg else i

theorem Nameable.spansUp_upward (h : i.Nameable) : i.upward.SpansUp := by
  unfold Nameable nameNumbers at h
  unfold upward
  split at h
  next hdown =>
    rw [if_pos hdown]
    obtain ⟨hboth, hnumbers⟩ := List.forall_mem_append.mp h
    have hsteps : i.neg.steps.toInt = -i.steps.toInt :=
      toInt_neg_of_inWord rfl (hboth _ List.mem_cons_self)
    have hsemitones : i.neg.semitones.toInt = -i.semitones.toInt :=
      toInt_neg_of_inWord rfl (hboth _ (List.mem_cons_of_mem _ List.mem_cons_self))
    have hnonneg := isDescending_iff.mp hdown
    exact ⟨by omega, by rw [hsteps, hsemitones]; exact hnumbers⟩
  next hup =>
    rw [if_neg hup]
    have hnonneg := mt isDescending_iff.mpr hup
    exact ⟨by omega, h⟩

/-- The number in a name. -/
def number (i : Interval) : Int :=
  if i.isDescending then -(i.upward.steps.toInt + 1) else i.upward.steps.toInt + 1

/-- A name is a number and a quality. -/
theorem Nameable.name_eq (h : i.Nameable) :
    i.name = Text.integer i.number ++
      String.ofList (quality i.upward.isPerfect i.upward.alteration) := by
  have hnumber := h.spansUp_upward.toInt_number
  have hnonneg := h.spansUp_upward.nonneg
  by_cases hdown : i.isDescending = true
  · have hup : i.upward = i.neg := if_pos hdown
    rw [number, if_pos hdown, Text.integer_neg (by omega), ← hnumber, name, if_pos hdown, span, hup,
      String.append_assoc]
  · have hup : i.upward = i := if_neg hdown
    rw [number, if_neg hdown, ← hnumber, name, if_neg hdown, span, hup]

theorem inNumber_of_mem_integer {a : Int} {c : Char} (h : c ∈ (Text.integer a).toList) :
    InNumber c = true := by
  rw [← Decimal.chars_ofInt] at h
  rw [InNumber, Bool.or_eq_true, beq_iff_eq]
  exact Decimal.mem_ofInt h

/-- A name tells its number and its quality. -/
theorem Nameable.eq_of_name_eq (hi : i.Nameable) (hj : j.Nameable) (h : i.name = j.name) :
    i.number = j.number ∧
      quality i.upward.isPerfect i.upward.alteration =
        quality j.upward.isPerfect j.upward.alteration := by
  have hchars := congrArg String.toList h
  rw [hi.name_eq, hj.name_eq, String.toList_append, String.toList_append, String.toList_ofList,
    String.toList_ofList] at hchars
  obtain ⟨hnumbers, hqualities⟩ := Text.run_append_inj
    (fun c => inNumber_of_mem_integer) (fun c => inNumber_of_mem_integer)
    (fun c hc => inNumber_of_mem_quality (List.mem_of_mem_head? hc))
    (fun c hc => inNumber_of_mem_quality (List.mem_of_mem_head? hc)) hchars
  have hread := congrArg Text.integer? hnumbers
  rw [← Decimal.chars_ofInt, ← Decimal.chars_ofInt, Decimal.integer?_ofInt,
    Decimal.integer?_ofInt] at hread
  exact ⟨Option.some.inj hread, hqualities⟩

theorem eq_of_upward (hdown : i.isDescending = j.isDescending) (hup : i.upward = j.upward) :
    i = j := by
  rw [upward, upward, hdown] at hup
  split at hup
  · rw [← neg_neg i, hup, neg_neg]
  · exact hup

/-- An interval has its name for itself. -/
theorem Nameable.name_injective (hi : i.Nameable) (hj : j.Nameable) (h : i.name = j.name) :
    i = j := by
  obtain ⟨hnumber, hquality⟩ := hi.eq_of_name_eq hj h
  have hispans := hi.spansUp_upward
  have hjspans := hj.spansUp_upward
  have hinonneg := hispans.nonneg
  have hjnonneg := hjspans.nonneg
  -- The sign of the number tells the direction, since it is not zero.
  have hboth : i.isDescending = j.isDescending ∧
      i.upward.steps.toInt = j.upward.steps.toInt := by
    rw [number, number] at hnumber
    cases hidown : i.isDescending <;> cases hjdown : j.isDescending <;>
      simp only [hidown, hjdown, if_true, Bool.false_eq_true, if_false] at hnumber
    · exact ⟨rfl, by omega⟩
    · omega
    · omega
    · exact ⟨rfl, by omega⟩
  exact eq_of_upward hboth.1 (hispans.eq_of_quality hjspans hboth.2 hquality)

/-- A usual spelling is altered by one semitone at most, so that all its numbers fit. -/
theorem inWord_spanNumbers {semitones : Nat} (h : InWord semitones) :
    ∀ n ∈ spanNumbers (spelledSteps semitones) semitones, InWord n := by
  have hrest : semitones % 12 < 12 := Nat.mod_lt _ (by decide)
  have hletters := usualSteps_lt (semitones % 12)
  have hoctaves : (spelledSteps semitones : Int) / 7 = (semitones / 12 : Nat) := by
    rw [spelledSteps]
    omega
  have hletter : Letter.fromC (spelledSteps semitones)
      = Letter.fromC (usualSteps (semitones % 12)) := by
    refine Letter.fromC_congr ?_
    rw [spelledSteps]
    omega
  have hnear : ∀ r : Nat, r < 12 → (r : Int) ≤ (Letter.fromC (usualSteps r)).semitones ∧
      (Letter.fromC (usualSteps r)).semitones ≤ r + 1 ∧
      (r ≤ 7 → (Letter.fromC (usualSteps r)).semitones ≤ 7) := by
    decide
  -- The greatest word is a fifth above its octaves, which no smaller rest is spelled beyond.
  obtain ⟨hlow, hhigh, hfifth⟩ := hnear _ hrest
  have hword := inWord_spelledSteps h
  rw [InWord] at h hword
  simp only [forall_spanNumbers, naturalSemitones, hoctaves, hletter, InWord]
  omega

/-- Usual spellings have names. -/
theorem nameable_ofSemitones (hn : n ≠ Int32.minValue) : (ofSemitones n).Nameable := by
  obtain ⟨hsemitones, hsteps⟩ := toInt_ofSemitones hn
  have hsize := inWord_natAbs hn
  have hspan := inWord_spanNumbers hsize
  unfold Nameable nameNumbers
  by_cases hdown : n.toInt < 0
  · rw [if_pos hdown] at hsteps
    rw [if_pos (isDescending_iff.mpr (by omega)), hsteps, hsemitones, Int.neg_neg,
      (by omega : -n.toInt = n.toInt.natAbs)]
    exact List.forall_mem_append.mpr ⟨List.forall_mem_cons.mpr ⟨inWord_spelledSteps hsize,
      List.forall_mem_singleton.mpr hsize⟩, hspan⟩
  · rw [if_neg hdown] at hsteps
    rw [if_neg (mt isDescending_iff.mp (by omega)), hsteps, hsemitones]
    rw [Int.natAbs_of_nonneg (Int.not_lt.mp hdown)] at hspan
    exact hspan

/-- **Intervals are spelled alike, and named apart.**  Any number of semitones but the least has a
spelling with as many, which downward is that of upward with the signs turned.  Upward, octaves
add to a spelling what they count, and they are spelled as they count, downward too.  Intervals
for whose names all numbers fit into words have different names if they differ. -/
theorem spelled_alike_named_apart :
    (∀ n : Int32, n ≠ Int32.minValue →
      (ofSemitones n).semitones = n ∧ ofSemitones (-n) = (ofSemitones n).neg) ∧
    (∀ n k m : Int32, 0 ≤ n.toInt → 0 ≤ k.toInt → m.toInt = n.toInt + 12 * k.toInt →
      ∃ octaves, octaves? k = some octaves ∧
        (ofSemitones n).checkedAdd octaves = some (ofSemitones m) ∧
        (ofSemitones n).add octaves = ofSemitones m) ∧
    (∀ k m : Int32, m.toInt = 12 * k.toInt → octaves? k = some (ofSemitones m)) ∧
    ∀ i j : Interval, i.Nameable → j.Nameable → i.name = j.name → i = j := by
  refine ⟨fun n hn => ⟨Int32.toInt_inj.mp (toInt_ofSemitones hn).1, ofSemitones_neg hn⟩,
    fun n k m hn hk hm => ?_, fun k m => octaves?_eq_ofSemitones,
    fun i j hi hj => hi.name_injective hj⟩
  obtain ⟨octaves, hoctaves, hsum⟩ := ofSemitones_octaves hn hk hm
  exact ⟨octaves, hoctaves, hsum, add_of_checkedAdd hsum⟩

/-- An eleventh down and up, a fourth and two octaves, three octaves down, and the unison that is
lowered twice. -/
theorem spelled_alike_named_apart_elevenths :
    ((-17 : Int32) ≠ Int32.minValue ∧ (ofSemitones (-17)).semitones = -17 ∧
      ofSemitones 17 = (ofSemitones (-17)).neg) ∧
    (∃ octaves, octaves? 2 = some octaves ∧
      (ofSemitones 5).checkedAdd octaves = some (ofSemitones 29) ∧
      (ofSemitones 5).add octaves = ofSemitones 29) ∧
    octaves? (-3) = some (ofSemitones (-36)) ∧
    (let i : Interval := ⟨0, -2⟩
    let j : Interval := neg ⟨0, 2⟩
    i.Nameable ∧ j.Nameable ∧ i.name = "-1AA" ∧ j.name = "-1AA" ∧ i = j) := by
  obtain ⟨hspelled, hup, hoctaves, hnames⟩ := spelled_alike_named_apart
  have hfirst : Nameable ⟨0, -2⟩ := by decide
  have hsecond : Nameable (neg ⟨0, 2⟩) := by decide
  have hfirstName : name ⟨0, -2⟩ = "-1AA" := by decide +kernel
  have hsecondName : name (neg ⟨0, 2⟩) = "-1AA" := by decide +kernel
  exact ⟨⟨by decide, hspelled (-17) (by decide)⟩, hup 5 2 29 (by decide) (by decide) (by decide),
    hoctaves (-3) (-36) (by decide), hfirst, hsecond, hfirstName, hsecondName,
    hnames _ _ hfirst hsecond (hfirstName.trans hsecondName.symm)⟩

end Interval

end CyclePatterns

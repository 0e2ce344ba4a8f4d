/-
Spelled intervals.

An interval is a number of letter steps together with a number of semitones, which is
what tells a minor third from an augmented second.  Both are words of 32 bits; what
does not fit is refused by `checkedAdd` and `octaves?`, while `add`, `neg` and the numbers
that a name is made of are plain word arithmetic.
-/
import CyclePatterns.Text.Integer
import CyclePatterns.Theory.Letter

namespace CyclePatterns

/-- An integer that a word of 32 bits can hold. -/
def InWord (n : Int) : Prop :=
  -2147483648 ≤ n ∧ n ≤ 2147483647

instance (n : Int) : Decidable (InWord n) :=
  inferInstanceAs (Decidable (_ ∧ _))

/-- An integer as a word of 32 bits, if it fits. -/
def narrow (n : Int) : Option Int32 :=
  if InWord n then some (Int32.ofInt n) else none

theorem inWord_toInt (w : Int32) : InWord w.toInt :=
  ⟨Int32.le_toInt w, Int.le_of_lt_add_one (Int32.toInt_lt w)⟩

theorem toInt_ofInt_of_inWord {n : Int} (h : InWord n) : (Int32.ofInt n).toInt = n :=
  Int32.toInt_ofInt_of_le h.1 (Int.lt_add_one_of_le h.2)

theorem exists_toInt_eq_iff {n : Int} : (∃ w : Int32, w.toInt = n) ↔ InWord n := by
  constructor
  · rintro ⟨w, rfl⟩
    exact inWord_toInt w
  · intro h
    exact ⟨Int32.ofInt n, toInt_ofInt_of_inWord h⟩

/-- What fits is not wrapped. -/
theorem bmod_of_inWord {n : Int} (h : InWord n) : n.bmod Int32.size = n :=
  Int.bmod_eq_of_le h.1 (Int.lt_add_one_of_le h.2)

theorem toInt_neg_of_inWord {v : Int32} {a : Int} (hv : v.toInt = a) (h : InWord (-a)) :
    (-v).toInt = -a := by
  rw [Int32.toInt_neg, hv]
  exact bmod_of_inWord h

theorem toInt_add_of_inWord {v w : Int32} {a b : Int} (hv : v.toInt = a) (hw : w.toInt = b)
    (h : InWord (a + b)) : (v + w).toInt = a + b := by
  rw [Int32.toInt_add, hv, hw]
  exact bmod_of_inWord h

theorem toInt_sub_of_inWord {v w : Int32} {a b : Int} (hv : v.toInt = a) (hw : w.toInt = b)
    (h : InWord (a - b)) : (v - w).toInt = a - b := by
  rw [Int32.toInt_sub, hv, hw]
  exact bmod_of_inWord h

theorem toInt_mul_of_inWord {v w : Int32} {a b : Int} (hv : v.toInt = a) (hw : w.toInt = b)
    (h : InWord (a * b)) : (v * w).toInt = a * b := by
  rw [Int32.toInt_mul, hv, hw]
  exact bmod_of_inWord h

theorem narrow_of_inWord {n : Int} (h : InWord n) : narrow n = some (Int32.ofInt n) :=
  if_pos h

theorem narrow_eq_some_iff {n : Int} {w : Int32} : narrow n = some w ↔ w.toInt = n := by
  constructor
  · intro h
    by_cases hn : InWord n
    · rw [narrow_of_inWord hn] at h
      rw [← Option.some.inj h, toInt_ofInt_of_inWord hn]
    · rw [narrow, if_neg hn] at h
      exact absurd h (Option.some_ne_none w).symm
  · rintro rfl
    rw [narrow_of_inWord (inWord_toInt w), Int32.ofInt_toInt]

theorem narrow_eq_none_iff {n : Int} : narrow n = none ↔ ¬ InWord n := by
  constructor
  · intro h hn
    rw [narrow_of_inWord hn] at h
    exact Option.some_ne_none _ h
  · intro hn
    exact if_neg hn

/-- A distance between pitches. -/
structure Interval where
  steps : Int32
  semitones : Int32
deriving DecidableEq, Repr

namespace Interval

/-- The interval of a pitch to itself. -/
def unison : Interval := ⟨0, 0⟩

/-- Both parts with their signs turned. -/
def neg (i : Interval) : Interval :=
  ⟨-i.steps, -i.semitones⟩

/-- Both parts added. -/
def add (i j : Interval) : Interval :=
  ⟨i.steps + j.steps, i.semitones + j.semitones⟩

/-- Both parts added, unless one of them would not fit. -/
def checkedAdd (i j : Interval) : Option Interval := do
  let steps ← narrow (i.steps.toInt + j.steps.toInt)
  let semitones ← narrow (i.semitones.toInt + j.semitones.toInt)
  return ⟨steps, semitones⟩

/-- Whole octaves, up or down, if they fit. -/
def octaves? (count : Int32) : Option Interval := do
  let steps ← narrow (count.toInt * 7)
  let semitones ← narrow (count.toInt * 12)
  return ⟨steps, semitones⟩

/-- The letter steps by which `n` semitones inside an octave are usually spelled. -/
def usualSteps (n : Nat) : Nat :=
  match n with
  | 0 => 0
  | 1 => 1
  | 2 => 1
  | 3 => 2
  | 4 => 2
  | 5 => 3
  | 6 => 4
  | 7 => 4
  | 8 => 5
  | 9 => 5
  | 10 => 6
  | _ => 6

/-- The usual spelling of a number of semitones; downward the same with its signs turned. -/
def ofSemitones (n : Int32) : Interval :=
  let size := n.toInt.natAbs
  let up : Interval :=
    ⟨Int32.ofInt (usualSteps (size % 12) + 7 * (size / 12) : Nat), Int32.ofInt size⟩
  if n < 0 then up.neg else up

/-! ### Small facts -/

theorem eq_of_toInt {i j : Interval} (hsteps : i.steps.toInt = j.steps.toInt)
    (hsemitones : i.semitones.toInt = j.semitones.toInt) : i = j := by
  obtain ⟨steps, semitones⟩ := i
  obtain ⟨steps', semitones'⟩ := j
  obtain rfl : steps = steps' := Int32.toInt_inj.mp hsteps
  obtain rfl : semitones = semitones' := Int32.toInt_inj.mp hsemitones
  rfl

theorem neg_neg (i : Interval) : i.neg.neg = i := by
  rw [neg, neg, Int32.neg_neg, Int32.neg_neg]

theorem usualSteps_lt (n : Nat) : usualSteps n < 7 := by
  unfold usualSteps
  split <;> decide

/-- Where steps and semitones both fit, they are an interval. -/
theorem narrow_both_eq_some_iff {m n : Int} {k : Interval} :
    (do
      let steps ← narrow m
      let semitones ← narrow n
      return (⟨steps, semitones⟩ : Interval)) = some k
      ↔ k.steps.toInt = m ∧ k.semitones.toInt = n := by
  simp only [Option.bind_eq_bind, Option.bind_eq_some_iff, narrow_eq_some_iff]
  constructor
  · rintro ⟨steps, hsteps, semitones, hsemitones, hk⟩
    obtain rfl := Option.some.inj hk
    exact ⟨hsteps, hsemitones⟩
  · rintro ⟨hsteps, hsemitones⟩
    exact ⟨k.steps, hsteps, k.semitones, hsemitones, rfl⟩

theorem checkedAdd_eq_some_iff {i j k : Interval} :
    i.checkedAdd j = some k ↔
      k.steps.toInt = i.steps.toInt + j.steps.toInt ∧
        k.semitones.toInt = i.semitones.toInt + j.semitones.toInt :=
  narrow_both_eq_some_iff

theorem octaves?_eq_some_iff {count : Int32} {k : Interval} :
    octaves? count = some k ↔
      k.steps.toInt = count.toInt * 7 ∧ k.semitones.toInt = count.toInt * 12 :=
  narrow_both_eq_some_iff

/-- A sum that fits is the one that is not checked. -/
theorem add_of_checkedAdd {i j k : Interval} (h : i.checkedAdd j = some k) : i.add j = k := by
  have hsum {u v w : Int32} (hw : w.toInt = u.toInt + v.toInt) : u + v = w := by
    rw [← Int32.toInt_inj, toInt_add_of_inWord rfl rfl (hw ▸ inWord_toInt w), hw]
  obtain ⟨hsteps, hsemitones⟩ := checkedAdd_eq_some_iff.mp h
  rw [add, hsum hsteps, hsum hsemitones]

/-! ### Names -/

/-- Semitones of the major or perfect interval with a number of letter steps. -/
def natural (steps : Int32) : Int32 :=
  Int32.ofInt (Letter.fromC steps.toInt).semitones + 12 * Int32.ofInt (steps.toInt / 7)

/-- Semitones beyond those of the major or perfect interval with the same steps. -/
def alteration (i : Interval) : Int32 :=
  i.semitones - natural i.steps

/-- Unisons, fourths and fifths, and their compounds, are perfect and not major. -/
def isPerfect (i : Interval) : Bool :=
  [Letter.c, Letter.f, Letter.g].contains (Letter.fromC i.steps.toInt)

/-- Perfect, major, minor, or as often augmented or diminished as it takes. -/
def quality (perfect : Bool) (alteration : Int32) : List Char :=
  if alteration = 0 then (if perfect then ['P'] else ['M'])
  else if 0 < alteration then List.replicate alteration.toInt.toNat 'A'
  else if perfect then List.replicate (-alteration).toInt.toNat 'd'
  else if alteration = -1 then ['m']
  else List.replicate (-alteration - 1).toInt.toNat 'd'

/-- Unisons lead down if they are lowered. -/
def isDescending (i : Interval) : Bool :=
  i.steps < 0 || i.steps == 0 && i.semitones < 0

/-- The number of letters an interval spans, and its quality. -/
def span (i : Interval) : String :=
  Text.integer (i.steps + 1).toInt ++ String.ofList (quality i.isPerfect i.alteration)

/-- The short name: how far an interval leads up, or with a minus in front how far down. -/
def name (i : Interval) : String :=
  if i.isDescending then "-" ++ i.neg.span else i.span

end Interval

end CyclePatterns

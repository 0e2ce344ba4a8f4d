/-
Integers that are read as fractions.

The digits of an integer are gathered into 64 bits, one after the other, and none is left over if
the integer fits.  Then it stays an integer, and a fraction is read from it exactly or, if it has
no place in 64 bits with a sign, not at all.  The one exception makes no difference: a zero with a
minus becomes a double, but that is read as zero, too.  An integer that does not fit becomes a
double, and then nothing is known of what is read but that it has the shortest text of that.
-/
import CyclePatterns.Json.FractionReader
import CyclePatterns.Proofs.Notation.Numerals

namespace CyclePatterns.Json

open Notation.Written (Digits isDigit_ne)

/-- An integer as a JSON text may spell it: a zero does not stand in front of other digits. -/
structure IntegerLiteral where
  minus : Bool
  digits : Digits
  short : digits.chars.head? = some '0' → digits.chars.length = 1

/-- What stands behind a number does not go on with it. -/
def Ends (rest : List Char) : Prop :=
  ∀ c ∈ rest.head?, c.isDigit = false ∧ c ≠ '.' ∧ c ≠ 'e' ∧ c ≠ 'E'

variable {rest : List Char}

/-! ### The grammar of an integer -/

namespace Literal

theorem digits_append (ds : Digits) (hrest : Ends rest) :
    digits (ds.chars ++ rest) = .ok (ds.chars, rest) := by
  have hhead : ∀ c ∈ rest.head?, c.isDigit = false := fun c hc => (hrest c hc).1
  obtain ⟨c, r, hchars, -⟩ := ds.exists_cons
  rw [digits, List.takeWhile_append_of_pos ds.digits, List.dropWhile_append_of_pos ds.digits,
    Text.takeWhile_of_head? hhead, Text.dropWhile_of_head? hhead, List.append_nil, hchars]

theorem fractionPart_of_ends (hrest : Ends rest) : fractionPart rest = .ok (none, rest) := by
  cases rest with
  | nil => rfl
  | cons c r =>
      unfold fractionPart
      split
      · rename_i hpoint
        exact absurd (List.cons.inj hpoint).1 (hrest c rfl).2.1
      · rfl

theorem exponentPart_of_ends (hrest : Ends rest) : exponentPart rest = .ok (none, rest) := by
  cases rest with
  | nil => rfl
  | cons c r =>
      obtain ⟨-, -, he, hE⟩ := hrest c rfl
      have hnone : (c = 'e' || c = 'E') = false := by
        rw [decide_eq_false he, decide_eq_false hE]
        rfl
      unfold exponentPart
      simp only [hnone, Bool.false_eq_true, if_false]
      rfl

theorem wholePart_append (n : IntegerLiteral) (hrest : Ends rest) :
    wholePart (n.digits.chars ++ rest) = .ok (n.digits.chars, rest) := by
  unfold wholePart
  simp only [digits_append n.digits hrest, bind, Except.bind]
  split
  · rename_i hzero
    have hlength := n.short (by rw [hzero]; rfl)
    rw [hzero] at hlength
    cases hlength
  · rfl

end Literal

namespace IntegerLiteral

variable (n : IntegerLiteral)

/-- The text of an integer. -/
def chars : List Char :=
  (if n.minus then ['-'] else []) ++ n.digits.chars

/-- The integer that is meant. -/
def value : Int :=
  if n.minus then -(n.digits.value : Int) else n.digits.value

/-- The integer as a literal. -/
def literal : Literal :=
  ⟨n.minus, n.digits.chars, none, none⟩

/-- The grammar finds an integer and nothing more. -/
theorem scan_append (hrest : Ends rest) :
    Literal.scan (n.chars ++ rest) = .ok (n.literal, rest) := by
  have hwhole := Literal.wholePart_append n hrest
  rw [chars, literal]
  cases n.minus with
  | true =>
      show Literal.scan ('-' :: (n.digits.chars ++ rest)) = _
      simp only [Literal.scan, hwhole, Literal.fractionPart_of_ends hrest,
        Literal.exponentPart_of_ends hrest, bind, Except.bind]
      rfl
  | false =>
      obtain ⟨c, r, hchars, hc⟩ := n.digits.exists_cons
      have hminus : c ≠ '-' := isDigit_ne hc rfl
      show Literal.scan (n.digits.chars ++ rest) = _
      rw [hchars] at hwhole ⊢
      rw [List.cons_append] at hwhole ⊢
      unfold Literal.scan
      split
      rename_i hsign
      split at hsign
      · rename_i hfirst
        exact absurd (List.cons.inj hfirst).1 hminus
      · obtain ⟨rfl, rfl⟩ := Prod.mk.inj hsign
        simp only [hwhole, Literal.fractionPart_of_ends hrest, Literal.exponentPart_of_ends hrest,
          bind, Except.bind]
        rfl

end IntegerLiteral

/-! ### Gathering digits -/

namespace Literal

/-- Digits that name a number of 64 bits are gathered, all of them. -/
theorem gather_of_le {n : Nat} {ds : List Char} (h : Nat.ofDigitChars 10 ds n ≤ word64Max) :
    gather n ds = (Nat.ofDigitChars 10 ds n, 0) := by
  induction ds generalizing n with
  | nil => rfl
  | cons c ds ih =>
      rw [Nat.ofDigitChars_cons] at h ⊢
      -- What has been gathered is at no point more than what is gathered in the end.
      have hstep : 10 * n + (c.toNat - '0'.toNat) ≤ word64Max := by
        rw [Nat.ofDigitChars_eq_ofDigitChars_zero] at h
        have hpos : 0 < 10 ^ ds.length := Nat.pow_pos (by decide)
        have hscale := Nat.le_mul_of_pos_left (10 * n + (c.toNat - '0'.toNat)) hpos
        omega
      rw [gather]
      simp only [if_pos hstep]
      exact ih h

/-- Of other digits some are left over. -/
theorem gather_surplus {k : Nat} {ds : List Char} (hk : k ≤ word64Max)
    (h : word64Max < Nat.ofDigitChars 10 ds k) : (gather k ds).2 ≠ 0 := by
  induction ds generalizing k with
  | nil => exact absurd hk (Nat.not_le_of_lt h)
  | cons c ds ih =>
      rw [Nat.ofDigitChars_cons] at h
      rw [gather]
      split
      · rename_i hstep
        exact ih hstep h
      · exact Nat.succ_ne_zero _

end Literal

namespace IntegerLiteral

variable {n : IntegerLiteral}

/-- The integer has a place in 64 bits, with a sign or without. -/
def Fits (n : IntegerLiteral) : Prop :=
  -(2 ^ 63) ≤ n.value ∧ n.value < 2 ^ 64

instance (n : IntegerLiteral) : Decidable n.Fits :=
  inferInstanceAs (Decidable (_ ∧ _))

/-- The number that an integer that fits becomes: a zero keeps its minus, as a double. -/
def number (n : IntegerLiteral) : Number :=
  if n.minus = true ∧ n.digits.value = 0 then .float .negativeZero else .integer n.value

theorem digits_le_of_fits (h : n.Fits) : n.digits.value ≤ word64Max := by
  obtain ⟨hlow, hhigh⟩ := h
  rw [value] at hlow hhigh
  show n.digits.value ≤ 18446744073709551615
  cases hminus : n.minus with
  | false =>
      rw [hminus, if_neg Bool.false_ne_true] at hhigh
      omega
  | true =>
      rw [hminus, if_pos rfl] at hlow
      omega

theorem neg_ofInt_zero : (Binary64.ofInt (0 : Nat)).neg = .negativeZero := by
  decide +kernel

theorem number?_literal (h : n.Fits) : n.literal.number? = some n.number := by
  have hgather : Literal.gather 0 n.digits.chars = (n.digits.value, 0) :=
    Literal.gather_of_le (digits_le_of_fits h)
  have hlow := h.1
  rw [value] at hlow
  unfold Literal.number?
  simp only [literal, hgather, number, value, ne_eq, not_true_eq_false, if_false]
  cases hminus : n.minus with
  | false => simp only [Bool.not_false, if_true, Bool.false_eq_true, false_and, if_false]
  | true =>
      rw [hminus, if_pos rfl] at hlow
      have hhigh : ¬ int64Max + 1 < (n.digits.value : Int) := by
        unfold int64Max
        omega
      simp only [Bool.not_true, Bool.false_eq_true, if_false, if_true, true_and, hhigh,
        decide_false, Bool.or_false, decide_eq_true_eq]
      by_cases hzero : n.digits.value = 0
      · rw [if_pos hzero, if_pos hzero, hzero, neg_ofInt_zero]
      · rw [if_neg hzero, if_neg hzero]

/-- An integer that fits is found in a text as the number that it becomes. -/
theorem token_append (h : n.Fits) (hrest : Ends rest) :
    Literal.token (n.chars ++ rest) = (.clean n.number, rest) := by
  rw [Literal.token, n.scan_append hrest]
  simp only [number?_literal h]

/-! ### Reading a fraction -/

/-- What is read of an integer as a fraction: the integer, unless it has no place in 64 bits with
a sign. -/
def reading (n : IntegerLiteral) : Read Rat :=
  if int64Max < n.value then Read.wrong (.reason "integer out of range") else .ok n.value

theorem fractionOfNumber_number (n : IntegerLiteral) : fractionOfNumber n.number = n.reading := by
  rw [number, reading]
  split
  · rename_i hzero
    have hvalue : n.value = 0 := by
      rw [value, hzero.1, hzero.2]
      rfl
    rw [hvalue]
    decide +kernel
  · rfl

theorem readFraction_number (room : Room) (n : IntegerLiteral) :
    readFraction room (.number (.clean n.number)) = n.reading :=
  fractionOfNumber_number n

/-! ### Texts that are one integer -/

theorem chars_cases (n : IntegerLiteral) :
    ∃ c r, n.chars = c :: r ∧ (c = '-' ∨ c.isDigit = true) := by
  rw [chars]
  cases n.minus with
  | true => exact ⟨'-', n.digits.chars, rfl, .inl rfl⟩
  | false =>
      obtain ⟨c, r, hchars, hc⟩ := n.digits.exists_cons
      exact ⟨c, r, hchars, .inr hc⟩

/-- A value that begins like a number is one. -/
theorem valueDraft_number {before r : List Char} {c : Char}
    (hbefore : ∀ b ∈ before, isSpace b = true) (hc : c = '-' ∨ c.isDigit = true) (fuel : Nat) :
    valueDraft (fuel + 1) (before ++ c :: r) = (.number (Literal.token (c :: r)).1,
      if (Literal.token (c :: r)).1.skim.isNone then some (Literal.token (c :: r)).2 else none) := by
  have hother {d : Char} (hd : d ≠ '-' ∧ d.isDigit = false) : c ≠ d := by
    rintro rfl
    rcases hc with h | h
    · exact hd.1 h
    · exact Bool.noConfusion (h.symm.trans hd.2)
  have hspace : isSpace c = false := by
    simp only [isSpace, Bool.or_eq_false_iff, decide_eq_false_iff_not]
    exact ⟨⟨⟨hother (by decide), hother (by decide)⟩, hother (by decide)⟩, hother (by decide)⟩
  have hskip : skipSpace (before ++ c :: r) = c :: r := by
    rw [skipSpace, List.dropWhile_append_of_pos hbefore, List.dropWhile_cons, hspace,
      if_neg Bool.false_ne_true]
  have hnumber : (c = '-' || c.isDigit) = true := by
    rcases hc with rfl | h
    · rfl
    · rw [h, Bool.or_true]
  unfold valueDraft
  simp only [hskip]
  split
  · cases ‹c :: r = []›
  · exact absurd (List.cons.inj ‹_›).1 (hother (by decide))
  · exact absurd (List.cons.inj ‹_›).1 (hother (by decide))
  · exact absurd (List.cons.inj ‹_›).1 (hother (by decide))
  · exact absurd (List.cons.inj ‹_›).1 (hother (by decide))
  · exact absurd (List.cons.inj ‹_›).1 (hother (by decide))
  · exact absurd (List.cons.inj ‹_›).1 (hother (by decide))
  · rename_i hcons
    obtain ⟨rfl, rfl⟩ := List.cons.inj hcons
    rw [if_pos hnumber]

/-- Wherever an integer that fits stands in a text, it is there for whoever reads it. -/
theorem valueDraft_append (h : n.Fits) (hrest : Ends rest) {before : List Char}
    (hbefore : ∀ b ∈ before, isSpace b = true) (fuel : Nat) :
    valueDraft (fuel + 1) (before ++ (n.chars ++ rest))
      = (.number (.clean n.number), some rest) := by
  obtain ⟨c, r, hchars, hc⟩ := n.chars_cases
  have htoken := token_append h hrest
  rw [hchars] at htoken ⊢
  rw [List.cons_append] at htoken ⊢
  rw [valueDraft_number hbefore hc, htoken]
  rfl

theorem ends_of_isSpace (h : ∀ a ∈ rest, isSpace a = true) : Ends rest := by
  intro a ha
  have hspace := h a (List.mem_of_mem_head? ha)
  simp only [isSpace, Bool.or_eq_true, decide_eq_true_eq] at hspace
  rcases hspace with ((rfl | rfl) | rfl) | rfl <;> decide

/-- A text that is one integer with white space around it. -/
theorem read_ofText (h : n.Fits) {before after : List Char}
    (hbefore : ∀ b ∈ before, isSpace b = true) (hafter : ∀ a ∈ after, isSpace a = true) :
    (Document.ofText (String.ofList (before ++ (n.chars ++ after)))).read .fault readFraction
      = n.reading := by
  have hrest : skipSpace after = [] := List.dropWhile_eq_nil_iff.mpr hafter
  have hread := readFraction_number Room.ofText n
  rw [Document.ofText, String.toList_ofList, Document.read]
  simp only [valueDraft_append h (ends_of_isSpace hafter) hbefore, hrest, hread]
  cases n.reading <;> rfl

/-! ### Integers beyond 64 bits -/

/-- What does not fit becomes a double, or is too great even for that. -/
theorem exists_number?_of_not_fits (h : ¬ n.Fits) :
    ∃ x : Option Binary64, n.literal.number? = x.map .float := by
  by_cases hlarge : word64Max < n.digits.value
  · have hsurplus := Literal.gather_surplus (Nat.zero_le _) hlarge
    unfold Literal.number?
    simp only [literal, ne_eq, hsurplus, not_false_eq_true, if_true]
    exact ⟨_, rfl⟩
  · have hle := Nat.le_of_not_lt hlarge
    have hgather : Literal.gather 0 n.digits.chars = (n.digits.value, 0) :=
      Literal.gather_of_le hle
    rw [Fits, value] at h
    unfold word64Max at hle
    cases hminus : n.minus with
    | false =>
        rw [hminus, if_neg Bool.false_ne_true] at h
        omega
    | true =>
        rw [hminus, if_pos rfl] at h
        have hlow : int64Max + 1 < (n.digits.value : Int) := by
          unfold int64Max
          omega
        unfold Literal.number?
        simp only [literal, hgather, hminus, ne_eq, not_true_eq_false, if_false, Bool.not_true,
          Bool.false_eq_true, hlow, decide_true, Bool.or_true, if_true]
        exact ⟨some _, rfl⟩

/-- An integer that does not fit is read as the fraction that the shortest text of a double names,
if at all. -/
theorem exists_readFraction_of_not_fits (h : ¬ n.Fits) :
    ∃ x : Option Binary64, ∀ (room : Room) (rest : List Char), Ends rest →
      readFraction room (.number (Literal.token (n.chars ++ rest)).1)
        = x.elim (.error (.fault .malformed)) fun x => fractionOfNumber (.float x) := by
  obtain ⟨x, hx⟩ := exists_number?_of_not_fits h
  refine ⟨x, fun room rest hrest => ?_⟩
  rw [Literal.token, n.scan_append hrest]
  simp only [hx]
  cases x <;> rfl

end IntegerLiteral

end CyclePatterns.Json

/-
Numbers as they are written.

A count is digits, and in an integer there may be underscores behind each of them.  A decimal is
perhaps a minus, digits, and perhaps a point with more digits.  Here their values are said in
terms of their parts, and the functions that make fractions and counts of texts are shown to find
them, whatever the digits.
-/
import CyclePatterns.Fraction
import CyclePatterns.Proofs.Text.Words
import Mathlib.Algebra.Order.Field.Rat
import Mathlib.Tactic.FieldSimp
import Mathlib.Tactic.Ring

namespace CyclePatterns

namespace Notation.Written

/-- One or more digits. -/
structure Digits where
  chars : List Char
  nonempty : chars ≠ []
  digits : ∀ c ∈ chars, c.isDigit = true
deriving DecidableEq

/-- The number that digits name. -/
def Digits.value (n : Digits) : Nat :=
  Nat.ofDigitChars 10 n.chars 0

/-- A number with its sign and its decimal places. -/
structure Decimal where
  minus : Bool
  whole : Digits
  fraction : Option Digits
deriving DecidableEq

namespace Decimal

/-- The minus of a number that has one. -/
def sign (n : Decimal) : List Char :=
  if n.minus then ['-'] else []

/-- The point and what follows it. -/
def places (n : Decimal) : List Char :=
  n.fraction.elim [] fun f => '.' :: f.chars

/-- The text of a number. -/
def chars (n : Decimal) : List Char :=
  n.sign ++ (n.whole.chars ++ n.places)

/-- A number without its sign. -/
def size (n : Decimal) : Rat :=
  n.whole.value + n.fraction.elim 0 fun f => (f.value : Rat) / 10 ^ f.chars.length

/-- The number that is meant. -/
def value (n : Decimal) : Rat :=
  if n.minus then -n.size else n.size

end Decimal

end Notation.Written

open Notation.Written (Digits Decimal)

/-! ### Digits -/

namespace Notation.Written

theorem isDigit_not_blank {c : Char} (h : c.isDigit = true) : Text.isBlank c = false := by
  obtain ⟨hlow, hhigh⟩ : 48 ≤ c.toNat ∧ c.toNat ≤ 57 := Char.isDigit_iff_toNat.mp h
  simp only [Text.isBlank, Bool.or_eq_false_iff, Bool.and_eq_false_iff, decide_eq_false_iff_not,
    beq_eq_false_iff_ne]
  omega

theorem isDigit_ne {c d : Char} (h : c.isDigit = true) (hd : d.isDigit = false) : c ≠ d := by
  rintro rfl
  exact Bool.noConfusion (h.symm.trans hd)

end Notation.Written

/-! ### Digits with underscores -/

namespace Text

open Notation.Written (isDigit_ne)

variable {c : Char} {cs : List Char}

/-- A character that may stand in front of a number. -/
def isSign (c : Char) : Bool :=
  c == '-' || c == '+'

theorem isSign_of_isDigit (h : c.isDigit = true) : isSign c = false := by
  have hminus : (c == '-') = false := beq_eq_false_iff_ne.mpr (isDigit_ne h rfl)
  have hplus : (c == '+') = false := beq_eq_false_iff_ne.mpr (isDigit_ne h rfl)
  rw [isSign, hminus, hplus]
  rfl

/-- Without a sign in front an integer is grouped digits. -/
theorem integer?_of_head? (h : ∀ c ∈ cs.head?, isSign c = false) :
    integer? cs = (grouped? cs).map fun n => (n : Int) := by
  unfold integer?
  split
  · exact Bool.noConfusion (h _ rfl)
  · exact Bool.noConfusion (h _ rfl)
  · rfl

/-- Digits, perhaps with underscores between or behind them. -/
structure Grouped where
  first : Char
  others : List Char
  digit : first.isDigit = true
  grouped : ∀ c ∈ others, c.isDigit = true ∨ c = '_'

namespace Grouped

/-- The text of grouped digits. -/
def chars (g : Grouped) : List Char :=
  g.first :: g.others

/-- The number that grouped digits name. -/
def value (g : Grouped) : Nat :=
  Nat.ofDigitChars 10 (g.chars.filter (· != '_')) 0

theorem mem_chars {g : Grouped} (h : c ∈ g.chars) : c.isDigit = true ∨ c = '_' := by
  rcases List.mem_cons.mp h with rfl | h
  · exact .inl g.digit
  · exact g.grouped c h

theorem grouped?_chars (g : Grouped) : grouped? g.chars = some g.value := by
  have hfirst : g.first ≠ '_' := isDigit_ne g.digit rfl
  have hall : (g.first :: g.others).all (fun d => d.isDigit || d == '_') = true := by
    rw [List.all_eq_true]
    intro c hc
    rw [Bool.or_eq_true, beq_iff_eq]
    exact mem_chars hc
  rw [chars, grouped?, if_pos (by simp [hfirst, hall])]
  rfl

theorem integer?_chars (g : Grouped) : integer? g.chars = some (g.value : Int) := by
  have hhead : ∀ c ∈ g.chars.head?, isSign c = false := by
    rintro _ ⟨⟩
    exact isSign_of_isDigit g.digit
  rw [integer?_of_head? hhead, g.grouped?_chars]
  rfl

end Grouped

end Text

/-! ### Digits alone -/

namespace Notation.Written

namespace Digits

variable (n : Digits)

/-- Digits do not hold what is no digit. -/
theorem not_mem {c : Char} (hc : c.isDigit = false) : c ∉ n.chars :=
  fun h => isDigit_ne (n.digits c h) hc rfl

theorem exists_cons : ∃ c rest, n.chars = c :: rest ∧ c.isDigit = true := by
  obtain ⟨c, rest, h⟩ := List.exists_cons_of_ne_nil n.nonempty
  exact ⟨c, rest, h, n.digits c (h ▸ List.mem_cons_self)⟩

/-- Digits name a count. -/
theorem digits?_chars : Text.digits? n.chars = some n.value := by
  have hall : n.chars.all Char.isDigit = true := List.all_eq_true.mpr n.digits
  have hempty : n.chars.isEmpty = false := by
    rw [List.isEmpty_eq_false_iff]
    exact n.nonempty
  rw [Text.digits?, hall, hempty]
  rfl

/-- Digits behind others, of which there may be none. -/
def behind {w : List Char} (hw : ∀ c ∈ w, c.isDigit = true) : Digits where
  chars := w ++ n.chars
  nonempty h := n.nonempty (List.append_eq_nil_iff.mp h).2
  digits c hc := (List.mem_append.mp hc).elim (hw c) (n.digits c)

theorem value_behind {w : List Char} (hw : ∀ c ∈ w, c.isDigit = true) :
    (n.behind hw).value = Nat.ofDigitChars 10 w 0 * 10 ^ n.chars.length + n.value := by
  rw [value, behind, Nat.ofDigitChars_append, Nat.ofDigitChars_eq_ofDigitChars_zero, Nat.mul_comm]
  rfl

theorem filter_chars : n.chars.filter (· != '_') = n.chars := by
  rw [List.filter_eq_self]
  exact fun c hc => bne_iff_ne.mpr (isDigit_ne (n.digits c hc) rfl)

/-- Digits between which there are no underscores. -/
def grouped : Text.Grouped where
  first := n.chars.head n.nonempty
  others := n.chars.tail
  digit := n.digits _ (List.head_mem _)
  grouped c hc := .inl (n.digits c (List.mem_of_mem_tail hc))

theorem chars_grouped : n.grouped.chars = n.chars :=
  List.cons_head_tail n.nonempty

theorem value_grouped : n.grouped.value = n.value := by
  rw [Text.Grouped.value, chars_grouped, filter_chars, value]

theorem grouped?_chars : Text.grouped? n.chars = some n.value := by
  rw [← chars_grouped, Text.Grouped.grouped?_chars, value_grouped]

theorem integer?_chars : Text.integer? n.chars = some (n.value : Int) := by
  rw [← chars_grouped, Text.Grouped.integer?_chars, value_grouped]

theorem signedDigits?_chars : Text.signedDigits? n.chars = some (n.value : Int) := by
  obtain ⟨c, rest, hchars, hc⟩ := n.exists_cons
  have hdigits := n.digits?_chars
  rw [hchars] at hdigits ⊢
  unfold Text.signedDigits?
  split
  · next h => exact absurd (List.cons.inj h).1 (isDigit_ne hc rfl)
  · next h => exact absurd (List.cons.inj h).1 (isDigit_ne hc rfl)
  · rw [hdigits]
    rfl

end Digits

/-! ### Signs -/

/-- All signs in front are dropped, and of them a minus is noticed that is the first. -/
theorem decimal?_of_signs {signs w : List Char} (hsigns : ∀ c ∈ signs, Text.isSign c = true)
    (hw : ∀ c ∈ w.head?, Text.isSign c = false) {f : Digits} {k : Int}
    (hk : Text.integer? (w ++ f.chars) = some k) :
    Fraction.decimal? (signs ++ w) f.chars
      = some (if signs.head? = some '-' then -((k : Rat) / 10 ^ f.chars.length)
          else (k : Rat) / 10 ^ f.chars.length) := by
  have hall : f.chars.all Char.isDigit = true := List.all_eq_true.mpr f.digits
  have hempty : f.chars.isEmpty = false := List.isEmpty_eq_false_iff.mpr f.nonempty
  have hunsigned : (signs ++ w).dropWhile (fun c => c == '-' || c == '+') = w :=
    (List.dropWhile_append_of_pos hsigns).trans (Text.dropWhile_of_head? hw)
  have hhead : (signs ++ w).head? = some '-' ↔ signs.head? = some '-' := by
    cases signs with
    | nil => exact iff_of_false (fun h => Bool.noConfusion (hw '-' h)) nofun
    | cons c signs => rfl
  rw [Fraction.decimal?, hall, hempty]
  simp only [Bool.not_true, Bool.or_self, Bool.false_eq_true, if_false]
  rw [hunsigned, hk]
  simp only [hhead]
  rfl

/-- What may stand in front of a number. -/
inductive Sign where
  | unsigned
  | plus
  | minus
deriving DecidableEq

namespace Sign

/-- The text of a sign. -/
def chars : Sign → List Char
  | unsigned => []
  | plus => ['+']
  | minus => ['-']

/-- A number with a sign in front. -/
def apply (x : Rat) : Sign → Rat
  | minus => -x
  | _ => x

theorem isSign_of_mem_chars (s : Sign) : ∀ c ∈ s.chars, Text.isSign c = true := by
  refine List.all_eq_true.mp ?_
  cases s <;> rfl

/-- A sign is dropped in front of digits, and a minus is noticed, also if there are none. -/
theorem decimal?_digits (s : Sign) {w : List Char} (hw : ∀ c ∈ w, c.isDigit = true) (f : Digits) :
    Fraction.decimal? (s.chars ++ w) f.chars
      = some (s.apply (((Nat.ofDigitChars 10 w 0 : Nat) * 10 ^ f.chars.length + f.value)
          / 10 ^ f.chars.length)) := by
  have hplain : ∀ c ∈ w.head?, Text.isSign c = false := fun c hc =>
    Text.isSign_of_isDigit (hw c (List.mem_of_mem_head? hc))
  have hvalue : (((f.behind hw).value : Int) : Rat)
      = (Nat.ofDigitChars 10 w 0 : Nat) * 10 ^ f.chars.length + f.value := by
    rw [f.value_behind hw]
    push_cast
    rfl
  rw [decimal?_of_signs s.isSign_of_mem_chars hplain (f.behind hw).integer?_chars, hvalue]
  cases s <;> rfl

end Sign

/-! ### Decimals -/

namespace Decimal

variable (n : Decimal)

/-- What reads the digits in front of the point as `x`, and as `-x` behind a minus, reads them
with the sign that they have. -/
theorem read_sign_whole {α : Type} [Neg α] (read : List Char → Option α) {x : α}
    (hplain : read n.whole.chars = some x) (hminus : read ('-' :: n.whole.chars) = some (-x)) :
    read (n.sign ++ n.whole.chars) = some (if n.minus then -x else x) := by
  rw [sign]
  cases n.minus with
  | false => exact hplain
  | true => exact hminus

theorem integer?_sign_whole :
    Text.integer? (n.sign ++ n.whole.chars)
      = some (if n.minus then -(n.whole.value : Int) else n.whole.value) := by
  refine n.read_sign_whole Text.integer? n.whole.integer?_chars ?_
  show (Text.grouped? n.whole.chars).map (fun k => -(k : Int)) = _
  rw [n.whole.grouped?_chars]
  rfl

theorem signedDigits?_sign_whole :
    Text.signedDigits? (n.sign ++ n.whole.chars)
      = some (if n.minus then -(n.whole.value : Int) else n.whole.value) := by
  refine n.read_sign_whole Text.signedDigits? n.whole.signedDigits?_chars ?_
  show (Text.digits? n.whole.chars).map (fun k => -(k : Int)) = _
  rw [n.whole.digits?_chars]
  rfl

/-- What is in front of the point is read with its sign. -/
theorem decimal?_sign_whole (f : Digits) :
    Fraction.decimal? (n.sign ++ n.whole.chars) f.chars
      = some (if n.minus then -((n.whole.value : Rat) + f.value / 10 ^ f.chars.length)
          else (n.whole.value : Rat) + f.value / 10 ^ f.chars.length) := by
  have hvalue : ((n.whole.value : Rat) * 10 ^ f.chars.length + f.value) / 10 ^ f.chars.length
      = (n.whole.value : Rat) + f.value / 10 ^ f.chars.length := by
    field_simp
  rw [← hvalue]
  exact n.read_sign_whole (fun w => Fraction.decimal? w f.chars)
    (Sign.unsigned.decimal?_digits n.whole.digits f) (Sign.minus.decimal?_digits n.whole.digits f)

theorem not_mem_sign_whole {c : Char} (hc : c.isDigit = false) (hminus : c ≠ '-') :
    c ∉ n.sign ++ n.whole.chars := by
  rw [List.mem_append, not_or, sign]
  refine ⟨?_, n.whole.not_mem hc⟩
  cases n.minus <;> simp [hminus]

/-- What a number is made of. -/
theorem mem_chars {c : Char} (h : c ∈ n.chars) : c.isDigit = true ∨ c = '-' ∨ c = '.' := by
  rw [chars, List.mem_append, List.mem_append] at h
  rcases h with h | h | h
  · rw [sign] at h
    split at h
    · exact .inr (.inl (List.mem_singleton.mp h))
    · exact absurd h List.not_mem_nil
  · exact .inl (n.whole.digits c h)
  · rw [places] at h
    cases hf : n.fraction with
    | none =>
        rw [hf] at h
        exact absurd h List.not_mem_nil
    | some f =>
        rw [hf] at h
        rcases List.mem_cons.mp h with rfl | h
        · exact .inr (.inr rfl)
        · exact .inl (f.digits c h)

/-- **Every number is read exactly.** -/
theorem ofChars?_chars : Fraction.ofChars? n.chars = some n.value := by
  have htrim : Text.trim n.chars = n.chars := by
    refine Text.trim_eq_self fun c hc => ?_
    rcases n.mem_chars hc with h | rfl | rfl
    · exact isDigit_not_blank h
    · rfl
    · rfl
  have hslash : Text.cut? '/' n.chars = none := by
    refine Text.cut?_of_not_mem fun h => ?_
    rcases n.mem_chars h with h | h | h
    · exact absurd h (by decide)
    · exact absurd h (by decide)
    · exact absurd h (by decide)
  have hpoint : '.' ∉ n.sign ++ n.whole.chars := n.not_mem_sign_whole rfl (by decide)
  simp only [Fraction.ofChars?, htrim, hslash]
  rw [value, size, chars, ← List.append_assoc, places]
  cases hf : n.fraction with
  | none =>
      have hcut : Text.cut? '.' (n.sign ++ n.whole.chars) = none := Text.cut?_of_not_mem hpoint
      simp only [Option.elim_none, List.append_nil, add_zero, hcut, n.integer?_sign_whole]
      cases n.minus <;> simp
  | some f =>
      have hcut : Text.cut? '.' (n.sign ++ n.whole.chars ++ '.' :: f.chars)
          = some (n.sign ++ n.whole.chars, f.chars) := Text.cut?_append hpoint
      simp only [Option.elim_some, hcut, n.decimal?_sign_whole]

end Decimal

end Notation.Written

end CyclePatterns

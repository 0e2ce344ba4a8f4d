/-
Fractions that are written and read again.

A written integer is a decimal without decimal places, so what is known of decimals applies to
it.  A fraction in lowest terms that is not an integer is two integers with a slash between
them.  Either way the reader finds the fraction that was written, whatever white space is put
around it and around its slash.  Decimals are never written, but they are read exactly: the sign
is taken off, the digits on both sides of the point make one integer, and the sign is put back, so
that a minus counts even if the digits in front of the point are zeros or none.
-/
import CyclePatterns.Proofs.Notation.Numerals

namespace CyclePatterns

namespace Notation.Written

/-! ### Written integers -/

/-- The digits of a number as they are written. -/
def Digits.ofNat (n : Nat) : Digits where
  chars := Nat.toDigits 10 n
  nonempty := Nat.toDigits_ne_nil
  digits _ hc := Nat.isDigit_of_mem_toDigits (by decide) (by decide) hc

theorem Digits.value_ofNat (n : Nat) : (ofNat n).value = n :=
  Nat.ofDigitChars_ten_toDigits

/-- An integer as it is written. -/
def Decimal.ofInt (n : Int) : Decimal :=
  ⟨decide (n < 0), .ofNat n.natAbs, none⟩

theorem Decimal.chars_ofInt (n : Int) : (ofInt n).chars = (Text.integer n).toList := by
  have hwhole : (Text.natural n.natAbs).toList = (Digits.ofNat n.natAbs).chars :=
    Text.toList_natural _
  rw [chars, places, sign, ofInt, Text.integer]
  by_cases h : n < 0
  · rw [if_pos h, if_pos (decide_eq_true h), String.toList_append, hwhole]
    exact congrArg ('-' :: ·) (List.append_nil _)
  · rw [if_neg h, if_neg (by simpa using h), hwhole]
    exact List.append_nil _

/-- What a written integer says, with its sign. -/
theorem Decimal.signed_ofInt (n : Int) :
    (if (ofInt n).minus then -((ofInt n).whole.value : Int) else (ofInt n).whole.value) = n := by
  rw [ofInt, Digits.value_ofNat]
  by_cases h : n < 0
  · rw [if_pos (decide_eq_true h)]
    omega
  · rw [if_neg (by simpa using h)]
    omega

/-- A written integer is its sign and its digits. -/
theorem Decimal.chars_ofInt_eq (n : Int) :
    (ofInt n).chars = (ofInt n).sign ++ (ofInt n).whole.chars :=
  congrArg ((ofInt n).sign ++ ·) (List.append_nil _)

/-- A written integer has no more than a minus and digits. -/
theorem Decimal.mem_ofInt {n : Int} {c : Char} (h : c ∈ (ofInt n).chars) :
    c = '-' ∨ c.isDigit = true := by
  rw [chars_ofInt_eq, List.mem_append, sign] at h
  rcases h with h | h
  · split at h
    · exact .inl (List.mem_singleton.mp h)
    · exact absurd h List.not_mem_nil
  · exact .inr ((ofInt n).whole.digits c h)

theorem Decimal.integer?_ofInt (n : Int) : Text.integer? (ofInt n).chars = some n := by
  rw [chars_ofInt_eq, integer?_sign_whole, signed_ofInt]

theorem Decimal.signedDigits?_ofInt (n : Int) : Text.signedDigits? (ofInt n).chars = some n := by
  rw [chars_ofInt_eq, signedDigits?_sign_whole, signed_ofInt]

theorem Decimal.value_ofInt (n : Int) : (ofInt n).value = n := by
  have hsize : (ofInt n).size = ((ofInt n).whole.value : Rat) := add_zero _
  have hsigned : ((if (ofInt n).minus then -((ofInt n).whole.value : Int)
      else (ofInt n).whole.value : Int) : Rat) = n := congrArg Int.cast (signed_ofInt n)
  rw [value, hsize, ← hsigned]
  split <;> simp

end Notation.Written

/-! ### Written fractions -/

namespace Fraction

open Notation.Written (Decimal Digits Sign isDigit_ne isDigit_not_blank)
open Text (Bare Blank isBlank trim)

variable {before after left right : List Char}

/-- A text with white space put in before and behind each slash. -/
def spread (left right cs : List Char) : List Char :=
  cs.flatMap fun c => if c = '/' then left ++ '/' :: right else [c]

theorem spread_of_not_mem {cs : List Char} (h : '/' ∉ cs) : spread left right cs = cs := by
  induction cs with
  | nil => rfl
  | cons c cs ih =>
      rw [List.mem_cons, not_or] at h
      rw [spread, List.flatMap_cons, if_neg (Ne.symm h.1)]
      exact congrArg (c :: ·) (ih h.2)

theorem spread_append (cs ds : List Char) :
    spread left right (cs ++ '/' :: ds)
      = spread left right cs ++ (left ++ '/' :: (right ++ spread left right ds)) := by
  rw [spread, List.flatMap_append, List.flatMap_cons, if_pos rfl, List.append_assoc]
  rfl

theorem spread_nil (cs : List Char) : spread [] [] cs = cs := by
  have hone : (fun c => if c = '/' then [] ++ '/' :: [] else [c]) = fun c : Char => [c] := by
    funext c
    split
    · rename_i hc
      rw [hc]
      rfl
    · rfl
  rw [spread, hone, List.flatMap_singleton']

/-! ### The integers of a quotient -/

theorem slash_not_mem_ofInt (n : Int) : '/' ∉ (Decimal.ofInt n).chars := fun h => by
  rcases Decimal.mem_ofInt h with h | h
  · exact absurd h (by decide)
  · exact absurd h (by decide)

theorem not_blank_of_mem_ofInt (n : Int) : ∀ c ∈ (Decimal.ofInt n).chars, isBlank c = false := by
  intro c hc
  rcases Decimal.mem_ofInt hc with rfl | h
  · rfl
  · exact isDigit_not_blank h

theorem bare_ofInt (n : Int) : Bare (Decimal.ofInt n).chars :=
  Text.bare_of_trim_eq (Text.trim_eq_self (not_blank_of_mem_ofInt n))

theorem chars_ofInt_ne_nil (n : Int) : (Decimal.ofInt n).chars ≠ [] := by
  rw [Decimal.chars_ofInt_eq]
  exact fun h => (Decimal.ofInt n).whole.nonempty (List.append_eq_nil_iff.mp h).2

theorem slash_not_blank (h : Blank left) : '/' ∉ left :=
  fun hmem => Bool.noConfusion (h '/' hmem)

/-- Two integers with a slash between them are read as their quotient, whatever white space is
around them. -/
theorem ofChars?_quotient (n d : Int) (hbefore : Blank before) (hleft : Blank left)
    (hright : Blank right) (hafter : Blank after) :
    ofChars? (before ++ ((Decimal.ofInt n).chars ++ (left ++ '/' :: (right
      ++ (Decimal.ofInt d).chars))) ++ after) = ratio? n d := by
  have hbare : Bare ((Decimal.ofInt n).chars ++ (left ++ '/' :: right) ++ (Decimal.ofInt d).chars) :=
    (bare_ofInt n).join (bare_ofInt d) (chars_ofInt_ne_nil n) (chars_ofInt_ne_nil d)
  have hslash : '/' ∉ (Decimal.ofInt n).chars ++ left := by
    rw [List.mem_append, not_or]
    exact ⟨slash_not_mem_ofInt n, slash_not_blank hleft⟩
  have hfront : trim ((Decimal.ofInt n).chars ++ left) = (Decimal.ofInt n).chars :=
    (Text.trim_surrounded Text.blank_nil hleft).trans (bare_ofInt n).trim_eq
  have hback : trim (right ++ (Decimal.ofInt d).chars) = (Decimal.ofInt d).chars := by
    rw [← List.append_nil (right ++ _), Text.trim_surrounded hright Text.blank_nil,
      (bare_ofInt d).trim_eq]
  have hgap : (Decimal.ofInt n).chars ++ (left ++ '/' :: (right ++ (Decimal.ofInt d).chars))
      = (Decimal.ofInt n).chars ++ (left ++ '/' :: right) ++ (Decimal.ofInt d).chars := by
    simp only [List.append_assoc, List.cons_append]
  have hcut : (Decimal.ofInt n).chars ++ (left ++ '/' :: (right ++ (Decimal.ofInt d).chars))
      = ((Decimal.ofInt n).chars ++ left) ++ '/' :: (right ++ (Decimal.ofInt d).chars) :=
    (List.append_assoc _ _ _).symm
  rw [ofChars?, hgap, Text.trim_surrounded hbefore hafter, hbare.trim_eq, ← hgap, hcut,
    Text.cut?_append hslash]
  simp only [hfront, hback, Decimal.integer?_ofInt]
  rfl

/-- An integer is read as what it is, whatever white space is around it. -/
theorem ofChars?_integer (n : Int) (hbefore : Blank before) (hafter : Blank after) :
    ofChars? (before ++ (Decimal.ofInt n).chars ++ after) = some (n : Rat) := by
  have hread := Decimal.ofChars?_chars (Decimal.ofInt n)
  rw [ofChars?, (bare_ofInt n).trim_eq] at hread
  rw [ofChars?, Text.trim_surrounded hbefore hafter, (bare_ofInt n).trim_eq]
  exact hread.trans (congrArg some (Decimal.value_ofInt n))

/-- **A written fraction is read as what it is**, with any white space around it and around its
slash. -/
theorem ofChars?_spread_text (x : Rat) (hbefore : Blank before) (hleft : Blank left)
    (hright : Blank right) (hafter : Blank after) :
    ofChars? (before ++ spread left right (text x).toList ++ after) = some x := by
  rw [text]
  by_cases hden : x.den = 1
  · rw [if_pos hden, ← Decimal.chars_ofInt, spread_of_not_mem (slash_not_mem_ofInt _),
      ofChars?_integer _ hbefore hafter, Rat.den_eq_one_iff x |>.mp hden]
  · have hnatural : Text.natural x.den = Text.integer x.den := rfl
    have hchars : (Text.integer x.num ++ "/" ++ Text.natural x.den).toList
        = (Decimal.ofInt x.num).chars ++ '/' :: (Decimal.ofInt x.den).chars := by
      rw [hnatural, String.toList_append, String.toList_append, Decimal.chars_ofInt,
        Decimal.chars_ofInt, List.append_assoc]
      rfl
    have hpos : (x.den : Int) ≠ 0 := by exact_mod_cast x.den_nz
    rw [if_neg hden, hchars, spread_append, spread_of_not_mem (slash_not_mem_ofInt _),
      spread_of_not_mem (slash_not_mem_ofInt _),
      ofChars?_quotient _ _ hbefore hleft hright hafter, ratio?, if_neg hpos]
    exact congrArg some (Rat.num_div_den x)

theorem ofText?_text (x : Rat) : ofText? (text x) = some x := by
  have hread := ofChars?_spread_text x Text.blank_nil Text.blank_nil Text.blank_nil Text.blank_nil
  rwa [spread_nil, List.nil_append, List.append_nil] at hread

theorem text_inj {x y : Rat} : text x = text y ↔ x = y := by
  refine ⟨fun h => ?_, congrArg text⟩
  have hread := ofText?_text x
  rw [h, ofText?_text y] at hread
  exact (Option.some.inj hread).symm

/-! ### Decimals -/

/-- A decimal is read exactly, also with no digit in front of its point. -/
theorem ofChars?_decimal (s : Sign) {w : List Char} (hw : ∀ c ∈ w, c.isDigit = true)
    (f : Digits) :
    ofChars? (s.chars ++ w ++ '.' :: f.chars)
      = some (s.apply (((Nat.ofDigitChars 10 w 0 : Nat) * 10 ^ f.chars.length + f.value)
          / 10 ^ f.chars.length)) := by
  have hfront : ∀ c ∈ s.chars ++ w, isBlank c = false ∧ c ≠ '/' ∧ c ≠ '.' := by
    intro c hc
    rcases List.mem_append.mp hc with hc | hc
    · cases s with
      | unsigned => exact absurd hc List.not_mem_nil
      | plus | minus =>
          rw [List.mem_singleton.mp hc]
          decide
    · have hdigit := hw c hc
      exact ⟨isDigit_not_blank hdigit, isDigit_ne hdigit rfl, isDigit_ne hdigit rfl⟩
  have hall : ∀ c ∈ s.chars ++ w ++ '.' :: f.chars, isBlank c = false ∧ c ≠ '/' := by
    intro c hc
    rcases List.mem_append.mp hc with hc | hc
    · exact ⟨(hfront c hc).1, (hfront c hc).2.1⟩
    · rcases List.mem_cons.mp hc with rfl | hc
      · decide
      · have hdigit := f.digits c hc
        exact ⟨isDigit_not_blank hdigit, isDigit_ne hdigit rfl⟩
  have htrim : trim (s.chars ++ w ++ '.' :: f.chars) = s.chars ++ w ++ '.' :: f.chars :=
    Text.trim_eq_self fun c hc => (hall c hc).1
  have hslash : Text.cut? '/' (s.chars ++ w ++ '.' :: f.chars) = none :=
    Text.cut?_of_not_mem fun h => (hall '/' h).2 rfl
  have hpoint : Text.cut? '.' (s.chars ++ w ++ '.' :: f.chars) = some (s.chars ++ w, f.chars) :=
    Text.cut?_append fun h => (hfront '.' h).2.2 rfl
  simp only [ofChars?, htrim, hslash, hpoint, s.decimal?_digits hw f]

end Fraction

end CyclePatterns

/-
Which texts name a fraction.

An integer has one sign at most and then digits, between and behind which there may be
underscores.  A fraction is an integer, or two of them with a slash in between, or a decimal.  The
reader finds all of these and nothing else.  Only of a decimal it takes off more than one sign;
so what stands in front of the point is an integer, a sign or nothing unless the text begins with
two signs, and then it is none of these.
-/
import CyclePatterns.Proofs.Notation.Numerals

namespace CyclePatterns

open Notation.Written (Digits Sign decimal?_of_signs isDigit_not_blank)

namespace Text

variable {c : Char} {cs : List Char}

/-! ### Integers -/

theorem exists_grouped {n : Nat} (h : grouped? cs = some n) : ∃ g : Grouped, g.chars = cs := by
  cases cs with
  | nil => cases h
  | cons c r =>
      rw [grouped?] at h
      split at h
      next hcond =>
        rw [Bool.and_eq_true, decide_eq_true_eq, List.all_eq_true] at hcond
        obtain ⟨hfirst, hall⟩ := hcond
        have hmem : ∀ d ∈ c :: r, d.isDigit = true ∨ d = '_' := fun d hd => by
          have hd := hall d hd
          rwa [Bool.or_eq_true, beq_iff_eq] at hd
        exact ⟨⟨c, r, (hmem c List.mem_cons_self).resolve_right hfirst,
          fun d hd => hmem d (List.mem_cons_of_mem c hd)⟩, rfl⟩
      next => cases h

/-- An integer as it may be spelled: one sign at most, and grouped digits. -/
structure Numeral where
  sign : Sign
  digits : Grouped

namespace Numeral

/-- The text of an integer. -/
def chars (n : Numeral) : List Char :=
  n.sign.chars ++ n.digits.chars

/-- The integer that is meant. -/
def value (n : Numeral) : Int :=
  if n.sign = .minus then -(n.digits.value : Int) else n.digits.value

theorem mem_chars {n : Numeral} (h : c ∈ n.chars) :
    c = '-' ∨ c = '+' ∨ c.isDigit = true ∨ c = '_' := by
  rcases List.mem_append.mp h with h | h
  · cases hsign : n.sign <;> rw [hsign] at h
    · exact absurd h List.not_mem_nil
    · exact .inr (.inl (List.mem_singleton.mp h))
    · exact .inl (List.mem_singleton.mp h)
  · exact .inr (.inr (Grouped.mem_chars h))

/-- An integer does not hold what is neither a sign nor a digit nor an underscore. -/
theorem not_mem_chars (n : Numeral)
    (hc : c ≠ '-' ∧ c ≠ '+' ∧ c.isDigit = false ∧ c ≠ '_') : c ∉ n.chars := by
  intro h
  obtain ⟨hminus, hplus, hdigit, hunderscore⟩ := hc
  rcases mem_chars h with h | h | h | h
  · exact hminus h
  · exact hplus h
  · exact Bool.noConfusion (hdigit.symm.trans h)
  · exact hunderscore h

theorem trim_chars (n : Numeral) : trim n.chars = n.chars := by
  refine trim_eq_self fun c hc => ?_
  rcases mem_chars hc with rfl | rfl | h | rfl
  · rfl
  · rfl
  · exact isDigit_not_blank h
  · rfl

end Numeral

theorem Numeral.integer?_chars (n : Numeral) : integer? n.chars = some n.value := by
  obtain ⟨sign, digits⟩ := n
  have hgrouped := digits.grouped?_chars
  cases sign with
  | unsigned => exact digits.integer?_chars
  | plus =>
      show (grouped? digits.chars).map (fun n => (n : Int)) = _
      rw [hgrouped]
      rfl
  | minus =>
      show (grouped? digits.chars).map (fun n => -(n : Int)) = _
      rw [hgrouped]
      rfl

theorem exists_numeral {n : Int} (h : integer? cs = some n) : ∃ i : Numeral, i.chars = cs := by
  unfold integer? at h
  split at h
  all_goals
    obtain ⟨k, hk, -⟩ := Option.map_eq_some_iff.mp h
    obtain ⟨m, hm, -⟩ := Option.bind_eq_some_iff.mp hk
    obtain ⟨g, hg⟩ := exists_grouped hm
  · exact ⟨⟨.minus, g⟩, congrArg ('-' :: ·) hg⟩
  · exact ⟨⟨.plus, g⟩, congrArg ('+' :: ·) hg⟩
  · exact ⟨⟨.unsigned, g⟩, hg⟩

/-- **The integers are the texts of integers.** -/
theorem integer?_eq_some_iff {n : Int} :
    integer? cs = some n ↔ ∃ i : Numeral, i.chars = cs ∧ i.value = n := by
  constructor
  · intro h
    obtain ⟨i, rfl⟩ := exists_numeral h
    exact ⟨i, rfl, Option.some.inj (i.integer?_chars.symm.trans h)⟩
  · rintro ⟨i, rfl, rfl⟩
    exact i.integer?_chars

/-! ### Both sides of a cut -/

theorem eq_of_cut? {front back : List Char} (h : cut? c cs = some (front, back)) :
    cs = front ++ c :: back ∧ c ∉ front := by
  induction cs generalizing front with
  | nil => cases h
  | cons d cs ih =>
      rw [cut?] at h
      split at h
      next hd =>
        obtain ⟨rfl, rfl⟩ := Prod.mk.inj (Option.some.inj h)
        exact ⟨congrArg (· :: cs) hd, List.not_mem_nil⟩
      next hd =>
        obtain ⟨⟨front', back'⟩, hcut, hpair⟩ := Option.map_eq_some_iff.mp h
        obtain ⟨rfl, rfl⟩ := Prod.mk.inj hpair
        obtain ⟨rfl, hnot⟩ := ih hcut
        refine ⟨rfl, ?_⟩
        rw [List.mem_cons, not_or]
        exact ⟨Ne.symm hd, hnot⟩

/-- What a text without white space at its front begins with has none there either. -/
theorem trimFront_of_append {front back : List Char}
    (h : trimFront (front ++ back) = front ++ back) : trimFront front = front := by
  cases front with
  | nil => rfl
  | cons c front =>
      have hc : isBlank c = false := by
        by_contra hblank
        rw [Bool.not_eq_false] at hblank
        have hdrop : trimFront (c :: (front ++ back)) = trimFront (front ++ back) :=
          List.dropWhile_cons_of_pos hblank
        have hlength := (List.dropWhile_suffix (l := front ++ back) isBlank).length_le
        rw [List.cons_append, hdrop] at h
        have := congrArg List.length h
        rw [trimFront, List.length_cons] at this
        omega
      exact List.dropWhile_cons_of_neg (by rw [hc]; exact Bool.false_ne_true)

/-- The same at the back. -/
theorem trimBack_of_append {front back : List Char}
    (h : trimBack (front ++ back) = front ++ back) : trimBack back = back := by
  have hreverse : trimFront (back.reverse ++ front.reverse) = back.reverse ++ front.reverse := by
    rw [← List.reverse_append, ← List.reverse_eq_iff]
    exact h
  exact List.reverse_eq_iff.mpr (trimFront_of_append hreverse)

/-- Where a trimmed text is cut, the white space that is trimmed off its two sides stands at the
cut. -/
theorem exists_blank_of_bare {front back : List Char} (h : Bare (front ++ c :: back)) :
    (∃ left, Blank left ∧ front = trim front ++ left) ∧
      ∃ right, Blank right ∧ back = right ++ trim back := by
  have hfront : trimFront front = front := trimFront_of_append h.front
  have hback : trimBack back = back := by
    refine @trimBack_of_append (front ++ [c]) back ?_
    rw [List.append_assoc]
    exact h.back
  have hsplit : back.takeWhile isBlank ++ trimFront back = back := List.takeWhile_append_dropWhile
  have hback' : trimBack (trimFront back) = trimFront back := by
    refine @trimBack_of_append (back.takeWhile isBlank) (trimFront back) ?_
    rw [hsplit]
    exact hback
  refine ⟨⟨front.rtakeWhile isBlank, fun _ => List.mem_rtakeWhile_imp, ?_⟩,
    back.takeWhile isBlank, fun _ hd => List.mem_takeWhile_imp hd, ?_⟩
  · rw [trim, hfront]
    exact List.rdropWhile_append_rtakeWhile.symm
  · rw [trim, hback']
    exact hsplit.symm

end Text

namespace Fraction

open Text (Bare Blank Grouped Numeral cut? exists_blank_of_bare integer? isBlank isSign trim)

/-! ### Digits on both sides of a point -/

/-- The digits of a decimal as if there were no point. -/
def joined : Option Grouped → Digits → Grouped
  | none, places => places.grouped
  | some g, places =>
    { g with
      others := g.others ++ places.chars
      grouped := fun c hc =>
        (List.mem_append.mp hc).elim (g.grouped c) fun hc => .inl (places.digits c hc) }

theorem chars_joined (whole : Option Grouped) (places : Digits) :
    (joined whole places).chars = whole.elim [] Grouped.chars ++ places.chars := by
  cases whole with
  | none => exact places.chars_grouped
  | some g => rfl

theorem value_joined (whole : Option Grouped) (places : Digits) :
    (joined whole places).value
      = whole.elim 0 Grouped.value * 10 ^ places.chars.length + places.value := by
  rw [Grouped.value, chars_joined, List.filter_append, places.filter_chars, Nat.ofDigitChars_append,
    Nat.ofDigitChars_eq_ofDigitChars_zero, Nat.mul_comm]
  cases whole <;> rfl

/-! ### The forms of a fraction -/

/-- A text that names a fraction. -/
inductive Form where
  | integer (n : Numeral)
  | quotient (n : Numeral) (left right : List Char) (d : Numeral) (hleft : Blank left)
      (hright : Blank right) (hd : d.value ≠ 0)
  | decimal (signs : List Char) (whole : Option Grouped) (places : Digits)
      (hsigns : ∀ c ∈ signs, isSign c = true)

namespace Form

/-- The text itself. -/
def chars : Form → List Char
  | integer n => n.chars
  | quotient n left right d _ _ _ => n.chars ++ left ++ '/' :: (right ++ d.chars)
  | decimal signs whole places _ => signs ++ whole.elim [] Grouped.chars ++ '.' :: places.chars

/-- The fraction that is meant. -/
def value : Form → Rat
  | integer n => n.value
  | quotient n _ _ d _ _ _ => n.value / d.value
  | decimal signs whole places _ =>
    let x : Rat := (whole.elim 0 Grouped.value * 10 ^ places.chars.length + places.value : Nat)
      / 10 ^ places.chars.length
    if signs.head? = some '-' then -x else x

/-- No sign, or one, is in front. -/
def OneSign : Form → Prop
  | decimal signs _ _ _ => signs.length ≤ 1
  | _ => True

end Form

/-! ### What is read -/

variable {cs : List Char}

theorem head?_elim (whole : Option Grouped) (rest : List Char)
    (hrest : ∀ c ∈ rest.head?, isSign c = false) :
    ∀ c ∈ (whole.elim [] Grouped.chars ++ rest).head?, isSign c = false := by
  cases whole with
  | none => exact hrest
  | some g =>
      rintro _ ⟨⟩
      exact Text.isSign_of_isDigit g.digit

theorem decimal?_form (signs : List Char) (whole : Option Grouped) (places : Digits)
    (hsigns : ∀ c ∈ signs, isSign c = true) :
    decimal? (signs ++ whole.elim [] Grouped.chars) places.chars
      = some (Form.decimal signs whole places hsigns).value := by
  have hplain := head?_elim whole [] nofun
  rw [List.append_nil] at hplain
  have hinteger := (joined whole places).integer?_chars
  rw [chars_joined, value_joined] at hinteger
  exact decimal?_of_signs hsigns hplain hinteger

/-- What stands in front of the point of a decimal does not hold anything but signs, digits and
underscores. -/
theorem not_mem_front {signs : List Char} (whole : Option Grouped)
    (hsigns : ∀ c ∈ signs, isSign c = true) {c : Char}
    (hc : isSign c = false ∧ c.isDigit = false ∧ c ≠ '_') :
    c ∉ signs ++ whole.elim [] Grouped.chars := by
  obtain ⟨hsign, hdigit, hunderscore⟩ := hc
  rw [List.mem_append, not_or]
  refine ⟨fun h => Bool.noConfusion (hsign.symm.trans (hsigns c h)), fun h => ?_⟩
  cases whole with
  | none => exact absurd h List.not_mem_nil
  | some g =>
      rcases Grouped.mem_chars h with h | h
      · exact Bool.noConfusion (hdigit.symm.trans h)
      · exact hunderscore h

namespace Form

/-- Only a quotient has a slash. -/
theorem cut?_slash (n : Form) :
    cut? '/' n.chars = match n with
      | quotient n left right d _ _ _ => some (n.chars ++ left, right ++ d.chars)
      | _ => none := by
  cases n with
  | integer n => exact Text.cut?_of_not_mem (n.not_mem_chars (by decide))
  | quotient n left right d hleft =>
      refine Text.cut?_append ?_
      rw [List.mem_append, not_or]
      exact ⟨n.not_mem_chars (by decide), fun hmem => Bool.noConfusion (hleft '/' hmem)⟩
  | decimal signs whole places hsigns =>
      refine Text.cut?_of_not_mem ?_
      rw [chars, List.mem_append, List.mem_cons, not_or, not_or]
      exact ⟨not_mem_front whole hsigns (by decide), by decide, places.not_mem rfl⟩

/-- Only a decimal has a point. -/
theorem cut?_point (n : Form) :
    cut? '.' n.chars = match n with
      | decimal signs whole places _ => some (signs ++ whole.elim [] Grouped.chars, places.chars)
      | _ => none := by
  cases n with
  | integer n => exact Text.cut?_of_not_mem (n.not_mem_chars (by decide))
  | quotient n left right d hleft hright =>
      refine Text.cut?_of_not_mem ?_
      simp only [chars, List.mem_append, List.mem_cons, not_or]
      exact ⟨⟨n.not_mem_chars (by decide), fun hmem => Bool.noConfusion (hleft '.' hmem)⟩,
        by decide, fun hmem => Bool.noConfusion (hright '.' hmem), d.not_mem_chars (by decide)⟩
  | decimal signs whole places hsigns =>
      exact Text.cut?_append (not_mem_front whole hsigns (by decide))

end Form

/-- Every form is read as the fraction that it means. -/
theorem ofChars?_form (n : Form) (h : trim cs = n.chars) : ofChars? cs = some n.value := by
  have hslash := n.cut?_slash
  have hpoint := n.cut?_point
  cases n with
  | integer n =>
      simp only [ofChars?, h, hslash, hpoint]
      simp only [Form.chars, n.integer?_chars]
      rfl
  | quotient n left right d hleft hright hd =>
      have hfront : trim (n.chars ++ left) = n.chars :=
        (Text.trim_surrounded Text.blank_nil hleft).trans n.trim_chars
      have hback : trim (right ++ d.chars) = d.chars := by
        rw [← List.append_nil (right ++ _), Text.trim_surrounded hright Text.blank_nil,
          d.trim_chars]
      simp only [ofChars?, h, hslash, hfront, hback, n.integer?_chars, d.integer?_chars]
      exact if_neg hd
  | decimal signs whole places hsigns =>
      simp only [ofChars?, h, hslash, hpoint, decimal?_form signs whole places hsigns]

/-! ### What is not read -/

/-- What is in front of the last digits of a run of grouped digits is nothing, or itself such a
run. -/
theorem exists_of_chars_eq {w : List Char} {places : Digits} {g : Grouped}
    (h : g.chars = w ++ places.chars) :
    ∃ whole : Option Grouped, whole.elim [] Grouped.chars = w := by
  cases w with
  | nil => exact ⟨none, rfl⟩
  | cons c w =>
      obtain ⟨rfl, hothers⟩ := List.cons.inj h
      refine ⟨some ⟨g.first, w, g.digit, fun d hd => g.grouped d ?_⟩, rfl⟩
      rw [hothers]
      exact List.mem_append_left _ hd

/-- Behind the signs in front of digits there is no sign. -/
theorem head?_behind_signs {w f : List Char} (hf : ∀ c ∈ f, c.isDigit = true) :
    ∀ c ∈ (w.dropWhile isSign ++ f).head?, isSign c = false := by
  intro c hc
  have hrest := List.head?_dropWhile_not isSign w
  cases hw : w.dropWhile isSign with
  | nil =>
      rw [hw, List.nil_append] at hc
      exact Text.isSign_of_isDigit (hf c (List.mem_of_mem_head? hc))
  | cons d r =>
      rw [hw] at hrest hc
      obtain rfl : d = c := Option.some.inj hc
      exact hrest

theorem exists_decimal {w f : List Char} {x : Rat} (h : decimal? w f = some x) :
    ∃ signs whole places, ∃ hsigns : ∀ c ∈ signs, isSign c = true,
      w ++ '.' :: f = (Form.decimal signs whole places hsigns).chars := by
  rw [decimal?] at h
  split at h
  next => cases h
  next hcond =>
    rw [Bool.not_eq_true, Bool.or_eq_false_iff, Bool.not_eq_false', List.all_eq_true] at hcond
    obtain ⟨hempty, hdigits⟩ := hcond
    let places : Digits := ⟨f, List.isEmpty_eq_false_iff.mp hempty, hdigits⟩
    obtain ⟨n, hn, -⟩ := Option.map_eq_some_iff.mp h
    obtain ⟨m, hm, -⟩ := Option.bind_eq_some_iff.mp hn
    have hinteger : integer? (w.dropWhile isSign ++ f) = some m := hm
    -- Behind the signs there is no sign, so what is read is grouped digits.
    rw [Text.integer?_of_head? (head?_behind_signs hdigits)] at hinteger
    obtain ⟨k, hk, -⟩ := Option.map_eq_some_iff.mp hinteger
    obtain ⟨l, hl, -⟩ := Option.bind_eq_some_iff.mp hk
    obtain ⟨g, hg⟩ := Text.exists_grouped hl
    obtain ⟨whole, hwhole⟩ := @exists_of_chars_eq _ places g hg
    refine ⟨w.takeWhile isSign, whole, places, fun c hc => List.mem_takeWhile_imp hc, ?_⟩
    rw [Form.chars, hwhole, List.takeWhile_append_dropWhile]

/-- Whatever is read has one of the forms. -/
theorem exists_form {x : Rat} (h : ofChars? cs = some x) : ∃ n : Form, n.chars = trim cs := by
  unfold ofChars? at h
  simp only at h
  split at h
  next front back hcut =>
    obtain ⟨hchars, -⟩ := Text.eq_of_cut? hcut
    obtain ⟨k, hk, h⟩ := Option.bind_eq_some_iff.mp h
    obtain ⟨l, hl, h⟩ := Option.bind_eq_some_iff.mp h
    obtain ⟨n, hn, rfl⟩ := Text.integer?_eq_some_iff.mp hk
    obtain ⟨d, hd, rfl⟩ := Text.integer?_eq_some_iff.mp hl
    have hzero : d.value ≠ 0 := by
      intro hzero
      rw [ratio?, if_pos hzero] at h
      cases h
    have hbare : Bare (front ++ '/' :: back) :=
      hchars ▸ Text.bare_of_trim_eq (Text.trim_trim cs)
    obtain ⟨⟨left, hleft, hfront⟩, right, hright, hback⟩ := exists_blank_of_bare hbare
    refine ⟨.quotient n left right d hleft hright hzero, ?_⟩
    rw [Form.chars, hchars, hn, hd, ← hfront, ← hback]
  next =>
    split at h
    next w f hcut =>
      obtain ⟨hchars, -⟩ := Text.eq_of_cut? hcut
      obtain ⟨signs, whole, places, hsigns, hdecimal⟩ := exists_decimal h
      exact ⟨.decimal signs whole places hsigns, (hchars.trans hdecimal).symm⟩
    next =>
      obtain ⟨k, hk, -⟩ := Option.map_eq_some_iff.mp h
      obtain ⟨l, hl, -⟩ := Option.bind_eq_some_iff.mp hk
      obtain ⟨n, hn⟩ := Text.exists_numeral hl
      exact ⟨.integer n, hn⟩

/-- **The fractions are the texts of the three forms.** -/
theorem ofChars?_eq_some_iff {x : Rat} :
    ofChars? cs = some x ↔ ∃ n : Form, n.chars = trim cs ∧ n.value = x := by
  constructor
  · intro h
    obtain ⟨n, hn⟩ := exists_form h
    exact ⟨n, hn, Option.some.inj ((ofChars?_form n hn.symm).symm.trans h)⟩
  · rintro ⟨n, hn, rfl⟩
    exact ofChars?_form n hn.symm

/-! ### Signs -/

theorem takeWhile_isSign_numeral (n : Numeral) (rest : List Char) :
    (n.chars ++ rest).takeWhile isSign = n.sign.chars := by
  have hdigits : (n.digits.chars ++ rest).takeWhile isSign = [] := by
    refine Text.takeWhile_of_head? ?_
    rintro _ ⟨⟩
    exact Text.isSign_of_isDigit n.digits.digit
  rw [Numeral.chars, List.append_assoc, List.takeWhile_append_of_pos n.sign.isSign_of_mem_chars,
    hdigits, List.append_nil]

theorem takeWhile_isSign_decimal {signs : List Char} (whole : Option Grouped) {rest : List Char}
    (hsigns : ∀ c ∈ signs, isSign c = true) (hrest : ∀ c ∈ rest.head?, isSign c = false) :
    (signs ++ whole.elim [] Grouped.chars ++ rest).takeWhile isSign = signs := by
  rw [List.append_assoc, List.takeWhile_append_of_pos hsigns,
    Text.takeWhile_of_head? (head?_elim whole rest hrest), List.append_nil]

theorem length_signs_le (n : Numeral) : n.sign.chars.length ≤ 1 := by
  cases n.sign <;> decide

/-- The signs of a form are the signs that its text begins with. -/
theorem Form.oneSign_iff (n : Form) :
    n.OneSign ↔ (n.chars.takeWhile isSign).length ≤ 1 := by
  cases n with
  | integer n =>
      have htake := takeWhile_isSign_numeral n []
      rw [List.append_nil] at htake
      refine iff_of_true trivial ?_
      rw [Form.chars, htake]
      exact length_signs_le n
  | quotient n left right d =>
      refine iff_of_true trivial ?_
      rw [Form.chars, List.append_assoc, takeWhile_isSign_numeral]
      exact length_signs_le n
  | decimal signs whole places hsigns =>
      have htake := @takeWhile_isSign_decimal signs whole ('.' :: places.chars) hsigns (by
        rintro _ ⟨⟩
        rfl)
      rw [Form.chars, htake]
      rfl

theorem exists_sign {signs : List Char} (hsigns : ∀ c ∈ signs, isSign c = true)
    (h : signs.length ≤ 1) : ∃ sign : Sign, sign.chars = signs := by
  match signs with
  | [] => exact ⟨.unsigned, rfl⟩
  | [c] =>
      have hc := hsigns c List.mem_cons_self
      rw [isSign, Bool.or_eq_true, beq_iff_eq, beq_iff_eq] at hc
      rcases hc with rfl | rfl
      · exact ⟨.minus, rfl⟩
      · exact ⟨.plus, rfl⟩
  | _ :: _ :: _ => exact absurd (Nat.le_of_succ_le_succ h) (Nat.not_succ_le_zero _)

/-- In front of the point of a decimal with one sign at most there is an integer, a sign or
nothing. -/
theorem front_iff {signs : List Char} (whole : Option Grouped)
    (hsigns : ∀ c ∈ signs, isSign c = true) :
    let w := signs ++ whole.elim [] Grouped.chars
    signs.length ≤ 1 ↔ w = [] ∨ w = ['-'] ∨ w = ['+'] ∨ (integer? w).isSome = true := by
  intro w
  have htake : w.takeWhile isSign = signs := by
    have htake := @takeWhile_isSign_decimal signs whole [] hsigns nofun
    rwa [List.append_nil] at htake
  constructor
  · intro hone
    obtain ⟨sign, rfl⟩ := exists_sign hsigns hone
    cases whole with
    | some g =>
        have hinteger : integer? (sign.chars ++ g.chars) = some _ :=
          (⟨sign, g⟩ : Numeral).integer?_chars
        exact .inr (.inr (.inr (Option.isSome_of_eq_some hinteger)))
    | none =>
        cases sign with
        | unsigned => exact .inl rfl
        | plus => exact .inr (.inr (.inl rfl))
        | minus => exact .inr (.inl rfl)
  · rintro (h | h | h | h)
    · rw [← htake, h]
      exact Nat.zero_le 1
    · rw [← htake, h]
      decide
    · rw [← htake, h]
      decide
    · obtain ⟨k, hk⟩ := Option.isSome_iff_exists.mp h
      obtain ⟨n, hn⟩ := Text.exists_numeral hk
      have htake' := takeWhile_isSign_numeral n []
      rw [List.append_nil, hn, htake] at htake'
      rw [htake']
      exact length_signs_le n

/-- **A fraction is read from the texts of the three forms and from no others.**  The numerator,
the denominator and the integer have one sign at most, and so has a decimal unless the text begins
with two.  What stands in front of the point of a decimal is nothing, a sign or an integer exactly
if it has one sign at most. -/
theorem accepted_forms (s : String) :
    (∀ x, ofText? s = some x ↔ ∃ n : Form, n.chars = trim s.toList ∧ n.value = x) ∧
    ∀ n : Form, n.chars = trim s.toList →
      (n.OneSign ↔ ((trim s.toList).takeWhile isSign).length ≤ 1) ∧
      ∀ w f, trim s.toList = w ++ '.' :: f → '.' ∉ w →
        (n.OneSign ↔ w = [] ∨ w = ['-'] ∨ w = ['+'] ∨ (integer? w).isSome = true) := by
  refine ⟨fun x => ofChars?_eq_some_iff, fun n hn => ⟨hn ▸ n.oneSign_iff, fun w f hw hpoint => ?_⟩⟩
  have hcut := n.cut?_point
  rw [hn, hw, Text.cut?_append hpoint] at hcut
  cases n with
  | integer => cases hcut
  | quotient => cases hcut
  | decimal signs whole places hsigns =>
      obtain ⟨rfl, -⟩ := Prod.mk.inj (Option.some.inj hcut)
      exact front_iff whole hsigns

/-- Ten and a half below zero, with an underscore and with white space around it. -/
theorem accepted_forms_below_zero :
    let ten : Grouped := ⟨'1', ['0', '_'], rfl,
      List.forall_mem_cons.mpr ⟨.inl rfl, List.forall_mem_singleton.mpr (.inr rfl)⟩⟩
    let half : Digits := ⟨['5', '0'], List.cons_ne_nil _ _, List.all_eq_true.mp rfl⟩
    let n : Form := .decimal ['-'] (some ten) half (List.all_eq_true.mp rfl)
    let w := ['-', '1', '0', '_']
    n.chars = trim " -10_.50 ".toList ∧ trim " -10_.50 ".toList = w ++ '.' :: half.chars ∧
      '.' ∉ w ∧ ofText? " -10_.50 " = some (-21 / 2) ∧ n.OneSign ∧ (integer? w).isSome = true := by
  intro ten half n w
  have hn : n.chars = trim " -10_.50 ".toList := by decide +kernel
  have hw : trim " -10_.50 ".toList = w ++ '.' :: half.chars := by decide +kernel
  have hpoint : '.' ∉ w := by decide
  have hvalue : n.value = -21 / 2 := by decide +kernel
  obtain ⟨hread, hforms⟩ := accepted_forms " -10_.50 "
  obtain ⟨hsigns, hfront⟩ := hforms n hn
  have hone : n.OneSign := hsigns.mpr (by decide +kernel)
  refine ⟨hn, hw, hpoint, (hread _).mpr ⟨n, hn, hvalue⟩, hone, ?_⟩
  rcases (hfront w half.chars hw hpoint).mp hone with h | h | h | h
  · exact absurd h (by decide)
  · exact absurd h (by decide)
  · exact absurd h (by decide)
  · exact h

/-- A decimal with two signs is read, although an integer and a quotient with two signs are not. -/
theorem accepted_with_two_signs :
    ofText? "--1.5" = some (-3 / 2) ∧ integer? "--1".toList = none ∧ ofText? "--1" = none ∧
      ofText? "--1/2" = none := by
  refine ⟨?_, ?_, ?_, ?_⟩ <;> decide +kernel

end Fraction

end CyclePatterns

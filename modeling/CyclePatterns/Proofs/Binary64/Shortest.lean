/-
Integers as texts of doubles.

The shortest text of a double is looked for among the multiples of the powers of ten, from the
greatest power down.  For an integer below two to the power of 53 only the integer itself reads
back: the others below that bound are doubles of their own, and those beyond it are rounded to
doubles beyond it.  So the search ends with the digits of the integer, at the latest when the
power has come down to one, and the zeros at its end that may be missing are put back when the
digits are laid out.  Read from its digits, with one sign at most, the integer is found again.
-/
import CyclePatterns.Binary64.Text
import CyclePatterns.Proofs.Binary64.Integer
import CyclePatterns.Proofs.Notation.Numerals
import Mathlib.Data.List.DropRight
import Mathlib.Data.Rat.Floor

namespace CyclePatterns

open Notation.Written (Digits Sign isDigit_ne)

theorem floor_le_roundHalfEven (x : Rat) : x.floor ≤ roundHalfEven x := by
  have hnext := Int.le_of_lt (Int.lt_succ x.floor)
  unfold roundHalfEven
  simp only
  split
  · exact le_refl _
  · split
    · exact hnext
    · split
      · exact le_refl _
      · exact hnext

namespace Binary64

variable {n : Nat} {tie : Tie}

/-! ### What reads back -/

/-- Rounding does not lead down past two to the power of 53. -/
theorem two_pow_le_roundPositive (h : 2 ^ 53 ≤ n) : (2 : Rat) ^ 53 ≤ roundPositive n := by
  have hn : 0 < n := lt_of_lt_of_le (by decide) h
  have hlog : 53 ≤ Nat.log2 n := (Nat.le_log2 (Nat.ne_of_gt hn)).mpr h
  obtain ⟨j, hj⟩ := Nat.exists_eq_add_of_le hlog
  have hspacing : spacing (n : Rat) = 2 ^ (j + 1) := by
    have hexp : (Nat.log2 n : Int) - 52 = ((j + 1 : Nat) : Int) := by omega
    have hnot : ¬ (((j + 1 : Nat) : Int) < -1074) := by omega
    simp only [spacing, binaryExponent_natCast hn, hexp]
    rw [if_neg hnot, zpow_natCast]
  have hpos : (0 : Rat) < 2 ^ (j + 1) := by positivity
  have hle : (2 : Rat) ^ 52 * 2 ^ (j + 1) ≤ n := by
    have hself := Nat.log2_self_le (Nat.ne_of_gt hn)
    rw [hj, show 53 + j = 52 + (j + 1) by omega, pow_add] at hself
    exact_mod_cast hself
  have hfloor : (2 : Rat) ^ 52 ≤ roundHalfEven ((n : Rat) / 2 ^ (j + 1)) := by
    have hgrid : (2 ^ 52 : Int) ≤ ((n : Rat) / 2 ^ (j + 1)).floor := by
      refine Rat.le_floor_iff.mpr ((le_div_iff₀ hpos).mpr ?_)
      exact_mod_cast hle
    exact_mod_cast le_trans hgrid (floor_le_roundHalfEven _)
  rw [roundPositive, hspacing]
  calc (2 : Rat) ^ 53 ≤ 2 ^ 52 * 2 ^ (j + 1) := by
        rw [← pow_add]
        exact pow_le_pow_right₀ (by norm_num) (by omega)
    _ ≤ (roundHalfEven ((n : Rat) / 2 ^ (j + 1)) : Rat) * 2 ^ (j + 1) :=
        mul_le_mul_of_nonneg_right hfloor (le_of_lt hpos)

/-- Below two to the power of 53 the double of an integer tells which integer it was. -/
theorem eq_of_ofRat_natCast {m : Nat} (hn : n < 2 ^ 53) (h : ofRat (m : Rat) = finite n) :
    m = n := by
  rcases Nat.lt_or_ge m (2 ^ 53) with hlt | hge
  · rcases Nat.eq_zero_or_pos m with rfl | hpos
    · exact_mod_cast finite.inj h
    · rw [(ofRat_natCast hpos hlt).1] at h
      exact_mod_cast finite.inj h
  · have hpos : (0 : Rat) < m := by exact_mod_cast lt_of_lt_of_le (by decide) hge
    have hround := two_pow_le_roundPositive hge
    simp only [ofRat, ne_of_gt hpos, not_lt.mpr (le_of_lt hpos), if_false] at h
    split at h
    · cases h
    · split at h
      next hzero =>
        rw [hzero] at hround
        exact absurd hround (by norm_num)
      next =>
        have hlt : (n : Rat) < 2 ^ 53 := by exact_mod_cast hn
        rw [finite.inj h] at hround
        exact absurd hround (not_le.mpr hlt)

/-! ### The search for the shortest digits -/

/-- What is found on a grid reads back. -/
theorem ofRat_of_onGrid? {x : Rat} {e : Int} {k : Nat} (h : onGrid? tie x e = some k) :
    ∃ m : Int, (x / (10 : Rat) ^ e).floor ≤ m ∧ m.toNat = k ∧
      ofRat (m * (10 : Rat) ^ e) = finite x := by
  have hnext : (x / (10 : Rat) ^ e).floor ≤ (x / (10 : Rat) ^ e).floor + 1 :=
    Int.le_of_lt (Int.lt_succ _)
  unfold onGrid? at h
  simp only at h
  split at h
  next hlow hhigh =>
    -- If both neighbours read back, it is one of them whichever is nearer.
    have hlow' := beq_iff_eq.mp hlow
    have hhigh' := beq_iff_eq.mp hhigh
    split at h
    · exact ⟨_, le_refl _, Option.some.inj h, hlow'⟩
    · split at h
      · exact ⟨_, hnext, Option.some.inj h, hhigh'⟩
      · cases tie with
        | away => exact ⟨_, hnext, Option.some.inj h, hhigh'⟩
        | even =>
            simp only at h
            split at h
            · exact ⟨_, le_refl _, Option.some.inj h, hlow'⟩
            · exact ⟨_, hnext, Option.some.inj h, hhigh'⟩
  next hlow _ => exact ⟨_, le_refl _, Option.some.inj h, beq_iff_eq.mp hlow⟩
  next _ hhigh => exact ⟨_, hnext, Option.some.inj h, beq_iff_eq.mp hhigh⟩
  next => cases h

/-- On the grid of the integers there is always something that reads back. -/
theorem onGrid?_zero_ne_none (hn : 0 < n) (hlt : n < 2 ^ 53) : onGrid? tie (n : Rat) 0 ≠ none := by
  have hfloor : ((n : Rat) / (10 : Rat) ^ (0 : Int)).floor = n := by
    rw [zpow_zero, div_one]
    exact Rat.floor_intCast n
  have hback : ofRat (((n : Int) : Rat) * (10 : Rat) ^ (0 : Int)) = finite n := by
    rw [zpow_zero, mul_one]
    exact (ofRat_natCast hn hlt).1
  unfold onGrid?
  simp only [hfloor, hback, beq_self_eq_true]
  intro h
  split at h
  next =>
    split at h
    · cases h
    · split at h
      · cases h
      · cases tie <;> cases h
  next => cases h
  next hfalse _ => cases hfalse
  next hfalse _ => cases hfalse

/-- What is found of an integer on the grid of a power of ten is the integer, divided by the
power. -/
theorem mul_pow_of_onGrid? (hn : 0 < n) (hlt : n < 2 ^ 53) {e k : Nat}
    (h : onGrid? tie (n : Rat) e = some k) : k * 10 ^ e = n := by
  obtain ⟨m, hm, rfl, hback⟩ := ofRat_of_onGrid? h
  have hnonneg : 0 ≤ m := by
    refine le_trans (Rat.le_floor_iff.mpr ?_) hm
    positivity
  obtain ⟨k, rfl⟩ := Int.eq_ofNat_of_zero_le hnonneg
  refine eq_of_ofRat_natCast hlt ?_
  rw [← hback, zpow_natCast]
  push_cast
  rfl

theorem length_toDigits_le (h : n < 2 ^ 53) : (Nat.toDigits 10 n).length ≤ 16 :=
  (Nat.length_toDigits_le_iff (by decide) (by decide)).mpr (lt_trans h (by decide))

theorem decimalExponent_natCast (hn : 0 < n) :
    decimalExponent (n : Rat) = ((Nat.toDigits 10 n).length : Int) - 1 := by
  have hone : ¬ (n : Rat) < 1 := by
    have hone : (1 : Rat) ≤ n := by exact_mod_cast hn
    exact not_lt.mpr hone
  have hfloor : (n : Rat).floor.toNat = n := congrArg Int.toNat (Rat.floor_intCast n)
  rw [decimalExponent, if_neg hone, hfloor]

/-- A search over the first numbers ends at the latest where there is something to be found. -/
theorem exists_findSome?_range {β : Type} {f : Nat → Option β} {count top : Nat}
    (htop : top < count) (hf : f top ≠ none) :
    ∃ i b, i ≤ top ∧ f i = some b ∧ (List.range count).findSome? f = some b := by
  have hmem : top ∈ List.range count := List.mem_range.mpr htop
  cases hfound : (List.range count).findSome? f with
  | none => exact absurd (List.findSome?_eq_none_iff.mp hfound top hmem) hf
  | some b =>
      obtain ⟨before, i, behind, hsplit, hi, hbefore⟩ := List.findSome?_eq_some_iff.mp hfound
      have hsorted : (before ++ i :: behind).Pairwise (· < ·) := hsplit ▸ List.pairwise_lt_range
      have hbehind := (List.pairwise_cons.mp (List.pairwise_append.mp hsorted).2.1).1
      rw [hsplit, List.mem_append, List.mem_cons] at hmem
      refine ⟨i, b, ?_, hi, rfl⟩
      rcases hmem with h | h | h
      · exact absurd (hbefore top h) hf
      · exact le_of_eq h.symm
      · exact le_of_lt (hbehind top h)

/-- The shortest digits of an integer are its digits without the zeros at their end, and the point
is behind them all. -/
theorem exists_shortest (hn : 0 < n) (hlt : n < 2 ^ 53) :
    ∃ k e : Nat, k * 10 ^ e = n ∧ shortest tie (n : Rat)
      = (((Nat.toDigits 10 k).reverse.dropWhile (· == '0')).reverse,
          ((Nat.toDigits 10 k).length : Int) + e) := by
  have hlength := length_toDigits_le hlt
  obtain ⟨top, htop⟩ : ∃ top : Nat, (Nat.toDigits 10 n).length = top + 1 :=
    ⟨_, (Nat.succ_pred_eq_of_pos Nat.length_toDigits_pos).symm⟩
  have hexponent : decimalExponent (n : Rat) = top := by
    rw [decimalExponent_natCast hn, htop]
    push_cast
    omega
  have hlast : (onGrid? tie (n : Rat) ((top : Int) - (top : Int))).map
      (fun k => (k, (top : Int) - (top : Int))) ≠ none := by
    rw [Int.sub_self, ne_eq, Option.map_eq_none_iff]
    exact onGrid?_zero_ne_none hn hlt
  obtain ⟨i, found, hi, hcandidate, hfound⟩ := exists_findSome?_range
    (f := fun (i : Nat) => (onGrid? tie (n : Rat) ((top : Int) - (i : Int))).map
      fun k => (k, (top : Int) - (i : Int))) (by omega : top < 17) hlast
  obtain ⟨k, hk, rfl⟩ := Option.map_eq_some_iff.mp hcandidate
  have he : (top : Int) - (i : Int) = ((top - i : Nat) : Int) := by omega
  rw [he] at hk hfound
  refine ⟨k, top - i, mul_pow_of_onGrid? hn hlt hk, ?_⟩
  simp only [shortest, hexponent, hfound, Option.getD_some]

/-! ### Laying the digits out -/

theorem toDigits_mul_pow {k : Nat} (hk : 0 < k) (e : Nat) :
    Nat.toDigits 10 (k * 10 ^ e) = Nat.toDigits 10 k ++ List.replicate e '0' := by
  induction e with
  | zero => rw [Nat.pow_zero, Nat.mul_one, List.replicate_zero, List.append_nil]
  | succ e ih =>
      have hpos : 0 < k * 10 ^ e := Nat.mul_pos hk (Nat.pow_pos (by decide))
      have hlast := Nat.toDigits_append_toDigits (by decide : 1 < 10) hpos (by decide : 0 < 10)
      rw [ih, Nat.add_zero] at hlast
      rw [Nat.pow_succ, ← Nat.mul_assoc, Nat.mul_comm _ 10, ← hlast, List.append_assoc,
        List.replicate_succ']
      rfl

/-- The zeros that are missing at the end are put back. -/
theorem rdropWhile_zeros_append (ds : List Char) :
    ∃ j : Nat, (ds.reverse.dropWhile (· == '0')).reverse ++ List.replicate j '0' = ds := by
  have hzeros : ds.rtakeWhile (· == '0') = List.replicate (ds.rtakeWhile (· == '0')).length '0' :=
    List.eq_replicate_iff.mpr ⟨rfl, fun c hc => by simpa using List.mem_rtakeWhile_imp hc⟩
  refine ⟨(ds.rtakeWhile (· == '0')).length, ?_⟩
  rw [← hzeros]
  exact List.rdropWhile_append_rtakeWhile

/-- Behind digits without the zeros at their end as many zeros as are missing, and then those that
the power of ten stands for. -/
theorem positional_of_append {significant ds : List Char} {j : Nat} (hds : ds ≠ [])
    (h : significant ++ List.replicate j '0' = ds) (e : Nat) :
    positional false significant ((ds.length : Int) + e) = ds ++ List.replicate e '0' := by
  have hlength : significant.length + j = ds.length := by
    rw [← h, List.length_append, List.length_replicate]
  have hpos := List.length_pos_of_ne_nil hds
  have hzeros : ((ds.length : Int) + e - significant.length).toNat = j + e := by omega
  rw [positional, if_neg (by omega), if_pos (by omega), hzeros, List.replicate_add,
    ← List.append_assoc, h]
  exact List.append_nil _

/-- An integer is written with all its digits and without a point. -/
theorem positiveText_plain_natCast (hn : 0 < n) (hlt : n < 2 ^ 53) :
    positiveText .plain (n : Rat) = Nat.toDigits 10 n := by
  obtain ⟨k, e, rfl, hshortest⟩ := @exists_shortest n .away hn hlt
  obtain ⟨j, hj⟩ := rdropWhile_zeros_append (Nat.toDigits 10 k)
  have hk : 0 < k := Nat.pos_of_mul_pos_right hn
  rw [toDigits_mul_pow hk, ← positional_of_append Nat.toDigits_ne_nil hj e, positiveText]
  simp only [Layout.plain, hshortest]

/-- **An integer below two to the power of 53 is written as a double like an integer.** -/
theorem text_plain_ofInt {k : Int} (h : k.natAbs < 2 ^ 53) :
    (ofInt k).text .plain = Text.integer k := by
  rw [ofInt_of_natAbs_lt h, text, Text.integer]
  rcases lt_trichotomy k 0 with hneg | rfl | hpos
  · have hlt : (k : Rat) < 0 := by exact_mod_cast hneg
    have habs : -(k : Rat) = (k.natAbs : Rat) := by
      have hnatAbs : (k.natAbs : Int) = -k := by omega
      rw [← Int.cast_natCast, hnatAbs, Int.cast_neg]
    rw [if_neg (ne_of_lt hlt), if_pos hlt, if_pos hneg, habs,
      positiveText_plain_natCast (by omega) h]
    refine String.toList_inj.mp ?_
    rw [String.toList_ofList, String.toList_append, Text.toList_natural]
    rfl
  · rfl
  · have hlt : (0 : Rat) < k := by exact_mod_cast hpos
    have habs : (k : Rat) = (k.natAbs : Rat) := by
      have hnatAbs : (k.natAbs : Int) = k := by omega
      rw [← Int.cast_natCast, hnatAbs]
    rw [if_neg (ne_of_gt hlt), if_neg (not_lt.mpr (le_of_lt hlt)), if_neg (by omega), habs,
      positiveText_plain_natCast (by omega) h]
    rfl

/-! ### Reading -/

/-- Digits without a point and without an exponent. -/
theorem unsigned?_digits (ds : Digits) : unsigned? ds.chars = some (ofDecimal ds.value 0) := by
  have hwhole : ds.chars.takeWhile Char.isDigit = ds.chars :=
    List.takeWhile_eq_self_iff.mpr ds.digits
  have hrest : ds.chars.dropWhile Char.isDigit = [] := List.dropWhile_eq_nil_iff.mpr ds.digits
  have hempty : ds.chars.isEmpty = false := List.isEmpty_eq_false_iff.mpr ds.nonempty
  simp only [unsigned?, hwhole, hrest, hempty, Bool.false_and, Bool.false_eq_true, if_false,
    List.append_nil, List.length_nil]
  rfl

/-- An integer below two to the power of 53 is read exactly. -/
theorem ofDecimal_zero {n : Nat} (h : n < 2 ^ 53) : ofDecimal n 0 = finite n := by
  rcases Nat.eq_zero_or_pos n with rfl | hpos
  · rfl
  · have hlength := length_toDigits_le h
    rw [ofDecimal, if_neg (Nat.ne_of_gt hpos)]
    simp only
    rw [if_neg (by omega), if_neg (by omega), zpow_zero, mul_one]
    exact (ofRat_natCast hpos h).1

theorem ofChars?_signed (s : Sign) (ds : Digits) (h : ds.value < 2 ^ 53) :
    ofChars? (s.chars ++ ds.chars)
      = some (if s = .minus then (finite ds.value).neg else finite ds.value) := by
  have hread : unsigned? ds.chars = some (finite ds.value) := by
    rw [unsigned?_digits, ofDecimal_zero h]
  cases s with
  | minus =>
      show (unsigned? ds.chars).map neg = _
      rw [hread]
      rfl
  | plus => exact hread
  | unsigned =>
      obtain ⟨c, rest, hchars, hc⟩ := ds.exists_cons
      rw [Sign.chars, List.nil_append, if_neg (by decide)]
      rw [hchars] at hread ⊢
      unfold ofChars?
      split
      · next heq => exact absurd (List.cons.inj heq).1 (isDigit_ne hc rfl)
      · next heq => exact absurd (List.cons.inj heq).1 (isDigit_ne hc rfl)
      · exact hread

end Binary64

end CyclePatterns

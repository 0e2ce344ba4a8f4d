/-
Integers that a double holds exactly.

A cycle number becomes a double before the pattern that plays in the cycle is chosen.
Below two to the power of 53 nothing happens to it on the way: it is a multiple of the
spacing of doubles around it, rounding leaves multiples of the spacing alone, and so the
integer comes back as it was.
-/
import CyclePatterns.Binary64.Basic
import Mathlib.Algebra.Order.Field.Power
import Mathlib.Algebra.Order.Field.Rat
import Mathlib.Tactic.FieldSimp
import Mathlib.Tactic.Linarith
import Mathlib.Tactic.NormNum
import Mathlib.Tactic.Ring

namespace CyclePatterns

theorem roundHalfEven_intCast (n : Int) : roundHalfEven (n : Rat) = n := by
  have hrest : ((n : Rat) - (n : Rat)) < 1 / 2 := by norm_num
  simp only [roundHalfEven, Rat.floor_intCast]
  rw [if_pos hrest]

theorem truncate_intCast (n : Int) : truncate (n : Rat) = n := by
  unfold truncate
  split
  · rw [← Rat.intCast_neg, Rat.floor_intCast, Int.neg_neg]
  · exact Rat.floor_intCast n

theorem clamp_of_mem {low high n : Int} (hlow : low ≤ n) (hhigh : n ≤ high) :
    clamp low high n = n := by
  rw [clamp, if_neg (not_lt.mpr hlow), if_neg (not_lt.mpr hhigh)]

namespace Binary64

theorem binaryExponent_natCast {n : Nat} (hn : 0 < n) :
    binaryExponent (n : Rat) = (Nat.log2 n : Int) := by
  have hle : (2 : Rat) ^ (Nat.log2 n : Int) ≤ (n : Rat) := by
    rw [zpow_natCast]
    exact_mod_cast Nat.log2_self_le (Nat.ne_of_gt hn)
  have hone : Nat.log2 1 = 0 := by decide
  simp only [binaryExponent, Rat.num_natCast, Rat.den_natCast, Int.natAbs_natCast, hone,
    Int.natCast_zero, Int.sub_zero]
  rw [if_pos hle]

/-- Natural numbers below two to the power of 53 lie on the grid of doubles. -/
theorem roundPositive_natCast {n : Nat} (hn : 0 < n) (hlt : n < 2 ^ 53) :
    roundPositive (n : Rat) = n := by
  have hlog : Nat.log2 n < 53 := (Nat.log2_lt (Nat.ne_of_gt hn)).mpr hlt
  obtain ⟨k, hk⟩ : ∃ k : Nat, Nat.log2 n + k = 52 := ⟨52 - Nat.log2 n, by omega⟩
  have hspacing : spacing (n : Rat) = ((2 : Rat) ^ k)⁻¹ := by
    have hexp : (Nat.log2 n : Int) - 52 = -(k : Int) := by omega
    have hnot : ¬ (-(k : Int) < -1074) := by omega
    simp only [spacing, binaryExponent_natCast hn, hexp]
    rw [if_neg hnot, zpow_neg, zpow_natCast]
  have hpow : (2 : Rat) ^ k ≠ 0 := pow_ne_zero k (by norm_num)
  have hgrid : (n : Rat) / ((2 : Rat) ^ k)⁻¹ = (((n * 2 ^ k : Nat) : Int) : Rat) := by
    rw [div_inv_eq_mul]
    push_cast
    ring
  rw [roundPositive, hspacing, hgrid, roundHalfEven_intCast]
  push_cast
  field_simp

theorem ofRat_natCast {n : Nat} (hn : 0 < n) (hlt : n < 2 ^ 53) :
    ofRat (n : Rat) = finite n ∧ ofRat (-(n : Rat)) = finite (-(n : Rat)) := by
  have hpos : (0 : Rat) < n := by exact_mod_cast hn
  have hround := roundPositive_natCast hn hlt
  have hbig : ¬ (2 : Rat) ^ (1024 : Int) ≤ n := by
    have hle : (n : Rat) < 2 ^ 53 := by exact_mod_cast hlt
    have hpow : (2 : Rat) ^ 53 ≤ 2 ^ (1024 : Int) := by
      rw [← zpow_natCast]
      exact zpow_le_zpow_right₀ (by norm_num) (by norm_num)
    exact not_le.mpr (lt_of_lt_of_le hle hpow)
  constructor
  · simp only [ofRat]
    rw [if_neg (ne_of_gt hpos), if_neg (not_lt.mpr (le_of_lt hpos)), hround, if_neg hbig,
      if_neg (ne_of_gt hpos), if_neg (not_lt.mpr (le_of_lt hpos))]
  · have hneg : -(n : Rat) < 0 := neg_lt_zero.mpr hpos
    simp only [ofRat]
    rw [if_neg (ne_of_lt hneg), if_pos hneg, neg_neg, hround, if_neg hbig,
      if_neg (ne_of_gt hpos), if_pos hneg]

/-- An integer of less than 53 bits is a double. -/
theorem ofInt_of_natAbs_lt {n : Int} (h : n.natAbs < 2 ^ 53) : ofInt n = finite n := by
  rcases Nat.eq_zero_or_pos n.natAbs with hzero | hpos
  · rw [Int.natAbs_eq_zero.mp hzero]
    rfl
  · unfold ofInt
    rcases Int.natAbs_eq n with heq | heq
    · rw [heq]
      exact (ofRat_natCast hpos h).1
    · rw [heq, Rat.intCast_neg]
      exact (ofRat_natCast hpos h).2

/-- Such an integer goes through a double unchanged. -/
theorem toInt64_ofInt {n : Int} (h : n.natAbs < 2 ^ 53) : (ofInt n).toInt64 = n := by
  rw [ofInt_of_natAbs_lt h, toInt64, truncate_intCast]
  refine clamp_of_mem ?_ ?_
  · unfold int64Min
    omega
  · unfold int64Max
    omega

end Binary64

end CyclePatterns

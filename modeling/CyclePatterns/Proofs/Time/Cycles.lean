/-
How a span falls into cycles.

A span that is not reversed has one piece in each cycle that one of its moments lies in,
and that piece holds exactly those of its moments.  Cutting a span at the cycle
boundaries therefore commutes with taking a smaller span: the pieces of the smaller one
are the pieces of the larger one, cut down, in the same order.
-/
import CyclePatterns.Proofs.Time.Moments
import Mathlib.Data.Int.Range
import Mathlib.Tactic.Ring

namespace CyclePatterns

/-! ### Runs of integers -/

theorem range_append {a b c : Int} (hab : a ≤ b) (hbc : b ≤ c) :
    Int.range a b ++ Int.range b c = Int.range a c := by
  obtain ⟨i, rfl⟩ := Int.le.dest hab
  obtain ⟨j, rfl⟩ := Int.le.dest hbc
  have hi : (a + (i : Int) - a).toNat = i := by omega
  have hj : (a + (i : Int) + (j : Int) - (a + (i : Int))).toNat = j := by omega
  have hij : (a + (i : Int) + (j : Int) - a).toNat = i + j := by omega
  rw [Int.range, Int.range, Int.range, hi, hj, hij, List.range_add, List.map_append, List.map_map]
  congr 1
  refine List.map_congr_left fun r _ => ?_
  simp [add_assoc]

theorem range_succ {a b : Int} (hab : a ≤ b) : Int.range a (b + 1) = Int.range a b ++ [b] := by
  rw [← range_append hab (by omega : b ≤ b + 1)]
  simp [Int.range]

/-- A run of multiples of `n`, with the numbers in between. -/
theorem range_mul {a b : Int} (hab : a ≤ b) (n : Nat) :
    Int.range (a * n) (b * n)
      = (Int.range a b).flatMap fun c => (List.range n).map fun (i : Nat) => c * n + (i : Int) := by
  obtain ⟨k, rfl⟩ := Int.le.dest hab
  induction k with
  | zero => simp [Int.range]
  | succ k ih =>
      have hle : a ≤ a + (k : Int) := by omega
      have hstart : a * n ≤ (a + (k : Int)) * n := Int.mul_le_mul_of_nonneg_right hle (by omega)
      have hstop : (a + (k : Int) + 1) * n = (a + (k : Int)) * n + n := by ring
      have hlast : Int.range ((a + (k : Int)) * n) ((a + (k : Int)) * n + n)
          = (List.range n).map fun (i : Nat) => (a + (k : Int)) * n + (i : Int) := by
        have hcount : ((a + (k : Int)) * n + n - (a + (k : Int)) * n).toNat = n := by omega
        rw [Int.range, hcount]
      rw [Int.natCast_succ, ← Int.add_assoc, range_succ hle, List.flatMap_append, ← ih hle, hstop,
        ← range_append hstart (by omega), hlast, List.flatMap_singleton]

/-- What is kept of a run of integers is the run that is kept. -/
theorem filterMap_range {β : Type} {a b a' b' : Int} (ha : a' ≤ a) (hab : a ≤ b) (hb : b ≤ b')
    {f : Int → Option β} {g : Int → β}
    (hout : ∀ c, a' ≤ c → c < b' → c < a ∨ b ≤ c → f c = none)
    (hin : ∀ c, a ≤ c → c < b → f c = some (g c)) :
    (Int.range a' b').filterMap f = (Int.range a b).map g := by
  rw [← range_append ha (le_trans hab hb), ← range_append hab hb, List.filterMap_append,
    List.filterMap_append]
  have hleft : (Int.range a' a).filterMap f = [] := by
    refine List.filterMap_eq_nil_iff.mpr fun c hc => ?_
    obtain ⟨hlow, hhigh⟩ := Int.mem_range_iff.mp hc
    exact hout c hlow (by omega) (Or.inl hhigh)
  have hright : (Int.range b b').filterMap f = [] := by
    refine List.filterMap_eq_nil_iff.mpr fun c hc => ?_
    obtain ⟨hlow, hhigh⟩ := Int.mem_range_iff.mp hc
    exact hout c (by omega) hhigh (Or.inr hlow)
  have hmiddle : (Int.range a b).filterMap f = (Int.range a b).map g := by
    refine List.filterMap_eq_map_iff_forall_eq_some.mpr fun c hc => ?_
    obtain ⟨hlow, hhigh⟩ := Int.mem_range_iff.mp hc
    exact hin c hlow hhigh
  rw [hleft, hright, hmiddle, List.nil_append, List.append_nil]

namespace Span

open Fraction (smaller larger)

/-! ### The pieces of a span -/

/-- The moment is in the cycle with that number. -/
theorem floor_eq_iff {m : Rat} {c : Int} : m.floor = c ↔ (c : Rat) ≤ m ∧ m < (c : Rat) + 1 := by
  constructor
  · rintro rfl
    exact ⟨Rat.floor_le m, by exact_mod_cast Rat.floor_lt_iff.mp (Int.lt_succ m.floor)⟩
  · rintro ⟨hle, hlt⟩
    have hge : c ≤ m.floor := Rat.le_floor_iff.mpr hle
    have hlt' : m.floor < c + 1 := Rat.floor_lt_iff.mpr (by exact_mod_cast hlt)
    omega

/-- The number of the first cycle that a span does not reach. -/
def cycleEnd (s : Span) : Int :=
  max s.stop.ceil (s.start.floor + 1)

theorem floor_lt_cycleEnd (s : Span) : s.start.floor < s.cycleEnd := by
  have := le_max_right s.stop.ceil (s.start.floor + 1)
  unfold cycleEnd
  omega

theorem lt_cycleEnd_iff {s : Span} {c : Int} :
    c < s.cycleEnd ↔ (c : Rat) < s.stop ∨ (c : Rat) ≤ s.start := by
  rw [cycleEnd, lt_max_iff, Rat.lt_ceil_iff, Int.lt_add_one_iff, Rat.le_floor_iff]

theorem cycleEnd_of_lt {s : Span} (hs : s.start < s.stop) : s.cycleEnd = s.stop.ceil := by
  refine max_eq_left (Int.add_one_le_of_lt ?_)
  exact Rat.lt_ceil_iff.mpr (lt_of_le_of_lt (Rat.floor_le s.start) hs)

/-- A moment of a span lies in one of its cycles. -/
theorem floor_mem_range {s : Span} {m : Rat} (hm : m ∈ s) :
    s.start.floor ≤ m.floor ∧ m.floor < s.cycleEnd := by
  refine ⟨Rat.floor_monotone (start_le_of_mem hm), lt_cycleEnd_iff.mpr ?_⟩
  have hfloor := Rat.floor_le m
  rcases hm with ⟨-, hlt⟩ | ⟨-, rfl⟩
  · exact Or.inl (lt_of_le_of_lt hfloor hlt)
  · exact Or.inr hfloor

/-- The share of a span in one of its cycles holds the moments that are in that cycle. -/
theorem mem_shareIn {s : Span} {c : Int} (hs : s.start ≤ s.stop) (hlow : s.start.floor ≤ c)
    (hhigh : c < s.cycleEnd) :
    (s.shareIn c).start ≤ (s.shareIn c).stop ∧ ∀ m, m ∈ s.shareIn c ↔ m ∈ s ∧ m.floor = c := by
  have hstart : s.start < (c : Rat) + 1 := by
    exact_mod_cast Rat.floor_lt_iff.mp (Int.lt_add_one_iff.mpr hlow)
  have hstop := lt_cycleEnd_iff.mp hhigh
  simp only [mem_def, floor_eq_iff]
  unfold shareIn larger smaller
  grind

/-- Cutting at the cycle boundaries gives the share in each cycle, for a single moment
as for a span with extent. -/
theorem cycles_eq_map {s : Span} (hs : s.start ≤ s.stop) :
    s.cycles = (Int.range s.start.floor s.cycleEnd).map s.shareIn := by
  unfold cycles
  rcases lt_or_eq_of_le hs with hlt | heq
  · rw [if_pos hlt, cycleEnd_of_lt hlt]
    rfl
  · have hend : s.cycleEnd = s.start.floor + 1 := by
      refine max_eq_right (Rat.ceil_le_iff.mpr ?_)
      rw [← heq]
      exact le_of_lt (Rat.floor_lt_iff.mp (Int.lt_succ _))
    have hshare : s.shareIn s.start.floor = s := by
      obtain ⟨hle, hmem⟩ := mem_shareIn hs (le_refl _) (floor_lt_cycleEnd s)
      refine eq_of_mem_iff hle hs fun m => (hmem m).trans ⟨And.left, fun hm => ⟨hm, ?_⟩⟩
      rw [(mem_iff_of_eq heq).mp hm]
    rw [if_neg (not_lt.mpr (ge_of_eq heq)), if_pos heq, hend, range_succ (le_refl _)]
    simp [Int.range, hshare]

/-- A span from one integer to another falls into whole cycles. -/
theorem cycles_whole {a b : Int} (hab : a < b) :
    (⟨a, b⟩ : Span).cycles = (Int.range a b).map Span.cycle := by
  have hs : (a : Rat) ≤ b := by exact_mod_cast le_of_lt hab
  have hend : (⟨a, b⟩ : Span).cycleEnd = b := by
    rw [cycleEnd, Rat.ceil_intCast, Rat.floor_intCast]
    exact max_eq_left hab
  rw [cycles_eq_map hs, hend, Rat.floor_intCast]
  refine List.map_congr_left fun c hc => ?_
  obtain ⟨hlow, hhigh⟩ := Int.mem_range_iff.mp hc
  have hlow' : (a : Rat) ≤ c := by exact_mod_cast hlow
  have hhigh' : (c : Rat) + 1 ≤ b := by exact_mod_cast hhigh
  unfold shareIn cycle larger smaller
  grind

/-- Every piece is a share, and so holds the moments of one cycle. -/
theorem mem_of_mem_cycles {s piece : Span} (hs : s.start ≤ s.stop) (h : piece ∈ s.cycles) :
    piece.start ≤ piece.stop ∧
      ∀ m, m ∈ piece ↔ m ∈ s ∧ m.floor = piece.start.floor := by
  rw [cycles_eq_map hs, List.mem_map] at h
  obtain ⟨c, hc, rfl⟩ := h
  obtain ⟨hlow, hhigh⟩ := Int.mem_range_iff.mp hc
  obtain ⟨hle, hmem⟩ := mem_shareIn hs hlow hhigh
  have hstart := ((hmem _).mp (start_mem hle)).2
  exact ⟨hle, fun m => by rw [hmem, hstart]⟩

/-- The pieces of a span with extent have extent. -/
theorem lt_of_mem_cycles {s piece : Span} (hs : s.start < s.stop) (h : piece ∈ s.cycles) :
    piece.start < piece.stop := by
  rw [cycles_eq_map (le_of_lt hs), List.mem_map] at h
  obtain ⟨c, hc, rfl⟩ := h
  obtain ⟨hlow, hhigh⟩ := Int.mem_range_iff.mp hc
  have hstart : s.start < (c : Rat) + 1 := by
    exact_mod_cast Rat.floor_lt_iff.mp (Int.lt_add_one_iff.mpr hlow)
  have hstop := lt_cycleEnd_iff.mp hhigh
  unfold shareIn larger smaller
  grind

theorem cycles_of_reversed {s : Span} (hs : s.stop < s.start) : s.cycles = [] := by
  rw [cycles, if_neg (not_lt.mpr (le_of_lt hs)), if_neg (ne_of_gt hs)]

/-- Only a span that is not reversed has pieces. -/
theorem le_of_mem_cycles {s piece : Span} (h : piece ∈ s.cycles) : s.start ≤ s.stop := by
  by_contra hs
  rw [cycles_of_reversed (not_le.mp hs)] at h
  exact absurd h List.not_mem_nil

/-- **The pieces of a smaller span are those of a larger one, cut down.** -/
theorem cycles_of_subset {s t : Span} (hs : s.start ≤ s.stop) (ht : t.start ≤ t.stop)
    (h : s ⊆ t) : s.cycles = t.cycles.filterMap (intersection · s) := by
  have hfirst := floor_mem_range (h _ (start_mem hs))
  have hend : s.cycleEnd ≤ t.cycleEnd := by
    by_contra hlt
    have hc : t.cycleEnd < s.cycleEnd := not_le.mp hlt
    have hlow : s.start.floor ≤ t.cycleEnd := le_of_lt hfirst.2
    -- The share of `s` in the first cycle beyond `t` would hold a moment of `t`.
    obtain ⟨hle, hmem⟩ := mem_shareIn hs hlow hc
    obtain ⟨hm, hfloor⟩ := (hmem _).mp (start_mem hle)
    exact absurd (floor_mem_range (h _ hm)).2 (by rw [hfloor]; exact lt_irrefl _)
  rw [cycles_eq_map hs, cycles_eq_map ht, List.filterMap_map]
  refine (filterMap_range hfirst.1 (le_of_lt (floor_lt_cycleEnd s)) hend ?_ ?_).symm
  · intro c hlow hhigh hout
    obtain ⟨-, hmem⟩ := mem_shareIn ht hlow hhigh
    refine intersection_eq_none_iff.mpr fun m hm hms => ?_
    have hfloor := ((hmem m).mp hm).2
    have hrange := floor_mem_range hms
    omega
  · intro c hlow hhigh
    obtain ⟨hle, hmem⟩ := mem_shareIn hs hlow hhigh
    obtain ⟨-, hmem'⟩ := mem_shareIn ht (le_trans hfirst.1 hlow) (lt_of_lt_of_le hhigh hend)
    refine intersection_eq_some hle fun m => ?_
    rw [hmem, hmem']
    exact ⟨fun hm => ⟨⟨h _ hm.1, hm.2⟩, hm.1⟩, fun hm => ⟨hm.2, hm.1.2⟩⟩

end Span

end CyclePatterns

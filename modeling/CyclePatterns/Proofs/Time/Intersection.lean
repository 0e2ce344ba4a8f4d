/-
What two spans have in common.

A span holds a set of moments: those from its start up to its stop, or one, or none at all.  The
intersection of two spans holds the intersection of their sets, and there is none where the sets
have nothing in common.  A span that is not reversed is all that its set says of it, so the laws
of sets are laws of spans: the order of two spans does not matter, nor does it matter which two of
three are taken first, also where one of the intersections does not exist.
-/
import CyclePatterns.Proofs.Time.Moments
import Mathlib.Data.Set.Lattice
import Mathlib.Order.Interval.Set.Basic

namespace CyclePatterns.Span

/-- The moments that a span holds. -/
def moments (s : Span) : Set Rat :=
  if s.start < s.stop then Set.Ico s.start s.stop
  else if s.start = s.stop then {s.start}
  else ∅

variable {s t r : Span} {m : Rat} {S : Set Rat}

theorem mem_moments : m ∈ s.moments ↔ m ∈ s := by
  unfold moments
  rcases lt_trichotomy s.start s.stop with hlt | heq | hgt
  · rw [if_pos hlt, Set.mem_Ico, mem_iff_of_lt hlt]
  · rw [if_neg (not_lt.mpr (ge_of_eq heq)), if_pos heq, Set.mem_singleton_iff, mem_iff_of_eq heq]
  · rw [if_neg (not_lt.mpr (le_of_lt hgt)), if_neg (ne_of_gt hgt)]
    exact iff_of_false (Set.notMem_empty m) fun h => absurd (le_of_mem h) (not_le.mpr hgt)

theorem moments_nonempty_iff : s.moments.Nonempty ↔ s.start ≤ s.stop :=
  ⟨fun ⟨_, hm⟩ => le_of_mem (mem_moments.mp hm), fun h => ⟨_, mem_moments.mpr (start_mem h)⟩⟩

/-! ### Spans for sets -/

/-- The span for a set of moments: one that is not reversed and holds them, or none if there are no
moments. -/
def IsFor (S : Set Rat) : Option Span → Prop
  | none => S = ∅
  | some r => r.start ≤ r.stop ∧ r.moments = S

namespace IsFor

variable {a b : Option Span}

theorem eq_none_iff (h : IsFor S a) : a = none ↔ S = ∅ := by
  cases a with
  | none => exact iff_of_true rfl h
  | some r =>
      obtain ⟨hr, rfl⟩ := h
      exact iff_of_false (Option.some_ne_none r) (moments_nonempty_iff.mpr hr).ne_empty

/-- There is one span for a set at most. -/
theorem unique (ha : IsFor S a) (hb : IsFor S b) : a = b := by
  cases a with
  | none => exact (hb.eq_none_iff.mpr ha).symm
  | some r =>
      cases b with
      | none => exact ha.eq_none_iff.mpr hb
      | some r' =>
          obtain ⟨hr, hS⟩ := ha
          obtain ⟨hr', hS'⟩ := hb
          refine congrArg some (eq_of_mem_iff hr hr' fun m => ?_)
          rw [← mem_moments, ← mem_moments, hS, hS']

end IsFor

/-- An intersection is the span for the moments that both spans hold. -/
theorem isFor_intersection (s t : Span) : IsFor (s.moments ∩ t.moments) (s.intersection t) := by
  cases hst : s.intersection t with
  | none =>
      refine Set.eq_empty_of_forall_notMem fun m hm => ?_
      exact intersection_eq_none_iff.mp hst m (mem_moments.mp hm.1) (mem_moments.mp hm.2)
  | some r =>
      obtain ⟨hr, hmem⟩ := mem_intersection hst
      refine ⟨hr, Set.ext fun m => ?_⟩
      rw [Set.mem_inter_iff, mem_moments, mem_moments, mem_moments, hmem]

/-- What is left of a set of moments within a span. -/
theorem IsFor.bind_intersection {a : Option Span} (h : IsFor S a) (t : Span) :
    IsFor (S ∩ t.moments) (a.bind (·.intersection t)) := by
  cases a with
  | none =>
      obtain rfl : S = ∅ := h
      exact Set.empty_inter _
  | some r =>
      obtain ⟨-, rfl⟩ := h
      exact isFor_intersection r t

/-! ### The laws of sets -/

theorem intersection_comm (s t : Span) : s.intersection t = t.intersection s :=
  intersection_congr fun _ => and_comm

theorem intersection_self (h : s.start ≤ s.stop) : s.intersection s = some s :=
  intersection_eq_some h fun _ => (and_self_iff).symm

/-- Of three spans it does not matter which two are taken first. -/
theorem bind_intersection_assoc (s t u : Span) :
    (s.intersection t).bind (·.intersection u) = (t.intersection u).bind (s.intersection ·) := by
  have hfirst := (isFor_intersection s t).bind_intersection u
  have hlast := (isFor_intersection t u).bind_intersection s
  rw [Set.inter_comm, ← Set.inter_assoc] at hlast
  rw [hfirst.unique hlast]
  exact Option.bind_congr fun r _ => intersection_comm r s

/-- **Spans intersect as the sets of their moments do.**  There is no intersection exactly if no
moment is in both spans; otherwise it is not reversed and holds the moments that are in both.  So
spans intersect in any order and grouping, and one that is not reversed with itself is itself. -/
theorem intersection_exact (s t u : Span) :
    (s.intersection t = none ↔ s.moments ∩ t.moments = ∅) ∧
      ((s.moments ∩ t.moments).Nonempty → ∃ r, s.intersection t = some r ∧ r.start ≤ r.stop ∧
        r.moments = s.moments ∩ t.moments) ∧
      s.intersection t = t.intersection s ∧
      (s.start ≤ s.stop → s.intersection s = some s) ∧
      (s.intersection t).bind (·.intersection u) = (t.intersection u).bind (s.intersection ·) := by
  have hst := isFor_intersection s t
  have hnone : s.intersection t = none ↔ s.moments ∩ t.moments = ∅ := hst.eq_none_iff
  refine ⟨hnone, fun hmeet => ?_, intersection_comm s t, intersection_self,
    bind_intersection_assoc s t u⟩
  obtain ⟨r, hr⟩ := Option.ne_none_iff_exists'.mp (mt hnone.mp hmeet.ne_empty)
  rw [hr] at hst
  exact ⟨r, hr, hst⟩

/-- A moment on the edge between two cycles belongs to the second of them and not to the first. -/
theorem intersection_exact_at_edge :
    let edge : Span := ⟨1, 1⟩
    edge.start ≤ edge.stop ∧ (edge.moments ∩ (cycle 1).moments).Nonempty ∧
      edge.intersection (cycle 1) = some edge ∧ edge.moments = edge.moments ∩ (cycle 1).moments ∧
      edge.intersection edge = some edge ∧ edge.intersection (cycle 0) = none ∧
      edge.moments ∩ (cycle 0).moments = ∅ := by
  intro edge
  have hedge : edge.start ≤ edge.stop := by decide +kernel
  have hsome : edge.intersection (cycle 1) = some edge := by decide +kernel
  have hnone : edge.intersection (cycle 0) = none := by decide +kernel
  obtain ⟨hiff, hmeet, -, hself, -⟩ := intersection_exact edge (cycle 1) edge
  have hcommon : (edge.moments ∩ (cycle 1).moments).Nonempty :=
    Set.nonempty_iff_ne_empty.mpr fun h =>
      absurd (hsome.symm.trans (hiff.mpr h)) (Option.some_ne_none edge)
  obtain ⟨r, hr, -, hmoments⟩ := hmeet hcommon
  obtain rfl : edge = r := Option.some.inj (hsome.symm.trans hr)
  exact ⟨hedge, hcommon, hsome, hmoments, hself hedge, hnone,
    (intersection_exact edge (cycle 0) edge).1.mp hnone⟩

end CyclePatterns.Span

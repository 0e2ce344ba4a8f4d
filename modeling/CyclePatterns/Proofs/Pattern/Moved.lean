/-
Patterns on another time axis.

Changing the speed of a pattern and playing it later are the same thing seen from the
outside: the haps are moved by some change of time, and for that the query is moved back
by its inverse.  `moved` says so once, for any change of time that keeps the order, and
what is proved of it holds of `fast`, of `slow` and of the slots of `slowcat`.
-/
import CyclePatterns.Pattern.Combine
import CyclePatterns.Proofs.Time.Moments
import Mathlib.Algebra.Order.Field.Rat
import Mathlib.Algebra.Order.Group.OrderIso
import Mathlib.Algebra.Order.GroupWithZero.OrderIso

namespace CyclePatterns

variable {ρ α : Type}

namespace Span

@[simp] theorem mapTime_id (s : Span) : s.mapTime (fun t => t) = s := rfl

end Span

namespace Hap

@[simp] theorem mapSpan_id (h : Hap α) : h.mapSpan (fun s => s) = h := by
  cases h
  simp [mapSpan]

end Hap

namespace Pattern

/-- The pattern with its haps moved by a change of time. -/
def moved (e : Rat ≃o Rat) (p : Pattern ρ α) : Pattern ρ α :=
  (p.withQueryTime e.symm).withHapTime e

theorem query_moved (e : Rat ≃o Rat) (p : Pattern ρ α) (s : Span) :
    (p.moved e).query s
      = (p.query (s.mapTime e.symm)).map (Hap.mapSpan (Span.mapTime e)) := rfl

theorem moved_refl (p : Pattern ρ α) : p.moved (OrderIso.refl Rat) = p := by
  cases p with
  | mk query report =>
      have hspan : Span.mapTime id = id := rfl
      have hhap : Hap.mapSpan id = (id : Hap α → Hap α) := funext Hap.mapSpan_id
      simp [moved, withHapTime, withQueryTime, hspan, hhap]

theorem later_eq_moved (d : Rat) (p : Pattern ρ α) :
    p.later d = p.moved (OrderIso.addRight d) := by
  have hsymm : (fun t : Rat => t - d) = (OrderIso.addRight d).symm := by
    funext t
    exact sub_eq_add_neg t d
  rw [later, moved, hsymm]
  rfl

theorem fast_eq_moved {a : Rat} (ha : 0 < a) (p : Pattern ρ α) :
    p.fast a = p.moved (OrderIso.divRight₀ a ha) := by
  rw [fast, if_neg (not_le.mpr ha)]
  split
  · rename_i hone
    subst hone
    have hid : OrderIso.divRight₀ (1 : Rat) ha = OrderIso.refl Rat := by
      ext t
      simp
    rw [hid, moved_refl]
  · rfl

theorem fast_of_nonpos {a : Rat} (ha : a ≤ 0) (p : Pattern ρ α) : p.fast a = silence := by
  rw [fast, if_pos ha]

/-- Slowing down is speeding up by the inverse. -/
theorem slow_eq_fast (a : Rat) (p : Pattern ρ α) : p.slow a = p.fast a⁻¹ := by
  rw [slow, Fraction.recip?, Fraction.div?]
  split
  · rename_i speed h
    split at h
    · cases h
    · rw [← Option.some.inj h, one_div]
  · rename_i h
    split at h
    · rename_i hzero
      rw [hzero, inv_zero, fast_of_nonpos (le_refl 0)]
    · cases h

theorem slow_one (p : Pattern ρ α) : p.slow 1 = p := by
  rw [slow_eq_fast, inv_one, fast, if_neg (not_le.mpr zero_lt_one), if_pos rfl]

theorem slow_zero (p : Pattern ρ α) : p.slow 0 = silence := by
  rw [slow_eq_fast, inv_zero, fast_of_nonpos (le_refl 0)]

/-! ### Properties that a change of time keeps -/

variable {P : Pattern ρ α → Prop}

/-- What holds of silence and of the pattern on any time axis holds at any speed. -/
theorem fast_of_moved (hsilence : P silence) {p : Pattern ρ α}
    (hmoved : ∀ e : Rat ≃o Rat, P (p.moved e)) (a : Rat) : P (p.fast a) := by
  rcases lt_or_ge 0 a with ha | ha
  · rw [fast_eq_moved ha]
    exact hmoved _
  · rw [fast_of_nonpos ha]
    exact hsilence

theorem slow_of_moved (hsilence : P silence) {p : Pattern ρ α}
    (hmoved : ∀ e : Rat ≃o Rat, P (p.moved e)) (a : Rat) : P (p.slow a) := by
  rw [slow_eq_fast]
  exact fast_of_moved hsilence hmoved _

theorem fast_silence (a : Rat) : (silence : Pattern ρ α).fast a = silence :=
  fast_of_moved (P := (· = silence)) rfl (fun _ => rfl) a

theorem slow_silence (a : Rat) : (silence : Pattern ρ α).slow a = silence := by
  rw [slow_eq_fast, fast_silence]

/-- What holds of silence and of every pattern on any time axis holds of the pattern that
has its turn in a cycle. -/
theorem inCycle_of_moved (hsilence : P silence) (hmoved : ∀ p (e : Rat ≃o Rat), P p → P (p.moved e))
    {ps : List (Pattern ρ α)} (hps : ∀ p ∈ ps, P p) (c : Int) : P (inCycle ps c) := by
  rw [inCycle, later_eq_moved]
  refine hmoved _ _ ?_
  cases hp : ps[turn ps.length c]? with
  | none => exact hsilence
  | some p => exact hps p (List.mem_of_getElem? hp)

end Pattern

end CyclePatterns

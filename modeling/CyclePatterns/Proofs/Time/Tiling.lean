/-
Spans laid end to end.

`Span.Tiles a ps b` says that the spans `ps`, in this order, lead from `a` to `b` without a
gap or an overlap.  Cutting a span with extent at the cycle boundaries gives such a tiling,
and so does replacing each tile by a tiling of it.
-/
import CyclePatterns.Proofs.Time.Cycles

namespace CyclePatterns.Span

open Fraction (smaller larger)

/-- The spans lead from one moment to another: the first begins at the one, each next
begins where the one before it ends, and the last ends at the other. -/
inductive Tiles : Rat → List Span → Rat → Prop
  | nil (t : Rat) : Tiles t [] t
  | cons {p : Span} {ps : List Span} {stop : Rat} (rest : Tiles p.stop ps stop) :
      Tiles p.start (p :: ps) stop

namespace Tiles

variable {a b c : Rat} {ps qs : List Span}

theorem singleton (s : Span) : Tiles s.start [s] s.stop :=
  cons (nil s.stop)

theorem append (h : Tiles a ps b) (h' : Tiles b qs c) : Tiles a (ps ++ qs) c := by
  induction h with
  | nil t => exact h'
  | cons rest ih => exact cons (ih h')

/-- Every tile can be tiled in turn. -/
theorem flatMap (h : Tiles a ps b) {f : Span → List Span}
    (hf : ∀ p ∈ ps, Tiles p.start (f p) p.stop) : Tiles a (ps.flatMap f) b := by
  induction h with
  | nil t => exact nil t
  | cons rest ih =>
      rw [List.flatMap_cons]
      exact (hf _ List.mem_cons_self).append (ih fun p hp => hf p (List.mem_cons_of_mem _ hp))

theorem mapTime (e : Rat → Rat) (h : Tiles a ps b) :
    Tiles (e a) (ps.map (Span.mapTime e)) (e b) := by
  induction h with
  | nil t => exact nil (e t)
  | @cons p ps stop rest ih => exact cons (p := p.mapTime e) ih

/-- Tiles come in order of time. -/
theorem pairwise (h : Tiles a ps b) (hps : ∀ p ∈ ps, p.start ≤ p.stop) :
    ps.Pairwise (fun p q => p.stop ≤ q.start) ∧ ∀ p ∈ ps, a ≤ p.start := by
  induction h with
  | nil t => exact ⟨List.Pairwise.nil, fun p hp => absurd hp List.not_mem_nil⟩
  | @cons p ps stop rest ih =>
      obtain ⟨hpairwise, hlow⟩ := ih fun q hq => hps q (List.mem_cons_of_mem _ hq)
      refine ⟨List.pairwise_cons.mpr ⟨hlow, hpairwise⟩, fun q hq => ?_⟩
      rcases List.mem_cons.mp hq with rfl | hq
      · exact le_refl _
      · exact le_trans (hps p List.mem_cons_self) (hlow q hq)

end Tiles

/-! ### The pieces of a span tile it -/

/-- The shares in the first cycles of a span lead up to the end of the last of them. -/
theorem tiles_shares {s : Span} (k : Nat) (h : s.start.floor + (k : Int) < s.cycleEnd) :
    Tiles s.start ((Int.range s.start.floor (s.start.floor + (k : Int) + 1)).map s.shareIn)
      (s.shareIn (s.start.floor + (k : Int))).stop := by
  induction k with
  | zero =>
      have hfirst : (s.shareIn s.start.floor).start = s.start := by
        have hfloor := Rat.floor_le s.start
        unfold shareIn larger
        grind
      rw [Nat.cast_zero, add_zero, range_succ (le_refl _)]
      have hone := Tiles.singleton (s.shareIn s.start.floor)
      rw [hfirst] at hone
      simpa [Int.range] using hone
  | succ k ih =>
      have hstop := lt_cycleEnd_iff.mp h
      -- The share before reaches up to the boundary, and the next begins there.
      have hmeet : (s.shareIn (s.start.floor + (k : Int))).stop
          = (s.shareIn (s.start.floor + ((k + 1 : Nat) : Int))).start := by
        have hstart : s.start < (s.start.floor : Rat) + 1 := by
          exact_mod_cast Rat.floor_lt_iff.mp (Int.lt_succ s.start.floor)
        unfold shareIn smaller larger
        push_cast at hstop ⊢
        grind
      have hlast := Tiles.singleton (s.shareIn (s.start.floor + ((k + 1 : Nat) : Int)))
      rw [← hmeet] at hlast
      rw [range_succ (by omega), List.map_append, List.map_singleton]
      have hbefore := ih (by push_cast at h; omega)
      push_cast at hbefore hlast ⊢
      rw [← add_assoc] at hlast ⊢
      exact hbefore.append hlast

/-- **The pieces of a span with extent tile it.** -/
theorem tiles_cycles {s : Span} (hs : s.start < s.stop) : Tiles s.start s.cycles s.stop := by
  obtain ⟨k, hk⟩ := Int.le.dest (Int.add_one_le_of_lt (floor_lt_cycleEnd s))
  have hlast : (s.shareIn (s.start.floor + (k : Int))).stop = s.stop := by
    have hceil : s.stop ≤ (s.stop.ceil : Rat) := Rat.le_ceil
    have hreach : (s.stop.ceil : Rat) = (s.start.floor + (k : Int) : Int) + 1 := by
      rw [← cycleEnd_of_lt hs, ← hk]
      push_cast
      ring
    unfold shareIn smaller
    grind
  have htiles := tiles_shares (s := s) k (by omega)
  rw [hlast] at htiles
  rw [cycles_eq_map (le_of_lt hs), ← hk, add_right_comm]
  exact htiles

/-- The pieces of a span with extent come in order of time. -/
theorem pairwise_cycles {s : Span} (hs : s.start < s.stop) :
    s.cycles.Pairwise fun p q => p.stop ≤ q.start :=
  ((tiles_cycles hs).pairwise fun _ hp => le_of_lt (lt_of_mem_cycles hs hp)).1

end CyclePatterns.Span

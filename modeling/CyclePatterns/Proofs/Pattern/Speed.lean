/-
The laws of speed.

Speeds act on patterns as the positive rationals do under multiplication: a speed after a
speed is their product, and slowing down takes speeding up back.  A change of speed can be
made before patterns are played at the same time or after it, and other values can be put in
their place at any moment.  All of this is equality of patterns, so it is equality of the
answers to every query, hap by hap and in order, and of what is reported with them.
-/
import CyclePatterns.Proofs.Pattern.Mapped
import Mathlib.Tactic.NormNum

namespace CyclePatterns

variable {ρ α β : Type}

/-- Moving a hap twice. -/
theorem Hap.mapSpan_mapSpan (f g : Span → Span) (h : Hap α) :
    (h.mapSpan f).mapSpan g = h.mapSpan (g ∘ f) := by
  rw [mapSpan, mapSpan, mapSpan, Option.map_map]
  rfl

namespace Pattern

/-! ### One change of time after another -/

theorem moved_moved (e e' : Rat ≃o Rat) (p : Pattern ρ α) :
    (p.moved e).moved e' = p.moved (e.trans e') := by
  refine eq_of_answers (fun s => ?_) fun _ => rfl
  have htwice : Span.mapTime e' ∘ Span.mapTime e = Span.mapTime (e.trans e') := rfl
  rw [query_moved, query_moved, query_moved, List.map_map]
  refine List.map_congr_left fun h _ => ?_
  rw [Function.comp_apply, Hap.mapSpan_mapSpan, htwice]

theorem fast_one (p : Pattern ρ α) : p.fast 1 = p := by
  rw [fast, if_neg (not_le.mpr zero_lt_one), if_pos rfl]

/-- A speed after a speed is their product. -/
theorem fast_fast {a b : Rat} (ha : 0 < a) (hb : 0 < b) (p : Pattern ρ α) :
    (p.fast a).fast b = p.fast (a * b) := by
  have htwice : (OrderIso.divRight₀ a ha).trans (OrderIso.divRight₀ b hb)
      = OrderIso.divRight₀ (a * b) (mul_pos ha hb) := by
    ext t
    exact div_div t a b
  rw [fast_eq_moved ha, fast_eq_moved hb, fast_eq_moved (mul_pos ha hb), moved_moved, htwice]

theorem fast_slow {a : Rat} (ha : 0 < a) (p : Pattern ρ α) : (p.slow a).fast a = p := by
  rw [slow_eq_fast, fast_fast (inv_pos.mpr ha) ha, inv_mul_cancel₀ ha.ne', fast_one]

theorem slow_fast {a : Rat} (ha : 0 < a) (p : Pattern ρ α) : (p.fast a).slow a = p := by
  rw [slow_eq_fast, fast_fast ha (inv_pos.mpr ha), mul_inv_cancel₀ ha.ne', fast_one]

/-! ### Patterns at the same time -/

theorem moved_stack (e : Rat ≃o Rat) (ps : List (Pattern ρ α)) :
    (stack ps).moved e = stack (ps.map fun p => p.moved e) := by
  refine eq_of_answers (fun s => ?_) fun s => ?_
  · simp only [query_moved, stack, List.map_flatMap, List.flatMap_map]
  · simp only [stack, List.flatMap_map]
    rfl

theorem fast_stack {a : Rat} (ha : 0 < a) (ps : List (Pattern ρ α)) :
    (stack ps).fast a = stack (ps.map fun p => p.fast a) := by
  rw [fast_eq_moved ha, moved_stack]
  exact congrArg stack (List.map_congr_left fun p _ => (fast_eq_moved ha p).symm)

/-! ### All laws together -/

/-- **Speeds form a group of changes of a pattern, and commute with all that does not look at
time.**  The first four laws are those of the group, then comes the one for patterns that are
played at the same time, and last the ones for other values. -/
theorem speed_laws {a b : Rat} (ha : 0 < a) (hb : 0 < b) (p : Pattern ρ α)
    (ps : List (Pattern ρ α)) (f : α → β) :
    ((p.fast a).fast b = p.fast (a * b) ∧
      p.slow a = p.fast (1 / a) ∧
      (p.slow a).fast a = p ∧
      (p.fast a).slow a = p) ∧
    (stack ps).fast a = stack (ps.map fun p => p.fast a) ∧
    ((p.fast a).map f = (p.map f).fast a ∧
      (p.slow a).map f = (p.map f).slow a ∧
      (stack ps).map f = stack (ps.map (map f)) ∧
      (slowcat ps).map f = slowcat (ps.map (map f)) ∧
      (fastcat ps).map f = fastcat (ps.map (map f)) ∧
      p.splitQueries.map f = (p.map f).splitQueries) := by
  refine ⟨⟨fast_fast ha hb p, ?_, fast_slow ha p, slow_fast ha p⟩, fast_stack ha ps, ?_⟩
  · rw [slow_eq_fast, one_div]
  · exact ⟨map_fast f a p, map_slow f a p, map_stack f ps, map_slowcat f ps, map_fastcat f ps,
      map_splitQueries f p⟩

/-- The laws for a pattern that shows what it is asked, and for three of them. -/
theorem speed_laws_echo :
    let echo : Pattern String Span := ⟨fun s => [⟨none, s, s, none⟩], fun _ => []⟩
    let echoes := [echo, echo.fast 3, echo.slow 2]
    (0 < (3 / 2 : Rat) ∧ 0 < (2 / 5 : Rat)) ∧
    ((echo.fast (3 / 2)).fast (2 / 5) = echo.fast (3 / 2 * (2 / 5)) ∧
      echo.slow (3 / 2) = echo.fast (1 / (3 / 2)) ∧
      (echo.slow (3 / 2)).fast (3 / 2) = echo ∧
      (echo.fast (3 / 2)).slow (3 / 2) = echo) ∧
    (stack echoes).fast (3 / 2) = stack (echoes.map fun p => p.fast (3 / 2)) ∧
    ((echo.fast (3 / 2)).map Span.text = (echo.map Span.text).fast (3 / 2) ∧
      (echo.slow (3 / 2)).map Span.text = (echo.map Span.text).slow (3 / 2) ∧
      (stack echoes).map Span.text = stack (echoes.map (map Span.text)) ∧
      (slowcat echoes).map Span.text = slowcat (echoes.map (map Span.text)) ∧
      (fastcat echoes).map Span.text = fastcat (echoes.map (map Span.text)) ∧
      echo.splitQueries.map Span.text = (echo.map Span.text).splitQueries) := by
  intro echo echoes
  have ha : 0 < (3 / 2 : Rat) := by norm_num
  have hb : 0 < (2 / 5 : Rat) := by norm_num
  exact ⟨⟨ha, hb⟩, speed_laws ha hb echo echoes Span.text⟩

end Pattern

end CyclePatterns

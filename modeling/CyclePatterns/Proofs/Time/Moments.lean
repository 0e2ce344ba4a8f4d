/-
A span as the set of its moments.

`intersection` is written with comparisons of ends, and four of its branches are about
a single moment that sits on the edge of the other span.  Nothing that uses it should
have to look at them again.  So a span is read here as the moments it holds: those from
its start up to its stop, or the one moment where both agree, or none.

Two facts carry the rest.  A span that is not reversed is determined by its moments, and
two spans that share a moment share the later of their starts.  From these the
intersection is the common moments and nothing else.
-/
import CyclePatterns.Time.Span
import Mathlib.Data.Rat.Floor
import Mathlib.Order.Hom.Basic

namespace CyclePatterns.Span

open Fraction (smaller larger)

/-- The moment lies in the span. -/
instance : Membership Rat Span :=
  ⟨fun s m => s.start ≤ m ∧ m < s.stop ∨ s.start = s.stop ∧ m = s.start⟩

/-- Every moment of the first span lies in the second. -/
instance : HasSubset Span :=
  ⟨fun s t => ∀ m, m ∈ s → m ∈ t⟩

theorem mem_def {s : Span} {m : Rat} :
    m ∈ s ↔ s.start ≤ m ∧ m < s.stop ∨ s.start = s.stop ∧ m = s.start := Iff.rfl

theorem start_le_of_mem {s : Span} {m : Rat} (h : m ∈ s) : s.start ≤ m := by
  rcases h with ⟨h, -⟩ | ⟨-, rfl⟩
  · exact h
  · exact le_refl _

theorem le_stop_of_mem {s : Span} {m : Rat} (h : m ∈ s) : m ≤ s.stop := by
  rcases h with ⟨-, h⟩ | ⟨h, rfl⟩
  · exact le_of_lt h
  · exact le_of_eq h

theorem lt_stop_of_mem {s : Span} {m : Rat} (hs : s.start < s.stop) (h : m ∈ s) :
    m < s.stop := by
  rcases h with ⟨-, h⟩ | ⟨h, -⟩
  · exact h
  · exact absurd h (ne_of_lt hs)

/-- A span with extent holds the moments from its start up to its stop. -/
theorem mem_iff_of_lt {s : Span} (hs : s.start < s.stop) {m : Rat} :
    m ∈ s ↔ s.start ≤ m ∧ m < s.stop :=
  ⟨fun h => ⟨start_le_of_mem h, lt_stop_of_mem hs h⟩, Or.inl⟩

/-- A span without extent is one moment. -/
theorem mem_iff_of_eq {s : Span} (hs : s.start = s.stop) {m : Rat} :
    m ∈ s ↔ m = s.start := by
  rw [mem_def]
  grind

theorem start_mem {s : Span} (hs : s.start ≤ s.stop) : s.start ∈ s := by
  rcases lt_or_eq_of_le hs with h | h
  · exact Or.inl ⟨le_refl _, h⟩
  · exact Or.inr ⟨h, rfl⟩

/-- Only a reversed span is empty. -/
theorem le_of_mem {s : Span} {m : Rat} (h : m ∈ s) : s.start ≤ s.stop :=
  le_trans (start_le_of_mem h) (le_stop_of_mem h)

/-! ### Spans that hold the same moments -/

/-- What it takes for a span to lie within one that has extent. -/
theorem subset_iff_of_lt {s t : Span} (hs : s.start ≤ s.stop) (ht : t.start < t.stop) :
    s ⊆ t ↔ t.start ≤ s.start ∧ s.start < t.stop ∧ s.stop ≤ t.stop := by
  constructor
  · intro h
    have hstart := (mem_iff_of_lt ht).mp (h _ (start_mem hs))
    refine ⟨hstart.1, hstart.2, ?_⟩
    -- Were the stop beyond, the stop of `t` would be a moment of `s` outside `t`.
    by_contra hbeyond
    have hmem : t.stop ∈ s := Or.inl ⟨le_of_lt hstart.2, not_le.mp hbeyond⟩
    exact lt_irrefl _ (lt_stop_of_mem ht (h _ hmem))
  · rintro ⟨hstart, hlt, hstop⟩ m hm
    rcases hm with ⟨hle, hm⟩ | ⟨-, rfl⟩
    · exact Or.inl ⟨le_trans hstart hle, lt_of_lt_of_le hm hstop⟩
    · exact Or.inl ⟨hstart, hlt⟩

/-- Within a single moment there is only that moment. -/
theorem eq_of_subset_of_eq {s t : Span} (hs : s.start ≤ s.stop) (ht : t.start = t.stop)
    (h : s ⊆ t) : s = t := by
  have hstart : s.start = t.start := (mem_iff_of_eq ht).mp (h _ (start_mem hs))
  have hstop : s.stop = t.stop := by
    rcases lt_or_eq_of_le hs with hlt | heq
    · -- With extent, `s` would hold a moment after its start.
      have hmid : (s.start + s.stop) / 2 ∈ s := Or.inl ⟨by linarith, by linarith⟩
      have hlater := (mem_iff_of_eq ht).mp (h _ hmid)
      linarith
    · rw [← heq, hstart, ht]
  cases s
  cases t
  rw [mk.injEq]
  exact ⟨hstart, hstop⟩

theorem start_le_of_subset {s t : Span} (hs : s.start ≤ s.stop) (h : s ⊆ t) :
    t.start ≤ s.start :=
  start_le_of_mem (h _ (start_mem hs))

theorem stop_le_of_subset {s t : Span} (hs : s.start ≤ s.stop) (ht : t.start ≤ t.stop)
    (h : s ⊆ t) : s.stop ≤ t.stop := by
  rcases lt_or_eq_of_le ht with hlt | heq
  · exact ((subset_iff_of_lt hs hlt).mp h).2.2
  · rw [eq_of_subset_of_eq hs heq h]

/-- Spans that are not reversed and hold the same moments are the same. -/
theorem eq_of_mem_iff {s t : Span} (hs : s.start ≤ s.stop) (ht : t.start ≤ t.stop)
    (h : ∀ m, m ∈ s ↔ m ∈ t) : s = t := by
  have hst : s ⊆ t := fun m => (h m).mp
  have hts : t ⊆ s := fun m => (h m).mpr
  have hstart := le_antisymm (start_le_of_subset ht hts) (start_le_of_subset hs hst)
  have hstop := le_antisymm (stop_le_of_subset hs ht hst) (stop_le_of_subset ht hs hts)
  cases s
  cases t
  rw [mk.injEq]
  exact ⟨hstart, hstop⟩

/-! ### The intersection -/

/-- Where two spans meet at all, they meet at the later of their starts. -/
theorem later_start_mem {s t : Span} {m : Rat} (hs : m ∈ s) (ht : m ∈ t) :
    larger s.start t.start ∈ s ∧ larger s.start t.start ∈ t := by
  simp only [mem_def] at *
  unfold larger
  grind

theorem intersection_of_meet {s t : Span} (hs : larger s.start t.start ∈ s)
    (ht : larger s.start t.start ∈ t) :
    s.intersection t = some ⟨larger s.start t.start, smaller s.stop t.stop⟩ := by
  simp only [mem_def] at *
  unfold intersection smaller larger
  unfold larger at *
  grind

theorem intersection_of_apart {s t : Span}
    (h : ¬ (larger s.start t.start ∈ s ∧ larger s.start t.start ∈ t)) :
    s.intersection t = none := by
  simp only [mem_def] at *
  unfold intersection smaller larger
  unfold larger at *
  grind

theorem mem_meet {s t : Span} (hs : larger s.start t.start ∈ s)
    (ht : larger s.start t.start ∈ t) (m : Rat) :
    m ∈ (⟨larger s.start t.start, smaller s.stop t.stop⟩ : Span) ↔ m ∈ s ∧ m ∈ t := by
  simp only [mem_def] at *
  unfold smaller larger
  unfold larger at *
  grind

/-- **Two spans have no intersection exactly when no moment lies in both.** -/
theorem intersection_eq_none_iff {s t : Span} :
    s.intersection t = none ↔ ∀ m, m ∈ s → m ∉ t := by
  by_cases h : larger s.start t.start ∈ s ∧ larger s.start t.start ∈ t
  · rw [intersection_of_meet h.1 h.2]
    constructor
    · intro hnone
      cases hnone
    · intro hno
      exact absurd h.2 (hno _ h.1)
  · rw [intersection_of_apart h]
    refine ⟨fun _ m hs ht => h (later_start_mem hs ht), fun _ => rfl⟩

/-- **An intersection is not reversed and holds exactly the common moments.** -/
theorem mem_intersection {s t r : Span} (h : s.intersection t = some r) :
    r.start ≤ r.stop ∧ ∀ m, m ∈ r ↔ m ∈ s ∧ m ∈ t := by
  by_cases hmeet : larger s.start t.start ∈ s ∧ larger s.start t.start ∈ t
  · rw [intersection_of_meet hmeet.1 hmeet.2] at h
    obtain rfl := Option.some.inj h
    have hmem := mem_meet hmeet.1 hmeet.2
    exact ⟨le_of_mem ((hmem _).mpr hmeet), hmem⟩
  · rw [intersection_of_apart hmeet] at h
    cases h

/-- A span that holds exactly the common moments is the intersection. -/
theorem intersection_eq_some {s t r : Span} (hr : r.start ≤ r.stop)
    (h : ∀ m, m ∈ r ↔ m ∈ s ∧ m ∈ t) : s.intersection t = some r := by
  cases hst : s.intersection t with
  | none =>
      obtain ⟨hs, ht⟩ := (h _).mp (start_mem hr)
      exact absurd ht (intersection_eq_none_iff.mp hst _ hs)
  | some q =>
      obtain ⟨hq, hmem⟩ := mem_intersection hst
      rw [eq_of_mem_iff hq hr fun m => by rw [hmem, h]]

/-- The intersection depends on the common moments alone. -/
theorem intersection_congr {s t s' t' : Span}
    (h : ∀ m, m ∈ s ∧ m ∈ t ↔ m ∈ s' ∧ m ∈ t') : s.intersection t = s'.intersection t' := by
  cases hst : s'.intersection t' with
  | none =>
      refine intersection_eq_none_iff.mpr fun m hs ht => ?_
      obtain ⟨hs', ht'⟩ := (h m).mp ⟨hs, ht⟩
      exact intersection_eq_none_iff.mp hst m hs' ht'
  | some r =>
      obtain ⟨hr, hmem⟩ := mem_intersection hst
      exact intersection_eq_some hr fun m => by rw [hmem, h]

/-! ### Moving a span

A change of time that keeps the order moves a span and its moments alike.
-/

theorem mem_mapTime (e : Rat ≃o Rat) {s : Span} {m : Rat} :
    m ∈ s.mapTime e ↔ e.symm m ∈ s := by
  simp only [mem_def, mapTime, e.le_symm_apply, e.symm_apply_lt, e.injective.eq_iff,
    e.symm_apply_eq]

theorem mapTime_subset_mapTime (e : Rat ≃o Rat) {s t : Span} :
    s.mapTime e ⊆ t.mapTime e ↔ s ⊆ t := by
  constructor
  · intro h m hm
    have := h (e m) ((mem_mapTime e).mpr (by rwa [e.symm_apply_apply]))
    rwa [mem_mapTime, e.symm_apply_apply] at this
  · intro h m hm
    exact (mem_mapTime e).mpr (h _ ((mem_mapTime e).mp hm))

theorem mapTime_mapTime_symm (e : Rat ≃o Rat) (s : Span) :
    (s.mapTime e.symm).mapTime e = s := by
  simp [mapTime]

theorem intersection_mapTime (e : Rat ≃o Rat) (s t : Span) :
    (s.mapTime e).intersection (t.mapTime e) = (s.intersection t).map (mapTime e) := by
  cases hst : s.intersection t with
  | none =>
      refine intersection_eq_none_iff.mpr fun m hs ht => ?_
      exact intersection_eq_none_iff.mp hst _ ((mem_mapTime e).mp hs) ((mem_mapTime e).mp ht)
  | some r =>
      obtain ⟨hr, hmem⟩ := mem_intersection hst
      refine intersection_eq_some (e.monotone hr) fun m => ?_
      rw [mem_mapTime, mem_mapTime, mem_mapTime, hmem]

end CyclePatterns.Span

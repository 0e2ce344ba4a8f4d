/-
Each onset is heard once.

A scheduler asks for one window after the other and plays what has its onset there.  For
a coherent pattern it does not matter where the windows are cut: a window reports the
onsets of the whole stretch that lie in it.  An event that is cut keeps its onset only in
the window that its start lies in, since every later piece starts after the event does.
-/
import CyclePatterns.Proofs.Pattern.Window
import Mathlib.Data.List.Perm.Basic

namespace CyclePatterns

open Fraction (larger)

variable {ρ α β : Type}

namespace Hap

/-- What a hap says of its event, whichever piece of it the hap is. -/
def event (h : Hap α) : Option Span × α × Option SourceSpan :=
  (h.whole, h.value, h.source)

/-- A window keeps the onset of a hap just when the hap has one and starts in the window. -/
theorem onset_cut {s t : Span} {h : Hap α} (hfit : h.Fits t) (hs : s.start < s.stop) :
    ((h.cut s).filter hasOnset).map event
      = if h.hasOnset && s.contains h.part.start then some h.event else none := by
  obtain ⟨whole, hwhole, -, hin⟩ := hfit.inWhole
  have hbegin : whole.start ≤ h.part.start := Span.start_le_of_subset hfit.forward hin
  have hstart : h.part.start ∈ h.part := Span.start_mem hfit.forward
  have hcontains : s.contains h.part.start = true ↔ h.part.start ∈ s := by
    simp [Span.contains, Span.mem_iff_of_lt hs]
  have hhas : ∀ part : Span, ({ h with part := part } : Hap α).hasOnset = true
      ↔ whole.start = part.start := by
    intro part
    simp [hasOnset, hwhole]
  by_cases hmeet : larger h.part.start s.start ∈ h.part ∧ larger h.part.start s.start ∈ s
  · -- The piece starts at the later of both starts, so it starts with the event only if
    -- the hap does and the window does not start later.
    have honset : whole.start = larger h.part.start s.start
        ↔ h.hasOnset = true ∧ s.contains h.part.start = true := by
      have hself : h.hasOnset = true ↔ whole.start = h.part.start := hhas h.part
      have hlow := (Span.mem_iff_of_lt hs).mp hmeet.2
      rw [hself, hcontains, Span.mem_iff_of_lt hs]
      unfold larger at *
      grind
    rw [cut, Span.intersection_of_meet hmeet.1 hmeet.2, Option.map_some, Option.filter_some]
    by_cases hyes : whole.start = larger h.part.start s.start
    · rw [if_pos ((hhas _).mpr hyes), if_pos (by simpa using honset.mp hyes)]
      rfl
    · have hno : ¬ (h.hasOnset && s.contains h.part.start) = true :=
        fun hc => hyes (honset.mpr (by simpa using hc))
      rw [if_neg fun hc => hyes ((hhas _).mp hc), if_neg hno]
      rfl
  · have hout : s.contains h.part.start = false := by
      by_contra hc
      exact hmeet (Span.later_start_mem hstart (hcontains.mp (by simpa using hc)))
    rw [cut, Span.intersection_of_apart hmeet, hout, Bool.and_false]
    rfl

end Hap

/-! ### Consecutive windows -/

/-- The windows from one cut to the next. -/
def Span.windows : Rat → List Rat → List Span
  | _, [] => []
  | t, u :: cuts => ⟨t, u⟩ :: Span.windows u cuts

/-- Consecutive windows lie in the span from the first cut to the last. -/
theorem Span.mem_windows {s : Span} {t : Rat} {cuts : List Rat} (hne : cuts ≠ [])
    (hsorted : (t :: cuts).Pairwise (· < ·)) (hs : s ∈ Span.windows t cuts) :
    s.start < s.stop ∧ t ≤ s.start ∧ s.stop ≤ cuts.getLast hne := by
  induction cuts generalizing t with
  | nil => exact absurd rfl hne
  | cons u rest ih =>
      obtain ⟨hfirst, hrest⟩ := List.pairwise_cons.mp hsorted
      have htu : t < u := hfirst u List.mem_cons_self
      have hlast : u ≤ (u :: rest).getLast hne := by
        rcases List.mem_cons.mp (List.getLast_mem hne) with heq | hmem
        · exact le_of_eq heq.symm
        · exact le_of_lt ((List.pairwise_cons.mp hrest).1 _ hmem)
      rcases List.mem_cons.mp hs with rfl | hs
      · exact ⟨htu, le_refl _, hlast⟩
      · have hne' : rest ≠ [] := by
          rintro rfl
          exact absurd hs List.not_mem_nil
        obtain ⟨hlt, hle, hstop⟩ := ih hne' hrest hs
        exact ⟨hlt, le_trans (le_of_lt htu) hle, by rwa [List.getLast_cons hne']⟩

/-- Sorting by windows loses nothing and doubles nothing. -/
theorem Span.flatMap_windows_perm (f : β → Rat) (l : List β) {t : Rat} {cuts : List Rat}
    (hne : cuts ≠ []) (hsorted : (t :: cuts).Pairwise (· < ·)) :
    ((Span.windows t cuts).flatMap fun s => l.filter fun x => s.contains (f x)).Perm
      (l.filter fun x => (⟨t, cuts.getLast hne⟩ : Span).contains (f x)) := by
  induction cuts generalizing t with
  | nil => exact absurd rfl hne
  | cons u rest ih =>
      obtain ⟨hfirst, hrest⟩ := List.pairwise_cons.mp hsorted
      cases rest with
      | nil => simp [Span.windows]
      | cons v rest =>
          have hne' : v :: rest ≠ [] := List.cons_ne_nil v rest
          have htu : t < u := hfirst u List.mem_cons_self
          have hlast : u < (v :: rest).getLast hne' :=
            (List.pairwise_cons.mp hrest).1 _ (List.getLast_mem hne')
          set last := (v :: rest).getLast hne' with hlastdef
          rw [Span.windows, List.flatMap_cons, List.getLast_cons hne']
          -- The first window takes what lies before `u`, the others what is left.
          have hsplit := List.filter_append_perm (fun x => decide (f x < u))
            (l.filter fun x => (⟨t, last⟩ : Span).contains (f x))
          rw [List.filter_filter, List.filter_filter] at hsplit
          refine List.Perm.trans (List.Perm.append_left _ (ih hne' hrest)) ?_
          refine List.Perm.trans (List.Perm.of_eq ?_) hsplit
          congr 1
          · refine List.filter_congr fun x _ => ?_
            simp only [Span.contains]
            grind
          · refine List.filter_congr fun x _ => ?_
            simp only [Span.contains]
            grind

namespace Pattern

/-- The events whose onsets a query reports. -/
def onsets (s : Span) (p : Pattern ρ α) : List (Option Span × α × Option SourceSpan) :=
  ((p.query s).filter Hap.hasOnset).map Hap.event

/-- A window reports the onsets of a larger query that lie in it. -/
theorem Coherent.onsets_eq {p : Pattern ρ α} (hp : p.Coherent) {s t : Span}
    (hs : s.start < s.stop) (ht : t.start < t.stop) (hst : s ⊆ t) :
    p.onsets s = (((p.query t).filter Hap.hasOnset).filter
      fun h => s.contains h.part.start).map Hap.event := by
  rw [onsets, hp.window s t (le_of_lt hs) (le_of_lt ht) hst, List.filter_filterMap,
    List.map_filterMap, List.filter_filter, ← List.filterMap_eq_map, List.filterMap_filter]
  refine List.filterMap_congr fun h hh => ?_
  rw [Hap.onset_cut (hp.fits t h hh) hs, Bool.and_comm]
  rfl

/-- **However a stretch of time is cut into windows, each onset in it is reported by
exactly one of them.** -/
theorem Coherent.onsets_windows_perm {p : Pattern ρ α} (hp : p.Coherent) {t : Rat}
    {cuts : List Rat} (hne : cuts ≠ []) (hsorted : (t :: cuts).Pairwise (· < ·)) :
    ((Span.windows t cuts).flatMap fun s => p.onsets s).Perm
      (p.onsets ⟨t, cuts.getLast hne⟩) := by
  set whole : Span := ⟨t, cuts.getLast hne⟩ with hwhole
  have hlt : whole.start < whole.stop :=
    (List.pairwise_cons.mp hsorted).1 _ (List.getLast_mem hne)
  have hsub : ∀ s ∈ Span.windows t cuts, p.onsets s
      = (((p.query whole).filter Hap.hasOnset).filter
          fun h => s.contains h.part.start).map Hap.event := by
    intro s hs
    obtain ⟨hslt, hstart, hstop⟩ := Span.mem_windows hne hsorted hs
    refine hp.onsets_eq hslt hlt ((Span.subset_iff_of_lt (le_of_lt hslt) hlt).mpr ?_)
    exact ⟨hstart, lt_of_lt_of_le hslt hstop, hstop⟩
  rw [List.flatMap_congr hsub, ← List.map_flatMap, hp.onsets_eq hlt hlt fun m hm => hm]
  exact (Span.flatMap_windows_perm _ _ hne hsorted).map _

end Pattern

end CyclePatterns

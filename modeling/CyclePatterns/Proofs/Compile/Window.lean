/-
What a scheduler may rely on, whatever was compiled.

A tree can hold stretches by any amount, nodes of unknown kinds and children that fail,
and its pattern is coherent all the same: coherence is closed under everything that
compiling does.  Three things follow for a scheduler that asks for one window after the
other.  A window shows what a larger one shows, cut down.  Every hap is a piece of its
event, with extent where the query has extent.  And each onset is reported exactly once,
wherever the cuts between the windows fall.
-/
import CyclePatterns.Proofs.Compile.Walk
import CyclePatterns.Proofs.Pattern.Onset

namespace CyclePatterns

/-- Compiling keeps coherence. -/
theorem Score.closed_coherent : Score.Closed Pattern.Coherent where
  silence := Pattern.coherent_silence
  pure := Pattern.coherent_pure
  stack := fun _ => Pattern.coherent_stack
  fastcat := fun _ => Pattern.coherent_fastcat
  slow := fun amount _ hp => hp.slow amount
  mapReporting := fun f _ hp => hp.mapReporting f

namespace Config

theorem coherent_compile (config : Config) (tree : Node) :
    (config.compile tree).pattern.Coherent :=
  Score.closed_coherent.compile config tree

/--
**A window shows what a larger query shows, cut down.**  The haps whose part meets the
window come in the same order, each with the common stretch as its part and all else as
it was.
-/
theorem query_compile_eq_cut (config : Config) (tree : Node) {s t : Span}
    (ht : t.start < t.stop) (hs : s.start ≤ s.stop) (hst : ∀ m, m ∈ s → m ∈ t) :
    (config.compile tree).pattern.query s
      = ((config.compile tree).pattern.query t).filterMap fun h =>
          (h.part.intersection s).map fun part => { h with part := part } :=
  (config.coherent_compile tree).window s t hs (le_of_lt ht) hst

/-- A single moment inside an event that is three halves of a cycle long. -/
theorem query_compile_eq_cut_moment :
    let tree := Node.sequence [.stretch (3 / 2) (some (.scalar (.text "c") none none)),
      .scalar (.text "d") none none]
    let s : Span := ⟨5 / 4, 5 / 4⟩
    let t : Span := ⟨0, 2⟩
    t.start < t.stop ∧ s.start ≤ s.stop ∧ (∀ m, m ∈ s → m ∈ t) ∧
      (Config.default.compile tree).pattern.query s
        = ((Config.default.compile tree).pattern.query t).filterMap fun h =>
            (h.part.intersection s).map fun part => { h with part := part } := by
  intro tree s t
  have ht : t.start < t.stop := by norm_num [t]
  have hs : s.start ≤ s.stop := le_refl _
  have hst : ∀ m, m ∈ s → m ∈ t :=
    (Span.subset_iff_of_lt hs ht).mpr ⟨by norm_num [s, t], by norm_num [s, t], by norm_num [s, t]⟩
  exact ⟨ht, hs, hst, query_compile_eq_cut Config.default tree ht hs hst⟩

/--
**Every hap is a piece of its event that the query covers.**  A reversed query has no
haps.  Where the query has extent, so have the whole and the part, and the part lies in
both the whole and the query.  Where the query is a single moment, the part is that
moment and lies in the whole.
-/
theorem query_compile_wellFormed (config : Config) (tree : Node) (s : Span) :
    (s.stop < s.start → (config.compile tree).pattern.query s = []) ∧
    (s.start < s.stop → ∀ h ∈ (config.compile tree).pattern.query s,
      ∃ whole, h.whole = some whole ∧ whole.start < whole.stop ∧
        max s.start whole.start ≤ h.part.start ∧ h.part.start < h.part.stop ∧
        h.part.stop ≤ min s.stop whole.stop) ∧
    (s.start = s.stop → ∀ h ∈ (config.compile tree).pattern.query s,
      h.part = s ∧
        ∃ whole, h.whole = some whole ∧ whole.start ≤ s.start ∧ s.start < whole.stop) := by
  have hp := config.coherent_compile tree
  refine ⟨hp.reversed s, ?_, ?_⟩
  · intro hs h hh
    have hfit := hp.fits s h hh
    obtain ⟨whole, hwhole, hlt, hin⟩ := hfit.inWhole
    obtain ⟨hquery, -, hquery'⟩ := (Span.subset_iff_of_lt hfit.forward hs).mp hfit.inQuery
    obtain ⟨hbegin, -, hend⟩ := (Span.subset_iff_of_lt hfit.forward hlt).mp hin
    exact ⟨whole, hwhole, hlt, max_le hquery hbegin, hfit.extent hs, le_min hquery' hend⟩
  · intro hs h hh
    have hfit := hp.fits s h hh
    obtain ⟨whole, hwhole, hlt, hin⟩ := hfit.inWhole
    have hpart : h.part = s := Span.eq_of_subset_of_eq hfit.forward hs hfit.inQuery
    rw [hpart] at hin
    have hmoment := (Span.mem_iff_of_lt hlt).mp (hin _ (Span.start_mem (le_of_eq hs)))
    exact ⟨hpart, whole, hwhole, hmoment.1, hmoment.2⟩

/--
**Each onset is reported exactly once.**  However a stretch of time is cut into
consecutive windows, asking for them one by one reports the same events, each as often,
as asking for the whole stretch.
-/
theorem onsets_compile_perm (config : Config) (tree : Node) {t : Rat} {cuts : List Rat}
    (hne : cuts ≠ []) (hsorted : (t :: cuts).Pairwise (· < ·)) :
    ((Span.windows t cuts).flatMap fun s => (config.compile tree).pattern.onsets s).Perm
      ((config.compile tree).pattern.onsets ⟨t, cuts.getLast hne⟩) :=
  (config.coherent_compile tree).onsets_windows_perm hne hsorted

/-- Cuts inside a slowed event, on its end and inside a slot. -/
theorem onsets_compile_perm_three_cuts :
    let tree := Node.sequence [.stretch (3 / 2) (some (.scalar (.text "c") none none)),
      .scalar (.text "d") none none]
    let cuts : List Rat := [1 / 4, 3 / 2, 7 / 4]
    ∃ hne : cuts ≠ [], (((0 : Rat) :: cuts).Pairwise (· < ·)) ∧
      ((Span.windows 0 cuts).flatMap fun s =>
          (Config.default.compile tree).pattern.onsets s).Perm
        ((Config.default.compile tree).pattern.onsets ⟨0, cuts.getLast hne⟩) := by
  intro tree cuts
  have hne : cuts ≠ [] := List.cons_ne_nil _ _
  have hsorted : ((0 : Rat) :: cuts).Pairwise (· < ·) := by
    norm_num [cuts]
  exact ⟨hne, hsorted, onsets_compile_perm Config.default tree hne hsorted⟩

end Config

end CyclePatterns

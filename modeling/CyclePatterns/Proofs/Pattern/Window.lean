/-
What a window shows of a pattern.

A pattern is `Coherent` when its answers to different queries are views of the same
events.  A smaller query must see what a larger one sees, cut down to it: the same haps
in the same order, only their parts are smaller.  And every hap must be a piece of its
event that lies in the query.

The two are proved together because the first needs the second.  `slowcat` asks for each
cycle on its own and joins the answers, so cutting the joint answer means cutting each of
them, and a hap from one cycle must not reach into a window over another.
-/
import CyclePatterns.Proofs.Pattern.Moved
import CyclePatterns.Proofs.Time.Cycles

namespace CyclePatterns

variable {ρ α β : Type}

namespace Hap

/-- The hap as a smaller query sees it, if that query meets it. -/
def cut (s : Span) (h : Hap α) : Option (Hap α) :=
  (h.part.intersection s).map fun part => { h with part := part }

/-- The hap can be an answer to a query of the span. -/
structure Fits (s : Span) (h : Hap α) : Prop where
  /-- The part is not reversed. -/
  forward : h.part.start ≤ h.part.stop
  /-- A query with extent gets parts with extent. -/
  extent : s.start < s.stop → h.part.start < h.part.stop
  /-- The part lies in the query. -/
  inQuery : h.part ⊆ s
  /-- The event has a whole with extent, and the part lies in it. -/
  inWhole : ∃ whole, h.whole = some whole ∧ whole.start < whole.stop ∧ h.part ⊆ whole

/-- A hap of a smaller query that is no more of a single moment fits the larger one. -/
theorem Fits.mono {s t : Span} {h : Hap α} (hfit : h.Fits s) (hst : s ⊆ t)
    (hextent : t.start < t.stop → s.start < s.stop) : h.Fits t where
  forward := hfit.forward
  extent := fun ht => hfit.extent (hextent ht)
  inQuery := fun m hm => hst m (hfit.inQuery m hm)
  inWhole := hfit.inWhole

theorem Fits.map {s : Span} {h : Hap α} (hfit : h.Fits s) (f : α → β) : (h.map f).Fits s :=
  ⟨hfit.forward, hfit.extent, hfit.inQuery, hfit.inWhole⟩

theorem Fits.moved {s : Span} {h : Hap α} (e : Rat ≃o Rat) (hfit : h.Fits (s.mapTime e.symm)) :
    (h.mapSpan (Span.mapTime e)).Fits s where
  forward := e.monotone hfit.forward
  extent := fun hs => e.strictMono (hfit.extent (e.symm.strictMono hs))
  inQuery := by
    have hquery := (Span.mapTime_subset_mapTime e).mpr hfit.inQuery
    rwa [Span.mapTime_mapTime_symm] at hquery
  inWhole := by
    obtain ⟨whole, hwhole, hlt, hsub⟩ := hfit.inWhole
    refine ⟨whole.mapTime e, ?_, e.strictMono hlt, (Span.mapTime_subset_mapTime e).mpr hsub⟩
    simp [mapSpan, hwhole]

theorem cut_map (s : Span) (f : α → β) (h : Hap α) :
    (h.map f).cut s = (h.cut s).map (Hap.map f) := by
  simp [cut, map, Function.comp_def]

/-- Cutting and moving can be done in either order. -/
theorem cut_moved (e : Rat ≃o Rat) (s : Span) (h : Hap α) :
    (h.mapSpan (Span.mapTime e)).cut s
      = (h.cut (s.mapTime e.symm)).map (Hap.mapSpan (Span.mapTime e)) := by
  have hpart : (h.part.mapTime e).intersection s
      = (h.part.intersection (s.mapTime e.symm)).map (Span.mapTime e) := by
    rw [← Span.intersection_mapTime, Span.mapTime_mapTime_symm]
  simp only [cut, mapSpan, hpart, Option.map_map]
  rfl

/-- A hap that lies in a piece of a query meets a window just where the piece does. -/
theorem cut_eq_bind {piece s : Span} {h : Hap α} (hpart : h.part ⊆ piece) :
    h.cut s = (piece.intersection s).bind fun r => h.cut r := by
  cases hr : piece.intersection s with
  | none =>
      have hnone : h.part.intersection s = none := by
        refine Span.intersection_eq_none_iff.mpr fun m hm => ?_
        exact Span.intersection_eq_none_iff.mp hr m (hpart m hm)
      simp [cut, hnone]
  | some r =>
      have hmem := (Span.mem_intersection hr).2
      have hsame : h.part.intersection s = h.part.intersection r := by
        refine Span.intersection_congr fun m => ?_
        rw [hmem]
        exact ⟨fun hm => ⟨hm.1, hpart m hm.1, hm.2⟩, fun hm => ⟨hm.1, hm.2.2⟩⟩
      simp [cut, hsame]

end Hap

namespace Pattern

/-- The answers of the pattern to different queries are views of the same events. -/
structure Coherent (p : Pattern ρ α) : Prop where
  /-- No time, no haps. -/
  reversed : ∀ s, s.stop < s.start → p.query s = []
  /-- Every hap is a piece of its event that lies in the query. -/
  fits : ∀ s, ∀ h ∈ p.query s, h.Fits s
  /-- A smaller query sees what a larger one sees, cut down. -/
  window : ∀ s t, s.start ≤ s.stop → t.start ≤ t.stop → s ⊆ t →
    p.query s = (p.query t).filterMap (Hap.cut s)

theorem coherent_silence : (silence : Pattern ρ α).Coherent :=
  ⟨fun _ _ => rfl, fun _ _ h => absurd h (List.not_mem_nil), fun _ _ _ _ _ => rfl⟩

theorem coherent_pure (value : α) (source : Option SourceSpan) :
    (Pattern.pure value source : Pattern ρ α).Coherent where
  reversed := by
    intro s hs
    simp [Pattern.pure, Span.cycles_of_reversed hs]
  fits := by
    intro s h hh
    obtain ⟨piece, hpiece, rfl⟩ := List.mem_map.mp hh
    have hs : s.start ≤ s.stop := Span.le_of_mem_cycles hpiece
    obtain ⟨hle, hmem⟩ := Span.mem_of_mem_cycles hs hpiece
    refine ⟨hle, fun hlt => Span.lt_of_mem_cycles hlt hpiece, fun m hm => ((hmem m).mp hm).1, ?_⟩
    refine ⟨Span.wholeCycle piece.start, rfl, lt_add_one _, fun m hm => Or.inl ?_⟩
    exact Span.floor_eq_iff.mp ((hmem m).mp hm).2
  window := by
    intro s t hs ht hst
    simp only [Pattern.pure]
    rw [Span.cycles_of_subset hs ht hst, List.map_filterMap, List.filterMap_map]
    refine List.filterMap_congr fun piece hpiece => ?_
    obtain ⟨-, hmem⟩ := Span.mem_of_mem_cycles ht hpiece
    cases hr : piece.intersection s with
    | none => simp [Hap.cut, hr]
    | some r =>
        obtain ⟨hle, hmem'⟩ := Span.mem_intersection hr
        have hsame : r.start.floor = piece.start.floor :=
          ((hmem _).mp ((hmem' _).mp (Span.start_mem hle)).1).2
        simp [Hap.cut, hr, Span.wholeCycle, Time.nextSam, Time.sam, hsame]

theorem Coherent.moved {p : Pattern ρ α} (hp : p.Coherent) (e : Rat ≃o Rat) :
    (p.moved e).Coherent where
  reversed := by
    intro s hs
    have hrev : (s.mapTime e.symm).stop < (s.mapTime e.symm).start := e.symm.strictMono hs
    rw [query_moved, hp.reversed _ hrev, List.map_nil]
  fits := by
    intro s h hh
    rw [query_moved, List.mem_map] at hh
    obtain ⟨k, hk, rfl⟩ := hh
    exact (hp.fits _ k hk).moved e
  window := by
    intro s t hs ht hst
    rw [query_moved, query_moved, List.filterMap_map,
      hp.window (s.mapTime e.symm) (t.mapTime e.symm) (e.symm.monotone hs) (e.symm.monotone ht)
        ((Span.mapTime_subset_mapTime e.symm).mpr hst), List.map_filterMap]
    exact List.filterMap_congr fun h _ => (Hap.cut_moved e s h).symm

theorem Coherent.mapReporting {p : Pattern ρ α} (hp : p.Coherent) (f : α → β × List ρ) :
    (p.mapReporting f).Coherent where
  reversed := by
    intro s hs
    simp [Pattern.mapReporting, hp.reversed s hs]
  fits := by
    intro s h hh
    obtain ⟨k, hk, rfl⟩ := List.mem_map.mp hh
    exact (hp.fits s k hk).map _
  window := by
    intro s t hs ht hst
    simp only [Pattern.mapReporting]
    rw [hp.window s t hs ht hst, List.map_filterMap, List.filterMap_map]
    exact List.filterMap_congr fun h _ => (Hap.cut_map s _ h).symm

theorem coherent_stack {ps : List (Pattern ρ α)} (hps : ∀ p ∈ ps, p.Coherent) :
    (stack ps).Coherent where
  reversed := by
    intro s hs
    exact List.flatMap_eq_nil_iff.mpr fun p hp => (hps p hp).reversed s hs
  fits := by
    intro s h hh
    obtain ⟨p, hp, hh⟩ := List.mem_flatMap.mp hh
    exact (hps p hp).fits s h hh
  window := by
    intro s t hs ht hst
    simp only [stack]
    rw [List.filterMap_flatMap]
    exact List.flatMap_congr fun p hp => (hps p hp).window s t hs ht hst

theorem Coherent.fast {p : Pattern ρ α} (hp : p.Coherent) (a : Rat) : (p.fast a).Coherent :=
  fast_of_moved coherent_silence hp.moved a

theorem Coherent.slow {p : Pattern ρ α} (hp : p.Coherent) (a : Rat) : (p.slow a).Coherent :=
  slow_of_moved coherent_silence hp.moved a

/-! ### In turn -/

theorem coherent_inCycle {ps : List (Pattern ρ α)} (hps : ∀ p ∈ ps, p.Coherent) (c : Int) :
    (inCycle ps c).Coherent :=
  inCycle_of_moved coherent_silence (fun _ e hp => hp.moved e) hps c

theorem coherent_slowcat {ps : List (Pattern ρ α)} (hps : ∀ p ∈ ps, p.Coherent) :
    (slowcat ps).Coherent where
  reversed := by
    intro s hs
    simp [slowcat, Span.cycles_of_reversed hs]
  fits := by
    intro s h hh
    obtain ⟨piece, hpiece, hh⟩ := List.mem_flatMap.mp hh
    have hs : s.start ≤ s.stop := Span.le_of_mem_cycles hpiece
    obtain ⟨-, hmem⟩ := Span.mem_of_mem_cycles hs hpiece
    refine ((coherent_inCycle hps _).fits piece h hh).mono (fun m hm => ((hmem m).mp hm).1) ?_
    exact fun hlt => Span.lt_of_mem_cycles hlt hpiece
  window := by
    intro s t hs ht hst
    simp only [slowcat]
    rw [Span.cycles_of_subset hs ht hst, List.filterMap_flatMap, List.filterMap_eq_flatMap_toList,
      List.flatMap_assoc]
    refine List.flatMap_congr fun piece hpiece => ?_
    obtain ⟨hle, hmem⟩ := Span.mem_of_mem_cycles ht hpiece
    have hin := coherent_inCycle hps piece.start.floor
    have hcut : ∀ h ∈ (inCycle ps piece.start.floor).query piece,
        h.cut s = (piece.intersection s).bind fun r => h.cut r :=
      fun h hh => Hap.cut_eq_bind (hin.fits piece h hh).inQuery
    rw [List.filterMap_congr hcut]
    cases hr : piece.intersection s with
    | none => simp
    | some r =>
        obtain ⟨hler, hmem'⟩ := Span.mem_intersection hr
        have hsub : r ⊆ piece := fun m hm => ((hmem' m).mp hm).1
        have hsame : r.start.floor = piece.start.floor :=
          ((hmem _).mp (hsub _ (Span.start_mem hler))).2
        simp [hsame, hin.window r piece hler hle hsub]

theorem coherent_fastcat {ps : List (Pattern ρ α)} (hps : ∀ p ∈ ps, p.Coherent) :
    (fastcat ps).Coherent := by
  unfold fastcat
  split
  · exact hps _ (List.mem_singleton.mpr rfl)
  · exact (coherent_slowcat hps).fast _

end Pattern

end CyclePatterns

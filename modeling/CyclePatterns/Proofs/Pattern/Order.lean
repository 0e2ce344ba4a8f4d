/-
The order in which haps are found.

A query is answered cycle by cycle, and a cycle of a sequence by one child alone, so haps
are found in order of time unless patterns play at once.  `InOrder` says so of the haps
from some places only, and then also a stack keeps the order as long as no two of its
layers have haps from those places.

A pattern `Fills` time if the parts of its haps cover every query without a gap.  Whether
it does is not a matter of how slots and cycles line up: each cycle of a sequence is filled
by the child in turn, and a change of speed keeps the boundaries together.
-/
import CyclePatterns.Proofs.Pattern.Answer
import CyclePatterns.Proofs.Pattern.Window
import CyclePatterns.Proofs.Time.Tiling

namespace CyclePatterns

variable {ρ α β : Type}

namespace Hap

/-- The part of the one hap is over when that of the other begins. -/
def Before (h k : Hap α) : Prop :=
  h.part.stop ≤ k.part.start

end Hap

namespace Pattern

variable {keep : Option SourceSpan → Bool}

/-- The haps of the pattern that come from certain places. -/
def queryFrom (keep : Option SourceSpan → Bool) (p : Pattern ρ α) (s : Span) : List (Hap α) :=
  (p.query s).filter fun h => keep h.source

theorem mem_queryFrom {p : Pattern ρ α} {s : Span} {h : Hap α} :
    h ∈ p.queryFrom keep s ↔ h ∈ p.query s ∧ keep h.source = true :=
  List.mem_filter

theorem queryFrom_true (p : Pattern ρ α) (s : Span) : p.queryFrom (fun _ => true) s = p.query s :=
  List.filter_true _

theorem queryFrom_moved (e : Rat ≃o Rat) (p : Pattern ρ α) (s : Span) :
    (p.moved e).queryFrom keep s
      = (p.queryFrom keep (s.mapTime e.symm)).map (Hap.mapSpan (Span.mapTime e)) := by
  rw [queryFrom, query_moved, List.filter_map]
  rfl

theorem queryFrom_mapReporting (f : α → β × List ρ) (p : Pattern ρ α) (s : Span) :
    (p.mapReporting f).queryFrom keep s
      = (p.queryFrom keep s).map (Hap.map fun v => (f v).1) :=
  List.filter_map

/-- The haps that come from certain places are found in order of time. -/
structure InOrder (keep : Option SourceSpan → Bool) (p : Pattern ρ α) : Prop where
  coherent : p.Coherent
  ordered : ∀ s, s.start < s.stop → (p.queryFrom keep s).Pairwise Hap.Before

theorem inOrder_silence : (silence : Pattern ρ α).InOrder keep :=
  ⟨coherent_silence, fun _ _ => List.Pairwise.nil⟩

theorem inOrder_pure (value : α) (source : Option SourceSpan) :
    (Pattern.pure value source : Pattern ρ α).InOrder keep where
  coherent := coherent_pure value source
  ordered := by
    intro s hs
    refine List.Pairwise.filter _ ?_
    exact List.pairwise_map.mpr (Span.pairwise_cycles hs)

theorem InOrder.mapReporting {p : Pattern ρ α} (hp : p.InOrder keep) (f : α → β × List ρ) :
    (p.mapReporting f).InOrder keep where
  coherent := hp.coherent.mapReporting f
  ordered := by
    intro s hs
    rw [queryFrom_mapReporting]
    exact List.pairwise_map.mpr (hp.ordered s hs)

theorem InOrder.moved {p : Pattern ρ α} (hp : p.InOrder keep) (e : Rat ≃o Rat) :
    (p.moved e).InOrder keep where
  coherent := hp.coherent.moved e
  ordered := by
    intro s hs
    rw [queryFrom_moved]
    have hends : (s.mapTime e.symm).start < (s.mapTime e.symm).stop := e.symm.lt_iff_lt.mpr hs
    refine List.pairwise_map.mpr ((hp.ordered _ hends).imp ?_)
    exact fun hbefore => e.monotone hbefore

theorem InOrder.fast {p : Pattern ρ α} (hp : p.InOrder keep) (a : Rat) :
    (p.fast a).InOrder keep :=
  fast_of_moved inOrder_silence hp.moved a

theorem InOrder.slow {p : Pattern ρ α} (hp : p.InOrder keep) (a : Rat) :
    (p.slow a).InOrder keep :=
  slow_of_moved inOrder_silence hp.moved a

/-- Layers keep the order if at most one of them has haps from the places in question. -/
theorem inOrder_stack {ps : List (Pattern ρ α)} (hps : ∀ p ∈ ps, p.InOrder keep)
    (hapart : ps.Pairwise fun p q => ∀ s, p.queryFrom keep s = [] ∨ q.queryFrom keep s = []) :
    (stack ps).InOrder keep where
  coherent := coherent_stack fun p hp => (hps p hp).coherent
  ordered := by
    intro s hs
    have hquery : (stack ps).queryFrom keep s = ps.flatMap fun p => p.queryFrom keep s :=
      List.filter_flatMap
    rw [hquery, List.pairwise_flatMap]
    refine ⟨fun p hp => (hps p hp).ordered s hs, hapart.imp fun {p q} hpq h hh k hk => ?_⟩
    rcases hpq s with hnone | hnone
    · rw [hnone] at hh
      exact absurd hh List.not_mem_nil
    · rw [hnone] at hk
      exact absurd hk List.not_mem_nil

theorem inOrder_inCycle {ps : List (Pattern ρ α)} (hps : ∀ p ∈ ps, p.InOrder keep) (c : Int) :
    (inCycle ps c).InOrder keep :=
  inCycle_of_moved inOrder_silence (fun _ e hp => hp.moved e) hps c

theorem inOrder_slowcat {ps : List (Pattern ρ α)} (hps : ∀ p ∈ ps, p.InOrder keep) :
    (slowcat ps).InOrder keep where
  coherent := coherent_slowcat fun p hp => (hps p hp).coherent
  ordered := by
    intro s hs
    have hquery : (slowcat ps).queryFrom keep s
        = s.cycles.flatMap fun piece => (inCycle ps piece.start.floor).queryFrom keep piece :=
      List.filter_flatMap
    rw [hquery, List.pairwise_flatMap]
    refine ⟨fun piece hpiece => ?_, ?_⟩
    · exact (inOrder_inCycle hps _).ordered piece (Span.lt_of_mem_cycles hs hpiece)
    · -- Haps of different pieces are kept apart by the pieces that they lie in.
      refine (Span.pairwise_cycles hs).imp_of_mem ?_
      intro piece piece' hpiece hpiece' hbefore h hh k hk
      have hlt := Span.lt_of_mem_cycles hs hpiece
      have hlt' := Span.lt_of_mem_cycles hs hpiece'
      have hfit := (inOrder_inCycle hps _).coherent.fits piece h (mem_queryFrom.mp hh).1
      have hfit' := (inOrder_inCycle hps _).coherent.fits piece' k (mem_queryFrom.mp hk).1
      calc h.part.stop
          ≤ piece.stop := Span.stop_le_of_subset hfit.forward (le_of_lt hlt) hfit.inQuery
        _ ≤ piece'.start := hbefore
        _ ≤ k.part.start := Span.start_le_of_subset hfit'.forward hfit'.inQuery

theorem inOrder_fastcat {ps : List (Pattern ρ α)} (hps : ∀ p ∈ ps, p.InOrder keep) :
    (fastcat ps).InOrder keep := by
  unfold fastcat
  split
  · exact hps _ (List.mem_singleton.mpr rfl)
  · exact (inOrder_slowcat hps).fast _

/-- Any answer gives such haps in the order in which they are found. -/
theorem InOrder.filter_haps {p : Pattern ρ α} (hp : p.InOrder keep) (q : Query)
    (hq : q.span.start < q.span.stop) :
    ((q.haps p).filter fun h => keep h.source) = p.queryFrom keep q.span := by
  rw [Query.haps_eq_arrange, Query.filter_arrange]
  refine q.arrange_of_pairwise ((hp.ordered _ hq).imp_of_mem fun {h k} hh _ hbefore => ?_)
  exact le_trans (hp.coherent.fits _ h (mem_queryFrom.mp hh).1).forward hbefore

theorem InOrder.haps_eq_query {p : Pattern ρ α} (hp : p.InOrder fun _ => true) (q : Query)
    (hq : q.span.start < q.span.stop) : q.haps p = p.query q.span := by
  rw [← queryFrom_true, ← hp.filter_haps q hq, List.filter_true]

/-! ### Patterns without a gap -/

/-- The parts of the haps lead through every query without a gap or an overlap. -/
def Fills (p : Pattern ρ α) : Prop :=
  ∀ s, s.start < s.stop → Span.Tiles s.start ((p.query s).map (·.part)) s.stop

theorem fills_pure (value : α) (source : Option SourceSpan) :
    (Pattern.pure value source : Pattern ρ α).Fills := by
  intro s hs
  have hparts : ((Pattern.pure value source : Pattern ρ α).query s).map (·.part) = s.cycles := by
    simp [Pattern.pure, Function.comp_def]
  rw [hparts]
  exact Span.tiles_cycles hs

theorem Fills.mapReporting {p : Pattern ρ α} (hp : p.Fills) (f : α → β × List ρ) :
    (p.mapReporting f).Fills := by
  intro s hs
  have hparts : ((p.mapReporting f).query s).map (·.part) = (p.query s).map (·.part) :=
    List.map_map
  rw [hparts]
  exact hp s hs

theorem Fills.moved {p : Pattern ρ α} (hp : p.Fills) (e : Rat ≃o Rat) : (p.moved e).Fills := by
  intro s hs
  have hparts : ((p.moved e).query s).map (·.part)
      = ((p.query (s.mapTime e.symm)).map (·.part)).map (Span.mapTime e) := by
    rw [query_moved, List.map_map, List.map_map]
    rfl
  have hends : (s.mapTime e.symm).start < (s.mapTime e.symm).stop := e.symm.lt_iff_lt.mpr hs
  have htiles := (hp (s.mapTime e.symm) hends).mapTime e
  rw [hparts]
  simpa [Span.mapTime] using htiles

theorem Fills.fast {p : Pattern ρ α} (hp : p.Fills) {a : Rat} (ha : 0 < a) : (p.fast a).Fills := by
  rw [fast_eq_moved ha]
  exact hp.moved _

theorem Fills.slow {p : Pattern ρ α} (hp : p.Fills) {a : Rat} (ha : 0 < a) : (p.slow a).Fills := by
  rw [slow_eq_fast]
  exact hp.fast (inv_pos.mpr ha)

/-- Some pattern of a list that is not empty has its turn in every cycle. -/
theorem turn_lt {n : Nat} (hn : 0 < n) (c : Int) : turn n c < n := by
  have hpos : (0 : Int) < n := by exact_mod_cast hn
  have hnonneg := Int.emod_nonneg (Binary64.ofInt c).toInt64 (ne_of_gt hpos)
  have hlt := Int.emod_lt_of_pos (Binary64.ofInt c).toInt64 hpos
  unfold turn
  omega

theorem fills_inCycle {ps : List (Pattern ρ α)} (hne : ps ≠ []) (hps : ∀ p ∈ ps, p.Fills)
    (c : Int) : (inCycle ps c).Fills := by
  have hturn : turn ps.length c < ps.length := turn_lt (List.length_pos_of_ne_nil hne) c
  rw [inCycle, later_eq_moved, List.getElem?_eq_getElem hturn]
  exact (hps _ (List.getElem_mem hturn)).moved _

theorem fills_slowcat {ps : List (Pattern ρ α)} (hne : ps ≠ []) (hps : ∀ p ∈ ps, p.Fills) :
    (slowcat ps).Fills := by
  intro s hs
  have hparts : ((slowcat ps).query s).map (·.part) = s.cycles.flatMap fun piece =>
      ((inCycle ps piece.start.floor).query piece).map (·.part) := List.map_flatMap
  rw [hparts]
  refine (Span.tiles_cycles hs).flatMap fun piece hpiece => ?_
  exact fills_inCycle hne hps _ piece (Span.lt_of_mem_cycles hs hpiece)

theorem fills_fastcat {ps : List (Pattern ρ α)} (hne : ps ≠ []) (hps : ∀ p ∈ ps, p.Fills) :
    (fastcat ps).Fills := by
  unfold fastcat
  split
  · exact hps _ (List.mem_singleton.mpr rfl)
  · exact (fills_slowcat hne hps).fast (Nat.cast_pos.mpr (List.length_pos_of_ne_nil hne))

end Pattern

end CyclePatterns

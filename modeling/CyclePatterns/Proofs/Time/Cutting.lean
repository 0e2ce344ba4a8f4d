/-
Cutting a span round by round.

A round cuts the rest of one cycle off the span.  How many cycles there are from where the rest
starts up to the stop is known beforehand, and every round takes one of them away; so the
rounds come to an end.  They do so in two ways: a stop inside a cycle is met by the last piece,
which leaves no rest, and a stop on a boundary by a rest that starts there.  Either way the pieces
are the shares of the span in its cycles, which is what `Span.cycles` says.  A piece lies within
one cycle, so cutting it again leaves it as it is.
-/
import CyclePatterns.Proofs.Pattern.Turns
import CyclePatterns.Proofs.Time.Tiling

namespace CyclePatterns

namespace Cutting

variable {start stop : Rat} {pieces : List Span}

/-! ### One round -/

theorem round?_of_le (h : stop ≤ start) : (⟨pieces, some start⟩ : Cutting).round? stop = none :=
  if_neg (not_lt.mpr h)

/-- A rest within one cycle is the last piece. -/
theorem round?_last (h : start < stop) (hsam : start.floor = stop.floor) :
    (⟨pieces, some start⟩ : Cutting).round? stop = some ⟨pieces ++ [⟨start, stop⟩], none⟩ := by
  have hsam' : Time.sam start = Time.sam stop := congrArg Int.cast hsam
  rw [round?, Option.bind_some, if_pos h, if_pos hsam']

/-- Of a longer rest the next piece goes up to the next cycle. -/
theorem round?_next (h : start < stop) (hsam : start.floor ≠ stop.floor) :
    (⟨pieces, some start⟩ : Cutting).round? stop
      = some ⟨pieces ++ [⟨start, Time.nextSam start⟩], some (Time.nextSam start)⟩ := by
  have hsam' : Time.sam start ≠ Time.sam stop := fun heq => hsam (Int.cast_injective heq)
  rw [round?, Option.bind_some, if_pos h, if_neg hsam']

/-! ### All rounds -/

theorem nextSam_eq (t : Rat) : Time.nextSam t = ((t.floor + 1 : Int) : Rat) := by
  rw [Time.nextSam, Time.sam]
  push_cast
  rfl

/-- The share of a span in the cycle that it starts in. -/
theorem shareIn_floor (start stop : Rat) :
    (⟨start, stop⟩ : Span).shareIn start.floor
      = ⟨start, Fraction.smaller stop (Time.nextSam start)⟩ := by
  have hle : (start.floor : Rat) ≤ start := Rat.floor_le start
  unfold Span.shareIn Fraction.larger Time.nextSam Time.sam
  grind

/-- The shares in the cycles behind the first do not depend on where in the first the span
starts. -/
theorem shareIn_nextSam {c : Int} (hc : start.floor < c) :
    (⟨Time.nextSam start, stop⟩ : Span).shareIn c = (⟨start, stop⟩ : Span).shareIn c := by
  have hlt : start < ((start.floor + 1 : Int) : Rat) := Rat.floor_lt_iff.mp (Int.lt_succ _)
  have hle : ((start.floor + 1 : Int) : Rat) ≤ c := by exact_mod_cast hc
  rw [nextSam_eq]
  unfold Span.shareIn Fraction.larger
  grind

theorem floor_add_one_le_ceil (h : start < stop) : start.floor + 1 ≤ stop.ceil :=
  Int.add_one_le_of_lt (Rat.lt_ceil_iff.mpr (lt_of_le_of_lt (Rat.floor_le start) h))

/-- The share in the first cycle, and then those in the cycles behind it. -/
theorem shares_eq_cons (h : start < stop) :
    (Int.range start.floor stop.ceil).map (⟨start, stop⟩ : Span).shareIn
      = ⟨start, Fraction.smaller stop (Time.nextSam start)⟩ ::
        (Int.range (start.floor + 1) stop.ceil).map
          (⟨Time.nextSam start, stop⟩ : Span).shareIn := by
  have hbehind :
      (Int.range (start.floor + 1) stop.ceil).map (⟨Time.nextSam start, stop⟩ : Span).shareIn
        = (Int.range (start.floor + 1) stop.ceil).map (⟨start, stop⟩ : Span).shareIn := by
    refine List.map_congr_left fun c hc => shareIn_nextSam ?_
    have hlow := (Int.mem_range_iff.mp hc).1
    omega
  have hfirst : Int.range start.floor (start.floor + 1) = [start.floor] := by
    simp [Int.range]
  rw [hbehind, ← range_append (le_of_lt (Int.lt_succ _)) (floor_add_one_le_ceil h), hfirst,
    List.map_append, List.map_singleton, shareIn_floor]
  rfl

/-- A stop inside the cycle of the start leaves no cycle behind it, or there would be a boundary on
the way. -/
theorem ceil_eq_of_floor_eq (h : start < stop) (hsam : start.floor = stop.floor) :
    stop.ceil = start.floor + 1 := by
  have hlow := floor_add_one_le_ceil h
  have hhigh : stop.ceil ≤ stop.floor + 1 :=
    Rat.ceil_le_iff.mpr (le_of_lt (Rat.floor_lt_iff.mp (Int.lt_succ _)))
  omega

theorem shares_last (h : start < stop) (hsam : start.floor = stop.floor) :
    (Int.range start.floor stop.ceil).map (⟨start, stop⟩ : Span).shareIn = [⟨start, stop⟩] := by
  have hnext : stop ≤ Time.nextSam start := by
    rw [nextSam_eq, hsam]
    exact le_of_lt (Rat.floor_lt_iff.mp (Int.lt_succ _))
  have hbehind : Int.range (start.floor + 1) stop.ceil = [] := by
    rw [ceil_eq_of_floor_eq h hsam]
    simp [Int.range]
  rw [shares_eq_cons h, hbehind, Fraction.smaller]
  grind

theorem nextSam_le (h : start < stop) (hsam : start.floor ≠ stop.floor) :
    Time.nextSam start ≤ stop := by
  have hfloor := lt_of_le_of_ne (Rat.floor_monotone (le_of_lt h)) hsam
  rw [nextSam_eq]
  exact Rat.le_floor_iff.mp (Int.add_one_le_of_lt hfloor)

theorem shares_next (h : start < stop) (hsam : start.floor ≠ stop.floor) :
    (Int.range start.floor stop.ceil).map (⟨start, stop⟩ : Span).shareIn
      = ⟨start, Time.nextSam start⟩ ::
        (Int.range (start.floor + 1) stop.ceil).map
          (⟨Time.nextSam start, stop⟩ : Span).shareIn := by
  rw [shares_eq_cons h, Fraction.smaller, if_neg (not_lt.mpr (nextSam_le h hsam))]

/-- With so many cycles ahead there are as many rounds, and they cut off the shares in these
cycles. -/
theorem exists_rounds? (n : Nat) (hn : start.floor + (n : Int) = stop.ceil)
    (hrest : n = 0 ∨ start < stop) :
    ∃ last, (⟨pieces, some start⟩ : Cutting).rounds? stop n = some last ∧
      last.round? stop = none ∧
      last.pieces
        = pieces ++ (Int.range start.floor stop.ceil).map (⟨start, stop⟩ : Span).shareIn := by
  -- The rest has to be a variable: a round leaves the next boundary in place of the start.
  induction n generalizing start pieces with
  | zero =>
      have hle : stop ≤ start := calc
        stop ≤ (stop.ceil : Rat) := Rat.le_ceil
        _ = (start.floor : Rat) := by rw [← hn]; simp
        _ ≤ start := Rat.floor_le start
      refine ⟨_, rfl, round?_of_le hle, ?_⟩
      rw [← hn]
      simp [Int.range]
  | succ n ih =>
      have hlt : start < stop := hrest.resolve_left (Nat.succ_ne_zero n)
      by_cases hsam : start.floor = stop.floor
      · have hceil := ceil_eq_of_floor_eq hlt hsam
        obtain rfl : n = 0 := by omega
        refine ⟨⟨pieces ++ [⟨start, stop⟩], none⟩, ?_, rfl, by rw [shares_last hlt hsam]⟩
        rw [rounds?, round?_last hlt hsam]
        rfl
      · have hfloor : (Time.nextSam start).floor = start.floor + 1 := by
          rw [nextSam_eq, Rat.floor_intCast]
        have hahead : n = 0 ∨ Time.nextSam start < stop := by
          rcases lt_or_eq_of_le (nextSam_le hlt hsam) with hlt | heq
          · exact .inr hlt
          · left
            rw [← heq, nextSam_eq, Rat.ceil_intCast] at hn
            omega
        obtain ⟨last, hrounds, hover, hpieces⟩ :=
          @ih (Time.nextSam start) (pieces ++ [⟨start, Time.nextSam start⟩])
            (by rw [hfloor]; omega) hahead
        refine ⟨last, ?_, hover, ?_⟩
        · rw [rounds?, round?_next hlt hsam]
          exact hrounds
        · rw [hpieces, hfloor, shares_next hlt hsam, List.append_assoc]
          rfl

end Cutting

/-! ### The pieces -/

variable {ρ α : Type}

namespace Span

variable {s : Span}

theorem cycles_of_lt (h : s.start < s.stop) :
    s.cycles = (Int.range s.start.floor s.stop.ceil).map s.shareIn := by
  rw [cycles_eq_map (le_of_lt h), cycleEnd_of_lt h]

theorem length_cycles (h : s.start < s.stop) :
    (s.cycles.length : Int) = s.stop.ceil - s.start.floor := by
  have hend := floor_lt_cycleEnd s
  rw [cycleEnd_of_lt h] at hend
  rw [cycles_of_lt h, List.length_map, Int.range, List.length_map, List.length_range]
  omega

/-- The rounds come to an end, and the pieces are cut off one in each of them. -/
theorem exists_rounds?_cycles (h : s.start < s.stop) :
    ∃ last, (Cutting.ofSpan s).rounds? s.stop s.cycles.length = some last ∧
      last.round? s.stop = none ∧ last.pieces = s.cycles := by
  have hlength := length_cycles h
  rw [cycles_of_lt h] at hlength ⊢
  exact Cutting.exists_rounds? _ (by omega) (.inr h)

theorem flatMap_cycles {β : Type} (s : Span) (f : Span → List β) :
    s.cycles.flatMap (fun piece => piece.cycles.flatMap f) = s.cycles.flatMap f := by
  refine List.flatMap_congr fun piece hpiece => ?_
  rw [(within_of_mem_cycles hpiece).cycles_eq, List.flatMap_singleton]

end Span

theorem Pattern.splitQueries_splitQueries (p : Pattern ρ α) :
    p.splitQueries.splitQueries = p.splitQueries :=
  congrArg₂ Pattern.mk (funext fun s => s.flatMap_cycles p.query)
    (funext fun s => s.flatMap_cycles p.report)

/-- **Cutting a span gives a partition of it.**  If the span has extent, the rounds end after one
for each cycle that it has a share in, and the pieces are not empty, lead from its start to its
stop one behind the other, and lie within a cycle each.  A single moment is its only piece, and a
reversed span has none.  Pieces are not cut any further, so asking a pattern about each cycle on
its own once is the same as doing it twice. -/
theorem Span.cycles_partition (s : Span) (p : Pattern ρ α) :
    (s.start < s.stop →
      (∃ last, (Cutting.ofSpan s).rounds? s.stop s.cycles.length = some last ∧
        last.round? s.stop = none ∧ last.pieces = s.cycles) ∧
      (s.cycles.length : Int) = s.stop.ceil - s.start.floor ∧
      Tiles s.start s.cycles s.stop ∧
      s.cycles.Pairwise (fun p q => p.stop ≤ q.start) ∧
      ∀ piece ∈ s.cycles,
        piece.start < piece.stop ∧ piece.stop ≤ Time.nextSam piece.start) ∧
    (s.start = s.stop → s.cycles = [s]) ∧
    (s.stop < s.start → s.cycles = [] ∧ (Cutting.ofSpan s).round? s.stop = none) ∧
    (∀ piece ∈ s.cycles, piece.cycles = [piece]) ∧
    p.splitQueries.splitQueries = p.splitQueries := by
  refine ⟨fun hlt => ?_, fun heq => ?_, fun hgt => ?_, fun piece hpiece => ?_,
    p.splitQueries_splitQueries⟩
  · refine ⟨exists_rounds?_cycles hlt, length_cycles hlt, tiles_cycles hlt, pairwise_cycles hlt,
      fun piece hpiece => ⟨lt_of_mem_cycles hlt hpiece, ?_⟩⟩
    exact (within_of_mem_cycles hpiece).stop_le
  · rw [cycles, if_neg (not_lt.mpr (ge_of_eq heq)), if_pos heq]
  · exact ⟨cycles_of_reversed hgt, Cutting.round?_of_le (le_of_lt hgt)⟩
  · exact (within_of_mem_cycles hpiece).cycles_eq

/-- From a third before the first cycle to the end of the second one there are three pieces, the
first of which is the third. -/
theorem Span.cycles_partition_three_cycles :
    let s : Span := ⟨-1 / 3, 2⟩
    let first : Span := ⟨-1 / 3, 0⟩
    let echo : Pattern Unit Span := ⟨fun s => [⟨none, s, s, none⟩], fun _ => []⟩
    s.start < s.stop ∧ s.cycles = [first, cycle 0, cycle 1] ∧
      (∃ last, (Cutting.ofSpan s).rounds? s.stop 3 = some last ∧ last.round? s.stop = none) ∧
      first ∈ s.cycles ∧ first.cycles = [first] ∧
      echo.splitQueries.splitQueries = echo.splitQueries := by
  intro s first echo
  have hs : s.start < s.stop := by decide +kernel
  have hcycles : s.cycles = [first, cycle 0, cycle 1] := by decide +kernel
  have hfirst : first ∈ s.cycles := hcycles ▸ List.mem_cons_self
  obtain ⟨hextent, -, -, hagain, hsplit⟩ := cycles_partition s echo
  obtain ⟨⟨last, hrounds, hover, -⟩, -⟩ := hextent hs
  rw [hcycles] at hrounds
  exact ⟨hs, hcycles, ⟨last, hrounds, hover⟩, hfirst, hagain first hfirst, hsplit⟩

end CyclePatterns

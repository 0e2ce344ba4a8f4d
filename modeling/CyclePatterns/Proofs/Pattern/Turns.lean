/-
Patterns that take turns.

A span within one cycle has itself for its only piece, so there a sequence answers with the
pattern that has its turn, asked about a cycle of its own.  Which pattern that is follows
from the number of the cycle, but by way of a double.  Up to two to the power of 53 nothing
is lost on the way and the patterns play in order round and round; one cycle further a
neighbour plays instead.
-/
import CyclePatterns.Proofs.Binary64.Integer
import CyclePatterns.Proofs.Pattern.Order

namespace CyclePatterns

variable {ρ α : Type}

/-! ### Spans within one cycle -/

namespace Span

/-- The span is not reversed and lies in one cycle. -/
structure Within (c : Int) (s : Span) : Prop where
  forward : s.start ≤ s.stop
  cycle_le : (c : Rat) ≤ s.start
  start_lt : s.start < (c : Rat) + 1
  stop_le : s.stop ≤ (c : Rat) + 1

variable {c : Int} {s : Span}

theorem Within.floor_start (h : s.Within c) : s.start.floor = c :=
  floor_eq_iff.mpr ⟨h.cycle_le, h.start_lt⟩

/-- There is nothing to cut. -/
theorem Within.cycles_eq (h : s.Within c) : s.cycles = [s] := by
  have hend : s.cycleEnd = c + 1 := by
    rw [cycleEnd, h.floor_start]
    exact max_eq_right (Rat.ceil_le_iff.mpr (by exact_mod_cast h.stop_le))
  have hshare : s.shareIn c = s := by
    obtain ⟨-, hlow, -, hhigh⟩ := h
    obtain ⟨start, stop⟩ := s
    unfold shareIn Fraction.larger Fraction.smaller
    grind
  rw [cycles_eq_map h.forward, h.floor_start, hend, range_succ (le_refl c)]
  simp [Int.range, hshare]

/-- Cutting goes down to spans within one cycle. -/
theorem within_of_mem_cycles {piece : Span} (h : piece ∈ s.cycles) :
    piece.Within piece.start.floor := by
  obtain ⟨hle, hmem⟩ := mem_of_mem_cycles (le_of_mem_cycles h) h
  obtain ⟨hlow, hhigh⟩ := floor_eq_iff.mp (rfl : piece.start.floor = piece.start.floor)
  refine ⟨hle, hlow, hhigh, ?_⟩
  by_contra hstop
  -- The next cycle would begin in the piece.
  have hnext : ((piece.start.floor + 1 : Int) : Rat) ∈ piece := by
    push_cast
    exact Or.inl ⟨le_of_lt hhigh, not_le.mp hstop⟩
  have hfloor := ((hmem _).mp hnext).2
  rw [Rat.floor_intCast] at hfloor
  omega

end Span

/-! ### Whose turn it is -/

/-- Integers of up to two to the power of 53, that one included, go through a double
unchanged. -/
theorem Binary64.toInt64_ofInt_of_le {n : Int} (h : n.natAbs ≤ 2 ^ 53) : (ofInt n).toInt64 = n := by
  rcases Nat.lt_or_eq_of_le h with hlt | heq
  · exact toInt64_ofInt hlt
  · rcases Int.natAbs_eq n with hn | hn
    · rw [hn, heq]
      decide +kernel
    · rw [hn, heq]
      decide +kernel

namespace Pattern

variable {ps : List (Pattern ρ α)} {c : Int} {s : Span}

/-- As long as the number of the cycle is held exactly, the patterns go round and round. -/
theorem turn_eq_emod {n : Nat} (hn : 0 < n) (hc : c.natAbs ≤ 2 ^ 53) :
    (turn n c : Int) = c % n := by
  rw [turn, Binary64.toInt64_ofInt_of_le hc]
  exact Int.toNat_of_nonneg (Int.emod_nonneg c (by omega))

/-- Within a cycle only one pattern is asked. -/
theorem query_slowcat_within (h : s.Within c) :
    (slowcat ps).query s = (inCycle ps c).query s := by
  simp only [slowcat]
  rw [h.cycles_eq, List.flatMap_singleton, h.floor_start]

/-- A longer query is answered cycle by cycle. -/
theorem query_slowcat_flatMap (ps : List (Pattern ρ α)) (s : Span) :
    (slowcat ps).query s = s.cycles.flatMap (slowcat ps).query :=
  List.flatMap_congr fun _ hpiece => (query_slowcat_within (Span.within_of_mem_cycles hpiece)).symm

/-- The pattern that plays in a cycle is asked about the cycle that it has come to. -/
theorem query_inCycle {p : Pattern ρ α} (hp : ps[turn ps.length c]? = some p) (s : Span) :
    let offset : Rat := c - ((c : Rat) / ps.length).floor
    (inCycle ps c).query s
      = (p.query (s.mapTime (· - offset))).map (Hap.mapSpan (Span.mapTime (· + offset))) := by
  rw [inCycle, hp]
  rfl

/-- **A sequence plays its patterns in turn.**  Within a cycle the answer is that of one
pattern, asked about its own cycles, and a longer query is answered cycle by cycle.  The
patterns come round in order as far as the number of the cycle is held exactly; beyond that
the nearest number that is held decides. -/
theorem slowcat_takes_turns (hps : ps ≠ []) :
    (∀ c s, s.Within c →
      ∃ p, ps[turn ps.length c]? = some p ∧
        let offset : Rat := c - ((c : Rat) / ps.length).floor
        (slowcat ps).query s
          = (p.query (s.mapTime (· - offset))).map (Hap.mapSpan (Span.mapTime (· + offset)))) ∧
    (∀ c : Int, c.natAbs ≤ 2 ^ 53 → (turn ps.length c : Int) = c % ps.length) ∧
    ∀ s : Span, (∀ piece ∈ s.cycles, piece.Within piece.start.floor) ∧
      (slowcat ps).query s = s.cycles.flatMap (slowcat ps).query := by
  have hlength : 0 < ps.length := List.length_pos_of_ne_nil hps
  refine ⟨fun c s h => ?_, fun c hc => turn_eq_emod hlength hc, fun s => ⟨?_, ?_⟩⟩
  · have hp := List.getElem?_eq_getElem (turn_lt hlength c)
    exact ⟨_, hp, (query_slowcat_within h).trans (query_inCycle hp s)⟩
  · exact fun piece hpiece => Span.within_of_mem_cycles hpiece
  · exact query_slowcat_flatMap ps s

/-- Three patterns that show what they are asked, four cycles before the first: it is the
last one's turn, and it is asked about the second of its cycles before the first. -/
theorem slowcat_takes_turns_before_zero :
    let echo (name : String) : Pattern Unit (String × Span) :=
      ⟨fun s => [⟨none, s, (name, s), none⟩], fun _ => []⟩
    let echoes := [echo "a", echo "b", echo "c"]
    let s : Span := ⟨-4, -7 / 2⟩
    echoes ≠ [] ∧ s.Within (-4) ∧
      (slowcat echoes).query s = [⟨none, s, ("c", ⟨-2, -3 / 2⟩), none⟩] := by
  intro echo echoes s
  have hne : echoes ≠ [] := List.cons_ne_nil _ _
  have hs : s.Within (-4) := by
    constructor <;> decide +kernel
  obtain ⟨hturns, hindex, -⟩ := slowcat_takes_turns hne
  obtain ⟨p, hp, hquery⟩ := hturns (-4) s hs
  have hturn : turn echoes.length (-4) = 2 := by
    have hmod : (turn echoes.length (-4) : Int) = -4 % 3 := hindex (-4) (by decide)
    omega
  rw [hturn] at hp
  obtain rfl : echo "c" = p := Option.some.inj hp
  refine ⟨hne, hs, hquery.trans ?_⟩
  decide +kernel

/-- One cycle beyond two to the power of 53 it is the first of three patterns that should
play, but its neighbour in the cycle before does so again. -/
theorem slowcat_misses_turn :
    let name (text : String) : Pattern Unit String := Pattern.pure text none
    let c : Int := 9007199254740993
    let offset : Rat := c - ((c : Rat) / 3).floor
    let plays (text : String) : List (Hap String) :=
      [⟨some (Span.cycle c), Span.cycle c, text, none⟩]
    (Span.cycle c).Within c ∧ c % 3 = 0 ∧
      ((name "a").query ((Span.cycle c).mapTime (· - offset))).map
        (Hap.mapSpan (Span.mapTime (· + offset))) = plays "a" ∧
      (slowcat [name "a", name "b", name "c"]).query (Span.cycle c) = plays "c" := by
  refine ⟨⟨?_, ?_, ?_, ?_⟩, ?_, ?_, ?_⟩ <;> decide +kernel

end Pattern

end CyclePatterns

/-
Several patterns made one.

`fast` and `slow` change the speed of a pattern.  `stack` plays patterns at the same
time, `slowcat` one per cycle in turn, and `fastcat` all of them within every cycle,
each in its equal share.
-/
import CyclePatterns.Pattern.Basic

namespace CyclePatterns.Pattern

variable {ρ α : Type}

/-! ### Speed -/

/-- `factor` cycles in the time of one.  Only a positive factor has a meaning; any
other gives silence. -/
def fast (factor : Rat) (p : Pattern ρ α) : Pattern ρ α :=
  if factor ≤ 0 then silence
  else if factor = 1 then p
  else (p.withQueryTime (· * factor)).withHapTime (· / factor)

/-- One cycle in the time of `factor`. -/
def slow (factor : Rat) (p : Pattern ρ α) : Pattern ρ α :=
  match Fraction.recip? factor with
  | some speed => p.fast speed
  | none => silence

/-! ### At the same time and in turn -/

/-- All patterns at once; the haps of an earlier one come first. -/
def stack (ps : List (Pattern ρ α)) : Pattern ρ α where
  query s := ps.flatMap fun p => p.query s
  report s := ps.flatMap fun p => p.report s

/-- Which of `n` patterns plays in cycle `c`.  The cycle number is taken as a double
and then held within 64 bits, so far out a neighbour may play instead. -/
def turn (n : Nat) (c : Int) : Nat :=
  ((Binary64.ofInt c).toInt64 % (n : Int)).toNat

/-- The pattern that plays in cycle `c`, moved to where it plays: each pattern counts
its own turns as its cycles. -/
def inCycle (ps : List (Pattern ρ α)) (c : Int) : Pattern ρ α :=
  let n : Rat := ps.length
  (ps[turn ps.length c]?.getD silence).later (c - ((c : Rat) / n).floor)

/-- One pattern per cycle, in turn. -/
def slowcat (ps : List (Pattern ρ α)) : Pattern ρ α where
  query s := s.cycles.flatMap fun piece => (inCycle ps piece.start.floor).query piece
  report s := s.cycles.flatMap fun piece => (inCycle ps piece.start.floor).report piece

/-- All patterns within each cycle, in equal shares. -/
def fastcat (ps : List (Pattern ρ α)) : Pattern ρ α :=
  match ps with
  | [p] => p
  | _ => (slowcat ps).fast (ps.length : Rat)

end CyclePatterns.Pattern

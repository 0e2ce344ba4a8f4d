/-
Stretches of time.

Time is counted in cycles.  A `Span` runs from its start up to but not including its
stop; one that stops where it starts is a single moment, and one that stops before it
starts holds no time at all.  `cycles` cuts a span at the cycle boundaries inside it.
-/
import CyclePatterns.Fraction

namespace CyclePatterns

open Fraction (smaller larger)

namespace Time

/-- The start of the cycle that a moment lies in. -/
def sam (t : Rat) : Rat :=
  t.floor

/-- The start of the cycle after. -/
def nextSam (t : Rat) : Rat :=
  sam t + 1

/-- How far into its cycle a moment is. -/
def cyclePos (t : Rat) : Rat :=
  t - sam t

end Time

/-- A half-open stretch of time. -/
structure Span where
  start : Rat
  stop : Rat
deriving DecidableEq, Repr

namespace Span

/-- The first cycle, counting from zero. -/
instance : Inhabited Span := ⟨⟨0, 1⟩⟩

/-- One whole cycle. -/
def cycle (c : Int) : Span :=
  ⟨c, (c : Rat) + 1⟩

/-- The whole cycle that a moment lies in. -/
def wholeCycle (t : Rat) : Span :=
  ⟨Time.sam t, Time.nextSam t⟩

/-- How long a span lasts. -/
def duration (s : Span) : Rat :=
  s.stop - s.start

/-- The moment lies in the span. -/
def contains (s : Span) (t : Rat) : Bool :=
  s.start ≤ t && t < s.stop

/-- Both ends moved by one rule. -/
def mapTime (f : Rat → Rat) (s : Span) : Span :=
  ⟨f s.start, f s.stop⟩

/-- The numbers of the cycles that a span with extent has a share in. -/
def cycleNumbers (s : Span) : List Int :=
  (List.range (s.stop.ceil - s.start.floor).toNat).map fun (i : Nat) => s.start.floor + (i : Int)

/-- The share of a span in one cycle. -/
def shareIn (s : Span) (c : Int) : Span :=
  ⟨larger s.start c, smaller s.stop ((c : Rat) + 1)⟩

/-- A span cut at the cycle boundaries.  A single moment stays as it is and a reversed
span has no pieces. -/
def cycles (s : Span) : List Span :=
  if s.start < s.stop then s.cycleNumbers.map s.shareIn
  else if s.start = s.stop then [s]
  else []

/-- What two spans have in common.  A moment at the stop of a span that has extent is
not part of it. -/
def intersection (s t : Span) : Option Span :=
  let start := larger s.start t.start
  let stop := smaller s.stop t.stop
  if stop < start then none
  else if start = stop ∧
      (start = s.stop ∧ s.start < s.stop ∨ start = t.stop ∧ t.start < t.stop) then none
  else some ⟨start, stop⟩

/-- The span as a half-open interval. -/
def text (s : Span) : String :=
  "[" ++ Fraction.text s.start ++ ", " ++ Fraction.text s.stop ++ ")"

end Span

/-! ### Cutting round by round -/

/-- A span while it is being cut: the pieces that are cut off it, the first one first, and where
the rest of it starts, unless the last piece was all the rest. -/
structure Cutting where
  pieces : List Span
  rest : Option Rat
deriving DecidableEq, Repr

namespace Cutting

/-- A span that is still whole. -/
def ofSpan (s : Span) : Cutting :=
  ⟨[], some s.start⟩

/-- One round cuts off as much of the rest as lies in one cycle.  The rounds are over when
there is no rest up to the stop. -/
def round? (stop : Rat) (c : Cutting) : Option Cutting :=
  c.rest.bind fun start =>
    if start < stop then
      if Time.sam start = Time.sam stop then some ⟨c.pieces ++ [⟨start, stop⟩], none⟩
      else
        let next := Time.nextSam start
        some ⟨c.pieces ++ [⟨start, next⟩], some next⟩
    else none

/-- So many rounds, if there are so many. -/
def rounds? (stop : Rat) : Nat → Cutting → Option Cutting
  | 0, c => some c
  | n + 1, c => (c.round? stop).bind (rounds? stop n)

end Cutting

end CyclePatterns

/-
Questions to a pattern.

A pattern is asked about one cycle, in which case the answer is put in order of time,
or about any span, in which case the haps stay in the order in which they were found.
-/
import CyclePatterns.Pattern.Basic

namespace CyclePatterns

/-- A question to a pattern. -/
inductive Query where
  | cycle (c : Int)
  | arc (s : Span)
deriving DecidableEq, Repr

namespace Query

variable {ρ α : Type}

/-- The span that is asked about. -/
def span : Query → Span
  | cycle c => Span.cycle c
  | arc s => s

/-- The haps of the answer. -/
def haps (q : Query) (p : Pattern ρ α) : List (Hap α) :=
  match q with
  | cycle c => p.queryCycle c
  | arc s => p.query s

/-- What answering reports. -/
def reports (q : Query) (p : Pattern ρ α) : List ρ :=
  p.report q.span

end Query

end CyclePatterns

/-
Patterns.

A pattern is known by how it answers queries: given a span it says which haps fall in
it, and what there is to report about them.  Nothing is laid out in advance, so a
pattern has no end and can be asked about any rational moment.  Reports are kept apart
from haps, so that the laws of timing never mention them.
-/
import CyclePatterns.Pattern.Hap

namespace CyclePatterns

/-- Time-varying values of type `α`, with reports of type `ρ` on what a query meets. -/
structure Pattern (ρ α : Type) where
  /-- The haps in a span, in the order in which they are found. -/
  query : Span → List (Hap α)
  /-- What a query of a span reports. -/
  report : Span → List ρ

namespace Pattern

variable {ρ α β : Type}

/-- No events. -/
def silence : Pattern ρ α :=
  ⟨fun _ => [], fun _ => []⟩

/-- One event with the same value in every cycle. -/
def pure (value : α) (source : Option SourceSpan) : Pattern ρ α where
  query s := s.cycles.map fun piece => ⟨some (Span.wholeCycle piece.start), piece, value, source⟩
  report _ := []

/-- The same events with other values. -/
def map (f : α → β) (p : Pattern ρ α) : Pattern ρ β where
  query s := (p.query s).map (Hap.map f)
  report := p.report

/-- The same events with other values, where finding a value may be worth a report.
What the pattern itself reports comes first. -/
def mapReporting (f : α → β × List ρ) (p : Pattern ρ α) : Pattern ρ β where
  query s := (p.query s).map (Hap.map fun v => (f v).1)
  report s := p.report s ++ (p.query s).flatMap fun h => (f h.value).2

/-- Asked about each cycle on its own. -/
def splitQueries (p : Pattern ρ α) : Pattern ρ α where
  query s := s.cycles.flatMap p.query
  report s := s.cycles.flatMap p.report

/-- Asked about moved times. -/
def withQueryTime (f : Rat → Rat) (p : Pattern ρ α) : Pattern ρ α where
  query s := p.query (s.mapTime f)
  report s := p.report (s.mapTime f)

/-- Answering with moved times. -/
def withHapTime (f : Rat → Rat) (p : Pattern ρ α) : Pattern ρ α where
  query s := (p.query s).map (Hap.mapSpan (Span.mapTime f))
  report := p.report

/-- The pattern played later by `d` cycles. -/
def later (d : Rat) (p : Pattern ρ α) : Pattern ρ α :=
  (p.withQueryTime (· - d)).withHapTime (· + d)

/-- The haps of one cycle, ordered by where their parts start; haps that start
together keep the order in which they were found. -/
def queryCycle (c : Int) (p : Pattern ρ α) : List (Hap α) :=
  (p.query (Span.cycle c)).mergeSort fun h k => h.part.start ≤ k.part.start

end Pattern

end CyclePatterns

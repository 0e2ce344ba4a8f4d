/-
Events.

A hap is one event as a query sees it: `whole` is the event's full extent and `part`
the piece of it that the query covers.  An event cut by the edge of a query shows up
as several haps, and only the one whose part begins with the whole has the onset.
-/
import CyclePatterns.Time.Span

namespace CyclePatterns

/-- The bytes of the notation that an event comes from. -/
structure SourceSpan where
  start : Nat
  stop : Nat
deriving DecidableEq, Repr

namespace SourceSpan

/-- A byte offset moved within the range of 64-bit words. -/
def shiftOffset (n : Nat) (d : Int) : Nat :=
  (clamp 0 word64Max ((n : Int) + d)).toNat

/-- Both ends moved, each held within the range of offsets. -/
def shifted (s : SourceSpan) (d : Int) : SourceSpan :=
  ⟨shiftOffset s.start d, shiftOffset s.stop d⟩

end SourceSpan

/-- One event, or the piece of it that a query covers. -/
structure Hap (α : Type) where
  whole : Option Span
  part : Span
  value : α
  source : Option SourceSpan
deriving DecidableEq, Repr

namespace Hap

variable {α β : Type}

/-- The piece begins where the event does. -/
def hasOnset (h : Hap α) : Bool :=
  match h.whole with
  | some whole => whole.start == h.part.start
  | none => false

/-- The extent of the event, or of the piece where the event has none. -/
def wholeOrPart (h : Hap α) : Span :=
  h.whole.getD h.part

/-- How long the event lasts. -/
def wholeDuration (h : Hap α) : Option Rat :=
  h.whole.map Span.duration

/-- The same event with another value. -/
def map (f : α → β) (h : Hap α) : Hap β :=
  ⟨h.whole, h.part, f h.value, h.source⟩

/-- The same event with both of its spans moved. -/
def mapSpan (f : Span → Span) (h : Hap α) : Hap α :=
  { h with whole := h.whole.map f, part := f h.part }

end Hap

end CyclePatterns

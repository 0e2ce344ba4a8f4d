/-
Steps of a scale.

The steps of a scale are counted from its tonic, which is step 0, and go on in both
directions an octave at a time: with seven intervals, step 7 is the tonic an octave up
and step -1 the last degree an octave down.
-/
import CyclePatterns.Binary64.Basic
import CyclePatterns.Theory.Pitch

namespace CyclePatterns.Scale

/-- The interval from the tonic to a step, if it fits. -/
def stepInterval (intervals : List Interval) (step : Int) : Option Interval := do
  let count : Int := intervals.length
  let octaves ← narrow (step / count)
  let degree ← intervals[(step % count).toNat]?
  degree.checkedAdd (← Interval.octaves? octaves)

/-- The pitch of a step.  A step between the integers, or of a scale without degrees,
is the tonic; one that is not finite, or too far out to have a name, is no pitch. -/
def stepToPitch (tonic : Pitch) (intervals : List Interval) (step : Binary64) :
    Option Pitch :=
  match step.value? with
  | none => none
  | some x =>
    if intervals.isEmpty || x.den != 1 then some tonic
    else (stepInterval intervals step.toInt64).bind tonic.transpose

end CyclePatterns.Scale

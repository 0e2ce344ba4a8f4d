/-
Patterns with values and diagnostics, and how single values are mapped.

A `Score` is a pattern of values whose queries may report diagnostics.
`Score.decorated` has the options of an element applied to it.  `Scale.mapValue` reads
a value as a step of a scale.
-/
import CyclePatterns.Compile.Diagnostic
import CyclePatterns.Pattern.Combine
import CyclePatterns.Theory.Step
import CyclePatterns.Tree.Basic

namespace CyclePatterns

/-- A pattern of values. -/
abbrev Score := Pattern Diagnostic Value

/-! ### Steps of a scale -/

/-- The text of the pitch that a value names as a step, or the value itself and why it
names none. -/
def Scale.mapValue (tonic : Pitch) (intervals : List Interval) (v : Value) :
    Value × List Diagnostic :=
  match v.asNumber? with
  | none => (v, [.nonNumericScaleStep v.display])
  | some step =>
    match Scale.stepToPitch tonic intervals step with
    | some p => (.text p.name, [])
    | none => (v, [.scaleStepOutOfRange v.display])

/-! ### Options -/

namespace Score

/-- What an operator does to a score. -/
abbrev Apply := Score → Operator → Except CompileError Score

/-- The score played slower by the operator's amount, which must be positive. -/
def stretch : Apply := fun score o =>
  match o.amount with
  | none => .error (.missingArgument o.kind "amount")
  | some amount =>
    if 0 < amount then .ok (Pattern.slow amount score) else .error (.invalidStretchAmount amount)

/-- The operators that have a meaning. -/
def operators : List (String × Apply) :=
  [("stretch", stretch)]

/-- The operator of a kind. -/
def operator? (kind : String) : Option Apply :=
  operators.lookup kind

/-- The options that have a meaning. -/
def handledKeys : List String :=
  ["operator"]

/-- The score of an element with its options applied, and what there is to say about
them.  An operator or option without meaning is reported and changes nothing. -/
def decorated (score : Score) (options : Option Options) :
    Except CompileError (Score × List Diagnostic) :=
  match options with
  | none => .ok (score, [])
  | some options => do
    let (score, unknown) ← match options.operator with
      | none => .ok (score, [])
      | some o =>
        match operator? o.kind with
        | some apply => (apply score o).map fun s => (s, [])
        | none => .ok (score, [Diagnostic.unimplementedOperator o.kind])
    let unhandled := options.keys.filter fun k => !handledKeys.contains k
    return (score,
      unknown ++ if unhandled.isEmpty then [] else [.unimplementedOptions unhandled])

end Score

end CyclePatterns

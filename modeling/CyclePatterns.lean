import CyclePatterns.Main
import CyclePatterns.Session
import CyclePatterns.Tree.Writer
import CyclePatterns.Proofs.Pattern.Moved
import CyclePatterns.Proofs.Time.Cycles
import CyclePatterns.Proofs.Pattern.Window
import CyclePatterns.Proofs.Pattern.Onset
import CyclePatterns.Proofs.Compile.Walk
import CyclePatterns.Proofs.Compile.Window
import CyclePatterns.Proofs.Binary64.Integer
import CyclePatterns.Proofs.Compile.Layout
import CyclePatterns.Proofs.Pattern.Carried
import CyclePatterns.Proofs.Pattern.Order
import CyclePatterns.Proofs.Tree.Nodes
import CyclePatterns.Proofs.Compile.Tiling
import CyclePatterns.Proofs.Pattern.Kept
import CyclePatterns.Proofs.Tree.Context
import CyclePatterns.Proofs.Compile.Slots
import CyclePatterns.Proofs.Notation.Numerals
import CyclePatterns.Proofs.Notation.Written
import CyclePatterns.Proofs.Notation.Denoted
import CyclePatterns.Proofs.Notation.Reading
import CyclePatterns.Proofs.Notation.Spacing
import CyclePatterns.Proofs.Notation.Marks
import CyclePatterns.Proofs.Notation.Completeness
import CyclePatterns.Proofs.Notation.Soundness
import CyclePatterns.Proofs.Notation.Places
import CyclePatterns.Proofs.Compile.Sink
import CyclePatterns.Proofs.Compile.Root
import CyclePatterns.Proofs.Pattern.Alike
import CyclePatterns.Proofs.Compile.Alike
import CyclePatterns.Proofs.Notation.Agreement
import CyclePatterns.Proofs.Notation.Local
import CyclePatterns.Proofs.Notation.Located
import CyclePatterns.Proofs.Notation.Spellings
import CyclePatterns.Proofs.Compile.Stretches
import CyclePatterns.Proofs.Session.Act
import CyclePatterns.Proofs.Session.Isolation
import CyclePatterns.Proofs.Outcome
import CyclePatterns.Proofs.Tree.WellMade
import CyclePatterns.Proofs.Compile.Decoration
import CyclePatterns.Proofs.Json.Honest
import CyclePatterns.Proofs.Json.Entries
import CyclePatterns.Proofs.Json.Settled
import CyclePatterns.Proofs.Json.Steady
import CyclePatterns.Proofs.Tree.Steady
import CyclePatterns.Proofs.Text.Fractions
import CyclePatterns.Proofs.Json.Strings
import CyclePatterns.Proofs.Json.Fractions
import CyclePatterns.Proofs.Json.Integers
import CyclePatterns.Proofs.Tree.Amounts
import CyclePatterns.Proofs.Json.Written
import CyclePatterns.Proofs.Tree.WrittenOptions
import CyclePatterns.Proofs.Tree.RoundTrip
import CyclePatterns.Proofs.Pattern.Mapped
import CyclePatterns.Proofs.Pattern.Speed
import CyclePatterns.Proofs.Pattern.Turns
import CyclePatterns.Proofs.Pattern.Fewer
import CyclePatterns.Proofs.Compile.Related
import CyclePatterns.Proofs.Compile.Depth
import CyclePatterns.Proofs.Tree.Relabelled
import CyclePatterns.Proofs.Compile.Scales
import CyclePatterns.Proofs.Pattern.Regrouped
import CyclePatterns.Proofs.Compile.Operators
import CyclePatterns.Proofs.Notation.Operands
import CyclePatterns.Proofs.Notation.Names
import CyclePatterns.Proofs.Notation.Rules
import CyclePatterns.Proofs.Notation.Following
import CyclePatterns.Proofs.Notation.Matching
import CyclePatterns.Proofs.Notation.Rejection
import CyclePatterns.Proofs.Theory.Spelling
import CyclePatterns.Proofs.Theory.Transposition
import CyclePatterns.Proofs.Theory.Chroma
import CyclePatterns.Proofs.Theory.Steps
import CyclePatterns.Proofs.Theory.Rising
import CyclePatterns.Proofs.Text.Words
import CyclePatterns.Proofs.Text.Small
import CyclePatterns.Proofs.Theory.PitchNames
import CyclePatterns.Proofs.Theory.IntervalNames
import CyclePatterns.Proofs.Theory.ModeNames
import CyclePatterns.Proofs.Theory.ScaleNames
import CyclePatterns.Proofs.Text.Accepted
import CyclePatterns.Proofs.Binary64.Shortest
import CyclePatterns.Proofs.Time.Cutting
import CyclePatterns.Proofs.Time.Intersection
import CyclePatterns.Proofs.Compile.WrittenSteps

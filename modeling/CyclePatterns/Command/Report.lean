/-
The events of a pattern as a list.

A report lists the events of some cycles, each with its extent, its value and the place
in the notation that it comes from, and what there was to say about them.  It is
printed as a table or as JSON.
-/
import CyclePatterns.Command.Arguments
import CyclePatterns.Compile.Compilation
import CyclePatterns.Json.Printer
import CyclePatterns.Pattern.Query

namespace CyclePatterns.Command

/-- One event in a report. -/
structure Row where
  cycle : Int
  hap : Hap Value
deriving DecidableEq, Repr

/-- The events of some cycles and what there was to say. -/
structure Report where
  rows : List Row
  diagnostics : List Diagnostic

/-- The report on `cycles` cycles from the first on. -/
def Report.ofCompilation (c : Compilation) (first : Int) (cycles : Nat) : Report :=
  let numbers := (List.range cycles).map fun (i : Nat) => first + (i : Int)
  ⟨numbers.flatMap fun n => (c.pattern.queryCycle n).map fun h => ⟨n, h⟩,
   c.diagnostics ++ numbers.flatMap fun n => (Query.cycle n).reports c.pattern⟩

/-! ### Tables -/

/-- A text at the right end of a column. -/
def alignRight (width : Nat) (s : String) : String :=
  String.ofList (List.replicate (width - s.length) ' ') ++ s

/-- A text at the left end of a column. -/
def alignLeft (width : Nat) (s : String) : String :=
  s ++ String.ofList (List.replicate (width - s.length) ' ')

/-- One line of a table. -/
def line (cycle start stop value source : String) : String :=
  alignRight 6 cycle ++ " " ++ alignRight 10 start ++ " " ++ alignRight 10 stop ++ "  " ++
    alignLeft 12 value ++ " " ++ source

/-- One event as a line. -/
def Row.line (r : Row) : String :=
  let span := r.hap.wholeOrPart
  Command.line (Text.integer r.cycle) (Fraction.text span.start) (Fraction.text span.stop)
    r.hap.value.display
    (match r.hap.source with
      | some s => Text.natural s.start ++ ".." ++ Text.natural s.stop
      | none => "")

/-- A rule across a table. -/
def ruler : String :=
  String.ofList (List.replicate 56 '-')

/-- A finding as a line. -/
def diagnosticLine (d : Diagnostic) : String :=
  (match d.severity with
    | .warning => "warning"
    | .error => "error") ++ ": " ++ d.message

/-- The report as a table. -/
def Report.table (r : Report) : String :=
  let lines :=
    [Command.line "cycle" "begin" "end" "value" "source", ruler] ++ r.rows.map Row.line ++
      [ruler, Text.natural r.rows.length ++ " events"] ++ r.diagnostics.map diagnosticLine
  String.join (lines.map (· ++ "\n"))

/-! ### JSON -/

/-- A value in JSON. -/
def jsonOfValue : Value → Json
  | .number x => .number (.float x)
  | .text s => .string s

/-- One event as an object. -/
def Row.toJson (r : Row) : Json :=
  let span := r.hap.wholeOrPart
  .object
    ([("cycle", .number (.integer r.cycle)),
      ("begin", .string (Fraction.text span.start)),
      ("end", .string (Fraction.text span.stop)),
      ("onset", .bool r.hap.hasOnset),
      ("value", jsonOfValue r.hap.value)] ++
      match r.hap.source with
      | some s =>
        [("source", .array [.number (.integer s.start), .number (.integer s.stop)])]
      | none => [])

/-- The report as JSON. -/
def Report.json (r : Report) : String :=
  (Json.object
    [("events", .array (r.rows.map Row.toJson)),
     ("diagnostics", .array (r.diagnostics.map fun d => .string d.message))]).pretty ++ "\n"

/-- The report in a format. -/
def Report.text (r : Report) : Format → String
  | .table => r.table
  | .json => r.json

end CyclePatterns.Command

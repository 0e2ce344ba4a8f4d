/-
What the program does.

A command line and the files that it may read determine the whole outcome: what is
printed and the exit code.  Words that make no command give code 2, and a request that
cannot be carried out gives code 1 with nothing printed.
-/
import CyclePatterns.Command.Report
import CyclePatterns.Notation.Meaning
import CyclePatterns.Tree.Form

namespace CyclePatterns.Command

/-- What comes of running the program. -/
structure Outcome where
  code : Nat
  output : String
deriving DecidableEq, Repr

/-- The files that a request reads. -/
def Request.files (r : Request) : List String :=
  r.config.toList ++ if r.astJson then [r.input] else []

/-- Settings with those of the command line in place of others. -/
def Request.settings (r : Request) (files : String → Option String) : Option Config := do
  let config ← match r.config with
    | some path => (Config.ofText (← files path)).toOption
    | none => some Config.default
  let tonic ← match r.tonic with
    | some name => (Pitch.ofText name).toOption
    | none => some config.defaultTonic
  return ⟨r.maxDepth.getD config.maxDepth, tonic⟩

/-- The tree that a request is about. -/
def Request.tree (r : Request) (files : String → Option String) : Option Node :=
  if r.astJson then (files r.input).bind fun text => (Node.ofText text).toOption
  else if r.raw then (Node.ofNotation r.input).toOption
  else (Node.ofMini r.input).toOption

/-- The text that a request prints, unless it cannot be carried out. -/
def Request.output (r : Request) (files : String → Option String) : Option String := do
  let config ← r.settings files
  let tree ← r.tree files
  if int64Max < r.first + r.cycles then none
  else return (Report.ofCompilation (config.compile tree) r.first r.cycles).text r.format

/-- The name and number of this program. -/
def versionText : String :=
  "mini-query 0.1.0\n"

/-- How the program is used. -/
def helpText : String :=
  "Compile mini notation and list the resulting pattern events\n\n" ++
  "Usage: mini-query [OPTIONS] <NOTATION>\n\n" ++
  "Arguments:\n" ++
  "  <NOTATION>  Mini notation, raw notation with --raw, or a JSON file path with " ++
  "--ast-json\n\n" ++
  "Options:\n" ++
  "      --raw                    Parse NOTATION as raw notation (`slow 2 $ \"c e\"`)\n" ++
  "      --ast-json               Read NOTATION as a path to a JSON syntax tree\n" ++
  "  -c, --cycles <CYCLES>        Number of cycles to query [default: 1]\n" ++
  "      --from <FROM>            First cycle to query [default: 0]\n" ++
  "      --format <FORMAT>        Output format [default: table] " ++
  "[possible values: table, json]\n" ++
  "      --config <CONFIG>        Compiler config file (JSON)\n" ++
  "      --max-depth <MAX_DEPTH>  Override the maximum nesting depth\n" ++
  "      --tonic <TONIC>          Override the default scale tonic (e.g. \"Eb3\")\n" ++
  "  -v, --verbose...             Increase log verbosity " ++
  "(-v warn, -vv debug, -vvv trace)\n" ++
  "  -h, --help                   Print help\n" ++
  "  -V, --version                Print version\n"

/-- What comes of a command line, given the files. -/
def run (words : List String) (files : String → Option String) : Outcome :=
  match parse words with
  | .wrong => ⟨2, ""⟩
  | .help => ⟨0, helpText⟩
  | .version => ⟨0, versionText⟩
  | .request r =>
    match r.output files with
    | some text => ⟨0, text⟩
    | none => ⟨1, ""⟩

end CyclePatterns.Command

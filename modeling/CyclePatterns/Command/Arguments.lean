/-
The words of a command line.

One word is the notation; options may stand before and behind it.  A long option takes
its value behind an equals sign or as the next word; letters for short options may be
written together, and the last of them may be followed by its value.  Behind a lone
double dash every word is notation.  Apart from the one that counts, no option is given
twice.  Words are taken up in order, so the first mistake decides, and asking for help
ends the matter.
-/
import CyclePatterns.Binary64.Basic
import CyclePatterns.Text.Integer

namespace CyclePatterns.Command

/-- How events are listed. -/
inductive Format where
  | table
  | json
deriving DecidableEq, Repr

/-- What a command line asks for. -/
structure Request where
  /-- Notation, or the name of a file with a tree. -/
  input : String
  /-- The notation has quotes of its own. -/
  raw : Bool
  /-- The input is the name of a file with a tree in JSON. -/
  astJson : Bool
  cycles : Nat
  first : Int
  format : Format
  config : Option String
  maxDepth : Option Nat
  tonic : Option String
deriving DecidableEq, Repr

/-- What a command line comes to. -/
inductive Parsed where
  | request (r : Request)
  | help
  | version
  /-- The words do not make a command. -/
  | wrong
deriving DecidableEq, Repr

/-! ### Options -/

/-- The options. -/
inductive Flag where
  | raw
  | astJson
  | cycles
  | first
  | format
  | config
  | maxDepth
  | tonic
  | verbose
  | help
  | version
deriving DecidableEq, Repr

namespace Flag

/-- The option of a long name. -/
def ofName? (name : String) : Option Flag :=
  [("raw", raw), ("ast-json", astJson), ("cycles", cycles), ("from", first),
   ("format", format), ("config", config), ("max-depth", maxDepth), ("tonic", tonic),
   ("verbose", verbose), ("help", help), ("version", version)].lookup name

/-- The option of a letter. -/
def ofLetter? (c : Char) : Option Flag :=
  match c with
  | 'c' => some cycles
  | 'v' => some verbose
  | 'h' => some help
  | 'V' => some version
  | _ => none

/-- The option is followed by a value. -/
def takesValue (f : Flag) : Bool :=
  [cycles, first, format, config, maxDepth, tonic].contains f

end Flag

/-! ### Taking words apart -/

/-- One thing that a command line says. -/
inductive Said where
  | input (text : String)
  | flag (f : Flag)
  | value (f : Flag) (text : List Char)
  /-- An option that does not exist, lacks its value or has one too many. -/
  | wrong
deriving DecidableEq, Repr

/-- The word may be the value of an option that it stands behind.  A word with a dash in
front is taken for an option, unless a negative number is wanted. -/
def mayBeValue (f : Flag) (word : List Char) : Bool :=
  match word with
  | ['-'] => true
  | '-' :: r => f = .first && r.all Char.isDigit
  | _ => true

/-- An option with the next word as its value, and the words after that. -/
def withNext (f : Flag) (next : List (List Char)) : Said × List (List Char) :=
  match next with
  | word :: rest => if mayBeValue f word then (.value f word, rest) else (.wrong, rest)
  | [] => (.wrong, [])

/-- What letters behind a single dash say, and the words after that. -/
def letters (next : List (List Char)) : List Char → List Said × List (List Char)
  | [] => ([], next)
  | c :: r =>
    match Flag.ofLetter? c with
    | none => ([.wrong], next)
    | some f =>
      if f.takesValue then
        match r with
        | [] => let (said, rest) := withNext f next; ([said], rest)
        | '=' :: v => ([.value f v], next)
        | v => ([.value f v], next)
      else
        let (said, rest) := letters next r
        (.flag f :: said, rest)

/-- What a word behind a double dash says, and the words after that. -/
def long (word : List Char) (next : List (List Char)) : Said × List (List Char) :=
  let name := word.takeWhile (· != '=')
  match Flag.ofName? (String.ofList name), word.drop name.length with
  | none, _ => (.wrong, next)
  | some f, [] => if f.takesValue then withNext f next else (.flag f, next)
  | some f, _ :: v => (if f.takesValue then .value f v else .wrong, next)

/-- What the words of a command line say.  `fuel` bounds their number. -/
def takeApart : Nat → List (List Char) → List Said
  | 0, _ => []
  | _ + 1, [] => []
  | fuel + 1, word :: next =>
    match word with
    | ['-', '-'] => next.map fun w => .input (String.ofList w)
    | '-' :: '-' :: name =>
      let (said, rest) := long name next
      said :: takeApart fuel rest
    | '-' :: c :: r =>
      let (said, rest) := letters next (c :: r)
      said ++ takeApart fuel rest
    | w => .input (String.ofList w) :: takeApart fuel next

/-! ### Making up a request -/

/-- What has been said so far. -/
structure Heard where
  input : Option String
  flags : List Flag
  cycles : Option Nat
  first : Option Int
  format : Option Format
  config : Option String
  maxDepth : Option Nat
  tonic : Option String

/-- Nothing said yet. -/
def Heard.empty : Heard :=
  ⟨none, [], none, none, none, none, none, none⟩

/-- An integer from `low` to `high`. -/
def within? (low high : Int) (text : List Char) : Option Int :=
  (Text.signedDigits? text).filter fun n => low ≤ n && n ≤ high

/-- The format of a name. -/
def format? (name : List Char) : Option Format :=
  [("table", Format.table), ("json", Format.json)].lookup (String.ofList name)

/-- A value that must not be empty. -/
def nonempty? (text : List Char) : Option String :=
  if text.isEmpty then none else some (String.ofList text)

/-- Takes up the value of an option, unless it makes no sense or is a second one. -/
def Heard.withValue (d : Heard) (f : Flag) (text : List Char) : Option Heard :=
  if d.flags.contains f then none
  else
    let d := { d with flags := f :: d.flags }
    match f with
    | .cycles =>
      (within? 0 word32Max text).map fun n => { d with cycles := some n.toNat }
    | .first => (within? int64Min int64Max text).map fun n => { d with first := some n }
    | .format => (format? text).map fun n => { d with format := some n }
    | .config => (nonempty? text).map fun n => { d with config := some n }
    | .maxDepth =>
      ((Text.unsignedDigits? text).filter (· ≤ word64Max)).map fun n =>
        { d with maxDepth := some n }
    | .tonic => some { d with tonic := some (String.ofList text) }
    | _ => none

/-- The request that has been said, if it has an input of one kind. -/
def Heard.finish (d : Heard) : Parsed :=
  let raw := d.flags.contains .raw
  let astJson := d.flags.contains .astJson
  match d.input with
  | none => .wrong
  | some input =>
    if raw && astJson then .wrong
    else .request
      { input, raw, astJson
        cycles := d.cycles.getD 1
        first := d.first.getD 0
        format := d.format.getD .table
        config := d.config
        maxDepth := d.maxDepth
        tonic := d.tonic }

/-- Goes through what a command line says. -/
def Heard.hear (d : Heard) : List Said → Parsed
  | [] => d.finish
  | .wrong :: _ => .wrong
  | .input text :: rest =>
    if d.input.isSome then .wrong else { d with input := some text }.hear rest
  | .value f text :: rest =>
    match d.withValue f text with
    | some d => d.hear rest
    | none => .wrong
  | .flag f :: rest =>
    match f with
    | .help => .help
    | .version => .version
    | .verbose => d.hear rest
    | f =>
      if d.flags.contains f then .wrong else { d with flags := f :: d.flags }.hear rest

/-- What the words of a command line come to. -/
def parse (words : List String) : Parsed :=
  Heard.empty.hear (takeApart words.length (words.map String.toList))

end CyclePatterns.Command

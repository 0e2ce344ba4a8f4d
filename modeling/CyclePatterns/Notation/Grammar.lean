/-
The grammar of notation.

White space may stand between the parts of an expression, but not inside a step: its
suffixes follow its head directly, while inside brackets and inside the parentheses of
a rhythm white space is free again.  Steps do not need white space between them where
the end of one shows by itself.  The names of the rules are the places where failures
are remembered.
-/
import CyclePatterns.Notation.Phrase
import CyclePatterns.Notation.Reader

namespace CyclePatterns.Notation

open Reader

/-! ### Classes of characters -/

/-- What the words of steps are made of. -/
def isStepChar (c : Char) : Bool :=
  c.isAlphanum || c == '~' || c == '#' || c == '.' || c == '-' || c == '_' || c == '^'

/-- What names are made of behind their first letter. -/
def isNameChar (c : Char) : Bool :=
  c.isAlphanum || c == '_' || c == '-'

/-! ### Numbers and names -/

/-- The text that a reader takes and its place. -/
def placed (p : Reader (List Char)) : Reader Numeral := do
  let start ← position
  let text ← p
  let stop ← position
  return ⟨text, ⟨start, stop⟩⟩

/-- A point and digits. -/
def decimals : Reader (List Char) := do
  exactly '.'
  let ds ← run1 Char.isDigit
  return '.' :: ds

/-- A number: perhaps a minus, digits, and perhaps a point with more digits. -/
def number : Reader Numeral :=
  rule <| placed do
    let minus ← optional (exactly '-')
    let whole ← run1 Char.isDigit
    let fraction ← optional decimals
    return (if minus.isSome then ['-'] else []) ++ whole ++ fraction.getD []

/-- A number that consists of digits. -/
def count : Reader Numeral :=
  rule (placed (run1 Char.isDigit))

/-- A name. -/
def name : Reader (List Char) :=
  rule do
    let c ← char Char.isAlpha
    let cs ← run isNameChar
    return c :: cs

/-- Text in quotes. -/
def quotedText : Reader (List Char) :=
  rule do
    exactly '"'
    let cs ← run (· != '"')
    exactly '"'
    return cs

/-! ### Suffixes -/

/-- A suffix that is a sign and a number. -/
def signed (sign : Char) (make : Numeral → Suffix) : Reader Suffix :=
  rule do
    exactly sign
    let n ← number
    return make n

/-- A suffix that is a sign and perhaps a number. -/
def signedOptional (sign : Char) (p : Reader Numeral) (make : Option Numeral → Suffix) :
    Reader Suffix :=
  rule do
    exactly sign
    let n ← optional p
    return make n

/-- A comma and a number of digits. -/
def commaCount : Reader Numeral := do
  exactly ','
  space
  count

/-- A rhythm in parentheses. -/
def euclid : Reader Suffix :=
  rule do
    exactly '('
    space
    let pulses ← count
    space
    let steps ← commaCount
    space
    let rotation ← optional commaCount
    space
    exactly ')'
    return .euclid pulses steps rotation

/-- Any suffix. -/
def suffix : Reader Suffix :=
  firstOf
    [signed '*' .fast, signed '/' .slow, signed '%' .fixedStep,
     signedOptional '?' number .degrade, signed '@' .weight,
     signedOptional '!' count .replicate, euclid]

/-! ### Steps and layers -/

/-- A word. -/
def wordHead : Reader (List Suffix → Step) :=
  rule do
    let start ← position
    let text ← run1 isStepChar
    let stop ← position
    return .word text ⟨start, stop⟩

/-- Notation in brackets. -/
def bracketHead (layers : Reader (List (List Step))) : Reader (List Suffix → Step) :=
  rule do
    let start ← position
    exactly '['
    space
    let body ← layers
    space
    exactly ']'
    let stop ← position
    return .bracket body ⟨start, stop⟩

/-- A step, given how to read what is in brackets. -/
def step (layers : Reader (List (List Step))) : Reader Step :=
  rule do
    let head ← orElse wordHead (bracketHead layers)
    let suffixes ← many suffix
    return head suffixes

/-- The steps of a layer. -/
def layer (layers : Reader (List (List Step))) : Reader (List Step) :=
  rule do
    let first ← step layers
    space
    let others ← manySpaced (step layers)
    return first :: others

/-- A comma and a layer. -/
def commaLayer (layers : Reader (List (List Step))) : Reader (List Step) := do
  exactly ','
  space
  layer layers

/-- Layers with commas between them; brackets are nested at most `depth` deep. -/
def layers (depth : Nat) : Reader (List (List Step)) :=
  match depth with
  | 0 => fail
  | depth + 1 =>
    rule do
      let first ← layer (layers depth)
      space
      let others ← manySpaced (commaLayer (layers depth))
      return first :: others

/-! ### Expressions -/

/-- A call that is a word and a number. -/
def numberCall (w : String) (make : Numeral → Call) : Reader Call :=
  rule do
    word w.toList
    space
    let n ← number
    return make n

/-- A scale and its name in quotes. -/
def scaleCall : Reader Call :=
  rule do
    word "scale".toList
    space
    let name ← quotedText
    return .scale name

/-- What a call by name may be given. -/
def argument : Reader Unit :=
  firstOf
    [do let _ ← number; return (),
     do let _ ← quotedText; return (),
     do let _ ← name; return ()]

/-- A call by any name. -/
def namedCall : Reader Call :=
  rule do
    let n ← name
    space
    let _ ← manySpaced argument
    return .named n

/-- Any call. -/
def call : Reader Call :=
  firstOf [numberCall "slow" .slow, numberCall "fast" .fast, scaleCall, namedCall]

/-- Layers in quotes. -/
def quoted (depth : Nat) : Reader Expression :=
  rule do
    exactly '"'
    space
    let body ← layers depth
    space
    exactly '"'
    return .quoted body

/-- Quoted notation with at most `calls` calls in front. -/
def expression (depth calls : Nat) : Reader Expression :=
  match calls with
  | 0 => quoted depth
  | calls + 1 =>
    orElse
      (rule do
        let f ← call
        space
        exactly '$'
        space
        let operand ← expression depth calls
        return .application f operand)
      (quoted depth)

/-- A whole text. -/
def program (depth calls : Nat) : Reader Expression :=
  rule do
    space
    let e ← expression depth calls
    space
    rule atEnd
    return e

/-- The expression that a text is, or the place that stands for why it is none.
Neither brackets nor calls can outnumber the characters. -/
def parse (text : List Char) : Except Nat Expression :=
  let attempt := program (text.length + 1) (text.length + 1) ⟨0, text⟩
  match attempt.result with
  | some (e, _) => .ok e
  | none => .error attempt.farthest

end CyclePatterns.Notation

/-
What notation says, before it is a tree.

Notation in quotes is layers of steps: layers play together, the steps of a layer one
after another.  A step is a word or notation in brackets, with suffixes behind it.  In
front of the quotes there may be calls, each applied to all that follows it.  Numbers
are kept as they are written and every part knows its place.
-/
import CyclePatterns.Pattern.Hap

namespace CyclePatterns.Notation

/-- A number as it is written. -/
structure Numeral where
  text : List Char
  place : SourceSpan
deriving DecidableEq, Repr

/-- What may stand behind a step. -/
inductive Suffix where
  /-- `*n` -/
  | fast (n : Numeral)
  /-- `/n` -/
  | slow (n : Numeral)
  /-- `%n` -/
  | fixedStep (n : Numeral)
  /-- `?` or `?n` -/
  | degrade (n : Option Numeral)
  /-- `@n` -/
  | weight (n : Numeral)
  /-- `!` or `!n` -/
  | replicate (n : Option Numeral)
  /-- `(p,s)` or `(p,s,r)` -/
  | euclid (pulses steps : Numeral) (rotation : Option Numeral)
deriving DecidableEq, Repr

/-- A step with its suffixes. -/
inductive Step where
  | word (text : List Char) (place : SourceSpan) (suffixes : List Suffix)
  | bracket (layers : List (List Step)) (place : SourceSpan) (suffixes : List Suffix)

/-- What may stand in front of quoted notation. -/
inductive Call where
  | slow (n : Numeral)
  | fast (n : Numeral)
  | scale (name : List Char)
  /-- Any other name; what it is given makes no difference. -/
  | named (name : List Char)
deriving DecidableEq, Repr

/-- Quoted notation with calls in front of it. -/
inductive Expression where
  | quoted (layers : List (List Step))
  | application (call : Call) (operand : Expression)

end CyclePatterns.Notation

/-
What the events of a pattern carry.

A value is a text as it stands in notation, or a number.  A text may read as a number,
white space around it set aside; that is how notation names the steps of a scale.
-/
import CyclePatterns.Binary64.Text
import CyclePatterns.Text.Blank

namespace CyclePatterns

/-- A text or a number. -/
inductive Value where
  | number (x : Binary64)
  | text (s : String)
deriving DecidableEq, Repr

namespace Value

/-- The step at which nothing sounds. -/
def rest : Value :=
  text "~"

/-- The value is the rest. -/
def isRest (v : Value) : Bool :=
  v = rest

/-- The number that a value is or names.  A text names finite numbers only. -/
def asNumber? : Value → Option Binary64
  | number x => some x
  | text s => (Binary64.ofChars? (Text.trim s.toList)).filter Binary64.isFinite

/-- The greatest magnitude below which an integral number is written as an integer. -/
def integralBound : Rat := 1000000000000000

/-- The text of a value. -/
def display : Value → String
  | text s => s
  | number x =>
    match x.value? with
    | some r =>
      if r.den = 1 ∧ -integralBound < r ∧ r < integralBound then Text.integer r.num
      else x.text .plain
    | none => x.text .plain

end Value

end CyclePatterns

/-
Fractions as texts.

Times, stretch amounts and weights are rational numbers and are kept exact.  A
fraction is written in lowest terms, with its denominator only where that is not one.
It is read from an integer, a quotient of two, or a decimal; what a text names is
taken exactly, so 0.1 is one tenth.
-/
import CyclePatterns.Binary64.Text
import CyclePatterns.Text.Blank
import CyclePatterns.Text.Quoted

namespace CyclePatterns.Fraction

open Text (trim cut? integer?)

/-- The quotient of two integers, where there is one. -/
def ratio? (n d : Int) : Option Rat :=
  if d = 0 then none else some ((n : Rat) / (d : Rat))

/-- The quotient of two fractions, where there is one. -/
def div? (x y : Rat) : Option Rat :=
  if y = 0 then none else some (x / y)

/-- One over a fraction, where there is such a thing. -/
def recip? (x : Rat) : Option Rat :=
  div? 1 x

/-- The smaller of two fractions. -/
def smaller (x y : Rat) : Rat :=
  if x < y then x else y

/-- The larger of two fractions. -/
def larger (x y : Rat) : Rat :=
  if y < x then x else y

/-- In lowest terms; an integer stands without its denominator. -/
def text (x : Rat) : String :=
  if x.den = 1 then Text.integer x.num
  else Text.integer x.num ++ "/" ++ Text.natural x.den

/-- A decimal from the texts on both sides of its point.  The signs in front are all
dropped, and a minus that comes first makes the number negative. -/
def decimal? (whole fraction : List Char) : Option Rat :=
  if fraction.isEmpty || !fraction.all Char.isDigit then none
  else
    let unsigned := whole.dropWhile fun c => c == '-' || c == '+'
    (integer? (unsigned ++ fraction)).map fun n =>
      let x := (n : Rat) / (10 : Rat) ^ fraction.length
      if whole.head? = some '-' then -x else x

/-- Reads a fraction, with white space around it or around its slash. -/
def ofChars? (cs : List Char) : Option Rat :=
  let cs := trim cs
  match cut? '/' cs with
  | some (n, d) => do ratio? (← integer? (trim n)) (← integer? (trim d))
  | none =>
    match cut? '.' cs with
    | some (whole, fraction) => decimal? whole fraction
    | none => (integer? cs).map fun n => (n : Rat)

/-- Reads a fraction from a text. -/
def ofText? (s : String) : Option Rat :=
  ofChars? s.toList

/-- What is said of a text that names no fraction. -/
def refusal (s : String) : String :=
  "invalid rational number: " ++ Text.quoted s

/-! ### Doubles -/

/-- The fraction nearest to a double among the ten-thousandths, the product being
rounded to a double first and the number of ten-thousandths held within 64 bits.  What
is not finite gives zero. -/
def ofBinary64 (b : Binary64) : Rat :=
  match b.value? with
  | none => 0
  | some x =>
    let scaled := match Binary64.ofRat (x * 10000) with
      | .finite y => clamp int64Min int64Max (roundHalfAway y)
      | rest => rest.toInt64
    (scaled : Rat) / 10000

/-- The fraction that the shortest text of a double names. -/
def ofShortest? (b : Binary64) : Option Rat :=
  ofText? (b.text .plain)

end CyclePatterns.Fraction

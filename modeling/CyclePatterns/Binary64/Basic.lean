/-
Double-precision numbers as exact values.

Values in notation and in JSON are doubles, while time is rational.  A double is
held here by the number it stands for, so that the step from one world to the other
is visible: `ofRat` is the only place where a value is rounded, to the nearest
multiple of its unit in the last place and, halfway, to the even one.  Zero has a
second, negative form, which prints differently.
-/

namespace CyclePatterns

/-- A double: a finite value, the negative zero, an infinity or not a number. -/
inductive Binary64 where
  /-- The exact value; zero here is the positive one. -/
  | finite (x : Rat)
  | negativeZero
  | infinity (negative : Bool)
  | nan
deriving DecidableEq, Repr, Inhabited

/-- The nearest integer; halfway, the even one. -/
def roundHalfEven (x : Rat) : Int :=
  let below := x.floor
  let rest := x - below
  if rest < 1 / 2 then below
  else if 1 / 2 < rest then below + 1
  else if below % 2 = 0 then below
  else below + 1

/-- The nearest integer; halfway, the one farther from zero. -/
def roundHalfAway (x : Rat) : Int :=
  if x < 0 then -(-x + 1 / 2).floor else (x + 1 / 2).floor

/-- The integer next to `x` on the side of zero. -/
def truncate (x : Rat) : Int :=
  if x < 0 then -(-x).floor else x.floor

/-- The value nearest to `n` from `low` to `high`. -/
def clamp (low high n : Int) : Int :=
  if n < low then low else if high < n then high else n

/-- The least integer of 64 bits. -/
def int64Min : Int := -9223372036854775808

/-- The greatest integer of 64 bits. -/
def int64Max : Int := 9223372036854775807

/-- The greatest natural number of 64 bits. -/
def word64Max : Nat := 18446744073709551615

/-- The greatest natural number of 32 bits. -/
def word32Max : Nat := 4294967295

namespace Binary64

/-- The greatest `e` with `2 ^ e ≤ x`, for a positive `x`. -/
def binaryExponent (x : Rat) : Int :=
  let guess := (Nat.log2 x.num.natAbs : Int) - (Nat.log2 x.den : Int)
  if (2 : Rat) ^ guess ≤ x then guess else guess - 1

/-- The distance between doubles at a positive `x`: 53 significant bits, but never
less than the least positive double. -/
def spacing (x : Rat) : Rat :=
  let e := binaryExponent x - 52
  if e < -1074 then (2 : Rat) ^ (-1074 : Int) else (2 : Rat) ^ e

/-- A positive number on the grid of doubles, overflow not yet seen. -/
def roundPositive (x : Rat) : Rat :=
  roundHalfEven (x / spacing x) * spacing x

/-- The nearest double.  From halfway between the greatest one and the next power of
two on it is an infinity; below half of the least one it is a zero that keeps the
sign. -/
def ofRat (x : Rat) : Binary64 :=
  if x = 0 then finite 0
  else
    let m := roundPositive (if x < 0 then -x else x)
    if (2 : Rat) ^ (1024 : Int) ≤ m then infinity (x < 0)
    else if m = 0 then (if x < 0 then negativeZero else finite 0)
    else finite (if x < 0 then -m else m)

/-- The nearest double to an integer. -/
def ofInt (n : Int) : Binary64 :=
  ofRat n

/-- The same magnitude with the other sign. -/
def neg : Binary64 → Binary64
  | finite x => if x = 0 then negativeZero else finite (-x)
  | negativeZero => finite 0
  | infinity s => infinity (!s)
  | nan => nan

/-- The exact value, where there is one. -/
def value? : Binary64 → Option Rat
  | finite x => some x
  | negativeZero => some 0
  | infinity _ => none
  | nan => none

/-- Neither an infinity nor not a number. -/
def isFinite (b : Binary64) : Bool :=
  b.value?.isSome

/-- The integer part, held within 64 bits; not a number gives zero. -/
def toInt64 : Binary64 → Int
  | finite x => clamp int64Min int64Max (truncate x)
  | negativeZero => 0
  | infinity negative => if negative then int64Min else int64Max
  | nan => 0

end Binary64

end CyclePatterns

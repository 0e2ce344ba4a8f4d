/-
Doubles as decimal texts.

A double is written with the fewest digits that read back to it, and of the texts
with that many digits the nearest one.  How the digits are laid out differs from
place to place and is a `Layout`: `plain` never has an exponent, `scientific` has
one outside a range of magnitudes.  `ofText?` reads.
-/
import CyclePatterns.Binary64.Basic
import CyclePatterns.Text.Integer

namespace CyclePatterns.Binary64

/-- Which of two decimals wins that lie equally near. -/
inductive Tie where
  | away
  | even
deriving DecidableEq, Repr

/-! ### The shortest digits -/

/-- The greatest `k` with `10 ^ k ≤ x`, for a positive `x`. -/
def decimalExponent (x : Rat) : Int :=
  if x < 1 then -(((Nat.toDigits 10 ((1 / x).ceil.toNat - 1)).length : Nat) : Int)
  else (((Nat.toDigits 10 x.floor.toNat).length : Nat) : Int) - 1

/-- The multiple of `10 ^ e` that stands for `x`: one of the two next to `x`, if it
reads back to `x`, and the nearer if both do. -/
def onGrid? (tie : Tie) (x : Rat) (e : Int) : Option Nat :=
  let step := (10 : Rat) ^ e
  let low := (x / step).floor
  let readsBack (n : Int) : Bool := ofRat (n * step) == finite x
  match readsBack low, readsBack (low + 1) with
  | true, true =>
    let rest := x / step - low
    if rest < 1 / 2 then some low.toNat
    else if 1 / 2 < rest then some (low + 1).toNat
    else match tie with
      | .away => some (low + 1).toNat
      | .even => some (if low % 2 = 0 then low else low + 1).toNat
  | true, false => some low.toNat
  | false, true => some (low + 1).toNat
  | false, false => none

/-- The fewest digits that read back to a positive double, none of them a zero at
the end, and the place of the decimal point counted from their front. -/
def shortest (tie : Tie) (x : Rat) : List Char × Int :=
  let k := decimalExponent x
  let found := (List.range 17).findSome? fun (i : Nat) =>
    let e := k - (i : Int)
    (onGrid? tie x e).map fun n => (n, e)
  let (n, e) := found.getD (0, 0)
  let digits := Nat.toDigits 10 n
  let significant := (digits.reverse.dropWhile (· == '0')).reverse
  (significant, (digits.length : Int) + e)

/-! ### Layouts -/

/-- How the digits of a double are laid out. -/
structure Layout where
  tie : Tie
  /-- An integral value ends in `.0`. -/
  pointAlways : Bool
  /-- The least and greatest decimal exponents written without an exponent part;
  without bounds none ever is. -/
  positional : Option (Int × Int)

/-- No exponent and no needless point. -/
def Layout.plain : Layout := ⟨.away, false, none⟩

/-- Always a point or an exponent; an exponent below `10 ^ -5` and from `10 ^ 16` on. -/
def Layout.scientific : Layout := ⟨.even, true, some (-5, 15)⟩

/-- Digits with the decimal point `point` places from their front. -/
def positional (pointAlways : Bool) (digits : List Char) (point : Int) : List Char :=
  if point ≤ 0 then
    ['0', '.'] ++ List.replicate (-point).toNat '0' ++ digits
  else if (digits.length : Int) ≤ point then
    digits ++ List.replicate (point - digits.length).toNat '0' ++
      (if pointAlways then ['.', '0'] else [])
  else
    digits.take point.toNat ++ '.' :: digits.drop point.toNat

/-- One digit, the others behind a point, and the exponent with its sign. -/
def exponential (digits : List Char) (point : Int) : List Char :=
  let e := point - 1
  let front := match digits with
    | [] => []
    | [d] => [d]
    | d :: r => d :: '.' :: r
  front ++ ['e', if e < 0 then '-' else '+'] ++ Nat.toDigits 10 e.natAbs

/-- The text of a positive double. -/
def positiveText (l : Layout) (x : Rat) : List Char :=
  let (digits, point) := shortest l.tie x
  match l.positional with
  | none => positional l.pointAlways digits point
  | some (low, high) =>
    if low ≤ point - 1 ∧ point - 1 ≤ high then positional l.pointAlways digits point
    else exponential digits point

/-- The text of a double in a layout. -/
def text (l : Layout) : Binary64 → String
  | finite x =>
    if x = 0 then (if l.pointAlways then "0.0" else "0")
    else if x < 0 then String.ofList ('-' :: positiveText l (-x))
    else String.ofList (positiveText l x)
  | negativeZero => if l.pointAlways then "-0.0" else "-0"
  | infinity negative => if negative then "-inf" else "inf"
  | nan => "NaN"

/-! ### Reading -/

/-- The double nearest to `n · 10 ^ e`.  Far outside the range of doubles the power
is not formed. -/
def ofDecimal (n : Nat) (e : Int) : Binary64 :=
  if n = 0 then finite 0
  else
    let magnitude := ((Nat.toDigits 10 n).length : Int) + e
    if 400 < magnitude then infinity false
    else if magnitude < -400 then finite 0
    else ofRat ((n : Rat) * (10 : Rat) ^ e)

/-- The exponent part that is all that is left of a text: nothing, or an `e`, one
sign at most, and digits. -/
def exponentPart? : List Char → Option Int
  | [] => some 0
  | c :: r => if c = 'e' || c = 'E' then Text.signedDigits? r else none

/-- A number without a sign: digits with a point anywhere among, before or behind
them, at least one digit, and perhaps an exponent; or the name of an infinity or of
not a number, in any mixture of capitals. -/
def unsigned? (cs : List Char) : Option Binary64 :=
  let whole := cs.takeWhile Char.isDigit
  let rest := cs.dropWhile Char.isDigit
  let (fraction, rest) := match rest with
    | '.' :: r => (r.takeWhile Char.isDigit, r.dropWhile Char.isDigit)
    | r => ([], r)
  if whole.isEmpty && fraction.isEmpty then
    let name := cs.map Char.toLower
    if name = "inf".toList || name = "infinity".toList then some (infinity false)
    else if name = "nan".toList then some nan
    else none
  else
    (exponentPart? rest).map fun e =>
      ofDecimal (Nat.ofDigitChars 10 (whole ++ fraction) 0) (e - (fraction.length : Int))

/-- Reads a double, with one sign at most. -/
def ofChars? : List Char → Option Binary64
  | '-' :: r => (unsigned? r).map neg
  | '+' :: r => unsigned? r
  | cs => unsigned? cs

/-- Reads a double; no white space is taken off. -/
def ofText? (s : String) : Option Binary64 :=
  ofChars? s.toList

end CyclePatterns.Binary64

/-
Number literals of JSON texts.

A literal is taken apart by the grammar first; what number it names is a second
question.  Digits are gathered into 64 bits for as long as they fit.  Of an integer
part the digits after that only count as a power of ten, of a fraction part they are
dropped.  A literal with a point, an exponent or too many digits names a double, which
is the gathered number rounded, then multiplied or divided by a power of ten, rounded
again at every step.
-/
import CyclePatterns.Json.Draft

namespace CyclePatterns.Json

/-- A number literal, taken apart. -/
structure Literal where
  negative : Bool
  /-- The digits before the point. -/
  whole : List Char
  /-- The digits behind the point, if there is one. -/
  fraction : Option (List Char)
  /-- The sign and the digits of the exponent, if there is one. -/
  exponent : Option (Bool × List Char)
deriving Repr

namespace Literal

/-! ### Grammar -/

/-- One digit or more, and what follows them. -/
def digits (cs : List Char) : Except Fault (List Char × List Char) :=
  match cs.takeWhile Char.isDigit, cs.dropWhile Char.isDigit with
  | [], [] => .error .ended
  | [], _ :: _ => .error .malformed
  | ds, rest => .ok (ds, rest)

/-- The digits before the point: a zero stands alone. -/
def wholePart (cs : List Char) : Except Fault (List Char × List Char) := do
  let (ds, rest) ← digits cs
  match ds with
  | '0' :: _ :: _ => .error .malformed
  | _ => return (ds, rest)

/-- The point and the digits behind it, if there is a point. -/
def fractionPart (cs : List Char) : Except Fault (Option (List Char) × List Char) :=
  match cs with
  | '.' :: r => do
    let (ds, rest) ← digits r
    return (some ds, rest)
  | _ => return (none, cs)

/-- The exponent, if there is one. -/
def exponentPart (cs : List Char) : Except Fault (Option (Bool × List Char) × List Char) :=
  match cs with
  | c :: r =>
    if c = 'e' || c = 'E' then do
      let (negative, r) := match r with
        | '-' :: r => (true, r)
        | '+' :: r => (false, r)
        | r => (false, r)
      let (ds, rest) ← digits r
      return (some (negative, ds), rest)
    else return (none, cs)
  | [] => return (none, cs)

/-- The literal at the front of a text, and what follows it. -/
def scan (cs : List Char) : Except Fault (Literal × List Char) := do
  let (negative, cs) := match cs with
    | '-' :: r => (true, r)
    | _ => (false, cs)
  let (whole, cs) ← wholePart cs
  let (fraction, cs) ← fractionPart cs
  let (exponent, cs) ← exponentPart cs
  return (⟨negative, whole, fraction, exponent⟩, cs)

/-! ### The number that a literal names -/

/-- More digits after a number, for as long as it fits into 64 bits, and how many
digits are left surplus. -/
def gather (n : Nat) : List Char → Nat × Nat
  | [] => (n, 0)
  | c :: r =>
    let m := 10 * n + (c.toNat - '0'.toNat)
    if m ≤ word64Max then gather m r else (n, r.length + 1)

/-- A product of doubles. -/
def times (x y : Rat) : Binary64 :=
  Binary64.ofRat (x * y)

/-- The greatest power of ten that is a double. -/
def greatestPower : Nat := 308

/-- The double nearest to `10 ^ k`. -/
def powerOfTen (k : Nat) : Binary64 :=
  Binary64.ofRat ((10 : Rat) ^ k)

/-- A double times `10 ^ e`, unless that is out of range.  A power with a great
negative exponent is divided by in steps, of which three leave nothing. -/
def scale : Nat → Rat → Int → Option Rat
  | 0, _, _ => some 0
  | steps + 1, x, e =>
    if 0 ≤ e then
      if x = 0 then some 0
      else if (greatestPower : Int) < e then none
      else match powerOfTen e.toNat with
        | .finite power =>
          match times x power with
          | .finite y => some y
          | _ => none
        | _ => none
    else
      let down := if -e < (greatestPower : Int) then -e else greatestPower
      let quotient := match powerOfTen down.toNat with
        | .finite power => (times x (1 / power)).value?.getD 0
        | _ => 0
      if -e ≤ (greatestPower : Int) then some quotient
      else scale steps quotient (e + greatestPower)

/-- The greatest exponent that is counted exactly. -/
def exponentMax : Nat := 2147483647

/-- A double with a sign. -/
def signed (negative : Bool) (x : Rat) : Binary64 :=
  if negative then (Binary64.finite x).neg else .finite x

/-- The double that a gathered number and a power of ten make. -/
def double? (l : Literal) (n : Nat) (e : Int) : Option Binary64 :=
  match l.exponent with
  | some (down, ds) =>
    let size := Nat.ofDigitChars 10 ds 0
    if exponentMax < size then
      if n ≠ 0 && !down then none else some (signed l.negative 0)
    else build (if down then e - size else e + size)
  | none => build e
where
  /-- The gathered number rounded and scaled. -/
  build (e : Int) : Option Binary64 := do
    let x ← (Binary64.ofInt n).value?
    return signed l.negative (← scale 4 x e)

/-- The number that a literal names, unless it is out of the range of doubles. -/
def number? (l : Literal) : Option Number :=
  let (n, surplus) := gather 0 l.whole
  match l.fraction, l.exponent with
  | none, none =>
    if surplus ≠ 0 then (l.double? n surplus).map .float
    else if !l.negative then some (.integer n)
    else if n = 0 || int64Max + 1 < (n : Int) then some (.float (Binary64.ofInt n).neg)
    else some (.integer (-(n : Int)))
  | some ds, _ =>
    let (m, dropped) := gather n ds
    (l.double? m ((surplus : Int) - (ds.length - dropped : Nat))).map .float
  | none, some _ => (l.double? n surplus).map .float

/-- The number token at the front of a text, and what follows it. -/
def token (cs : List Char) : Token Number × List Char :=
  match scan cs with
  | .ok (l, rest) =>
    match l.number? with
    | some n => (.clean n, rest)
    | none => (⟨.error .malformed, none⟩, rest)
  | .error f => (⟨.error f, some .malformed⟩, [])

end Literal

end CyclePatterns.Json

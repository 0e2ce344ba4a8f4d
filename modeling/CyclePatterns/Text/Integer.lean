/-
Integers as decimal texts.

`natural` and `integer` write: no leading zero, a minus sign for a negative number
and never a plus.  Two readers go back.  `digits?` takes digits alone.  `integer?`
takes one sign and digits with underscores between or after them, which is how long
numerators are grouped.
-/

namespace CyclePatterns.Text

/-- The decimal digits of a number. -/
def natural (n : Nat) : String :=
  String.ofList (Nat.toDigits 10 n)

/-- A number with its sign, if that is a minus. -/
def integer (n : Int) : String :=
  if n < 0 then "-" ++ natural n.natAbs else natural n.natAbs

/-- The number that a text of one or more digits names. -/
def digits? (cs : List Char) : Option Nat :=
  if !cs.isEmpty && cs.all Char.isDigit then some (Nat.ofDigitChars 10 cs 0) else none

/-- Digits with underscores anywhere but in front. -/
def grouped? : List Char → Option Nat
  | [] => none
  | c :: r =>
    if c ≠ '_' && (c :: r).all (fun d => d.isDigit || d == '_') then
      some (Nat.ofDigitChars 10 ((c :: r).filter (· != '_')) 0)
    else none

/-- One sign at most, then digits that may be grouped by underscores. -/
def integer? : List Char → Option Int
  | '-' :: r => (grouped? r).map fun n => -(n : Int)
  | '+' :: r => (grouped? r).map fun n => (n : Int)
  | cs => (grouped? cs).map fun n => (n : Int)

/-- One sign at most, then digits alone. -/
def signedDigits? : List Char → Option Int
  | '-' :: r => (digits? r).map fun n => -(n : Int)
  | '+' :: r => (digits? r).map fun n => (n : Int)
  | cs => (digits? cs).map fun n => (n : Int)

/-- A plus sign at most, then digits alone. -/
def unsignedDigits? : List Char → Option Nat
  | '+' :: r => digits? r
  | cs => digits? cs

/-! ### Small facts -/

theorem toList_natural (n : Nat) : (natural n).toList = Nat.toDigits 10 n := by
  simp [natural]

theorem integer_neg {n : Int} (h : 0 < n) : integer (-n) = "-" ++ integer n := by
  rw [integer, integer, if_pos (by omega), if_neg (by omega), Int.natAbs_neg]

end CyclePatterns.Text

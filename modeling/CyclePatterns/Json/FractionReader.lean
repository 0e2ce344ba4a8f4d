/-
Fractions in JSON.

A fraction is written as a string.  It is read from a string, from an integer of 64
bits with a sign, or from a double, which stands for the decimal that its shortest text
names.
-/
import CyclePatterns.Json.Shape
import CyclePatterns.Fraction

namespace CyclePatterns.Json

/-- What a message says was wanted where a fraction was. -/
def fractionWanted : String :=
  "a number or a rational string like \"1/2\""

/-- The fraction that a number stands for. -/
def fractionOfNumber : Number → Read Rat
  | .integer n =>
    if int64Max < n then Read.wrong (.reason "integer out of range") else .ok n
  | .float x =>
    match Fraction.ofShortest? x with
    | some r => .ok r
    | none => Read.wrong (.reason "non-finite number")

/-- Reads a fraction. -/
def readFraction (room : Room) (d : Draft) : Read Rat :=
  match d with
  | .number n => do fractionOfNumber (← Read.ofFault n.read)
  | .string s => do
    let s ← Read.ofFault s.read
    match Fraction.ofText? s with
    | some r => return r
    | none => Read.wrong (.badText s fractionWanted)
  | .array _ => do
    let _ ← room.enterOrFail
    d.unexpected fractionWanted
  | .object _ => do
    let _ ← room.enterOrFail
    d.unexpected fractionWanted
  | _ => d.unexpected fractionWanted

/-- Writes a fraction. -/
def ofFraction (x : Rat) : Json :=
  .string (Fraction.text x)

end CyclePatterns.Json

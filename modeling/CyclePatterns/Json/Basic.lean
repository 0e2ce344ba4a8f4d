/-
JSON values.

Integers of up to 64 bits are kept as integers and every other number as a double.
An object is a list of entries.  `Entries` keeps such a list in the order of its keys,
each key once: where a text repeats a key its last value counts.
-/
import CyclePatterns.Binary64.Text

namespace CyclePatterns

namespace Json

/-- A number as it stands in a JSON text. -/
inductive Number where
  /-- Written without a point or an exponent, from `-2 ^ 63` to `2 ^ 64 - 1`, and not `-0`. -/
  | integer (n : Int)
  | float (x : Binary64)
deriving DecidableEq, Repr

/-- The double that a number stands for. -/
def Number.toBinary64 : Number → Binary64
  | integer n => Binary64.ofInt n
  | float x => x

/-- The text of a number; a double always has a point or an exponent, and one that is
not finite has no text in JSON. -/
def Number.text : Number → String
  | integer n => Text.integer n
  | float x => if x.isFinite then x.text .scientific else "null"

end Json

/-- A JSON value. -/
inductive Json where
  | null
  | bool (b : Bool)
  | number (n : Json.Number)
  | string (s : String)
  | array (items : List Json)
  | object (entries : List (String × Json))
deriving Repr, Inhabited, BEq

/-! ### Entries in the order of their keys -/

namespace Entries

variable {α : Type}

/-- The entries with one more; an entry with the same key gives way. -/
def insert (key : String) (value : α) : List (String × α) → List (String × α)
  | [] => [(key, value)]
  | (k, v) :: r =>
    if key < k then (key, value) :: (k, v) :: r
    else if key = k then (key, value) :: r
    else (k, v) :: insert key value r

/-- Entries given in any order, of equal keys the last. -/
def ofList (entries : List (String × α)) : List (String × α) :=
  entries.foldl (fun es (key, value) => insert key value es) []

/-- The value at a key. -/
def get? (key : String) : List (String × α) → Option α
  | [] => none
  | (k, v) :: r => if k = key then some v else get? key r

end Entries

end CyclePatterns

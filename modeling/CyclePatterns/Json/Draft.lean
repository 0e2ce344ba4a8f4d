/-
JSON texts read up to their first fault.

Whoever reads a JSON text for a purpose goes through it once, from front to back, and
stops at the first thing that is wrong: a character that cannot stand there, the end
of the text, or a value of the wrong shape.  Which of these comes first depends on the
purpose.  So a text is first turned into a `Draft`, which is a value as far as the
text allows, with a fault standing in the place where the text breaks off; a reader
that walks a draft in order meets faults and wrong shapes in the right order.

Some values are only passed over.  Passing over a string or a number is more lenient
than reading it, so a token remembers both outcomes.
-/
import CyclePatterns.Json.Basic

namespace CyclePatterns.Json

/-- Why a text is not JSON. -/
inductive Fault where
  /-- It ends too early. -/
  | ended
  /-- Something stands where it must not. -/
  | malformed
deriving DecidableEq, Repr

/-- A string or a number in a text. -/
structure Token (α : Type) where
  /-- What a reader gets. -/
  read : Except Fault α
  /-- What stops one who only passes over it. -/
  skim : Option Fault

/-- A token without fault. -/
def Token.clean {α : Type} (a : α) : Token α :=
  ⟨.ok a, none⟩

mutual
/-- A value as far as a text allows. -/
inductive Draft where
  | null
  | bool (b : Bool)
  | number (n : Token Number)
  | string (s : Token String)
  | array (items : Items)
  | object (fields : Fields)
  | fault (f : Fault)

/-- What stands in an array from some item on. -/
inductive Items where
  | close
  /-- No item and no end.  One who wants another item meets the first fault, one who
  wants the end meets the second. -/
  | stop (item close : Fault)
  | item (d : Draft) (rest : Items)

/-- What stands in an object from some entry on. -/
inductive Fields where
  | close
  | stop (f : Fault)
  | field (key : Token String) (d : Draft) (rest : Fields)
end

/-! ### How deep a reader goes -/

/-- How many more arrays and objects a reader opens inside each other; without a
number there is no bound. -/
abbrev Room := Option Nat

/-- The room of one who reads a text. -/
def Room.ofText : Room := some 127

/-- The room that is left inside an array or object. -/
def Room.enter : Room → Except Fault Room
  | none => .ok none
  | some 0 => .error .malformed
  | some (n + 1) => .ok (some n)

/-! ### Passing over and reading in full -/

mutual
/-- The first fault met by one who passes over a draft. -/
def Draft.skim : Draft → Option Fault
  | .null => none
  | .bool _ => none
  | .number n => n.skim
  | .string s => s.skim
  | .array items => items.skim
  | .object fields => fields.skim
  | .fault f => some f
termination_by structural d => d

/-- The first fault in what is left of an array. -/
def Items.skim : Items → Option Fault
  | .close => none
  | .stop f _ => some f
  | .item d rest => d.skim.or rest.skim
termination_by structural items => items

/-- The first fault in what is left of an object. -/
def Fields.skim : Fields → Option Fault
  | .close => none
  | .stop f => some f
  | .field key d rest => (key.skim.or d.skim).or rest.skim
termination_by structural fields => fields
end

mutual
/-- The value of a draft, or the first fault met in reading it. -/
def Draft.toJson (room : Room) : Draft → Except Fault Json
  | .null => .ok .null
  | .bool b => .ok (.bool b)
  | .number n => n.read.map .number
  | .string s => s.read.map .string
  | .array items => do
    let room ← room.enter
    return .array (← items.toJson room)
  | .object fields => do
    let room ← room.enter
    return .object (← fields.toJson room [])
  | .fault f => .error f
termination_by structural d => d

/-- The values of what is left of an array. -/
def Items.toJson (room : Room) : Items → Except Fault (List Json)
  | .close => .ok []
  | .stop f _ => .error f
  | .item d rest => do
    let j ← d.toJson room
    return j :: (← rest.toJson room)
termination_by structural items => items

/-- Entries already read together with what is left of an object. -/
def Fields.toJson (room : Room) (entries : List (String × Json)) :
    Fields → Except Fault (List (String × Json))
  | .close => .ok entries
  | .stop f => .error f
  | .field key d rest => do
    let k ← key.read
    let j ← d.toJson room
    rest.toJson room (Entries.insert k j entries)
termination_by structural fields => fields
end

/-! ### Drafts of values -/

mutual
/-- The draft of a value, which has no fault. -/
def Draft.ofJson : Json → Draft
  | .null => .null
  | .bool b => .bool b
  | .number n => .number (.clean n)
  | .string s => .string (.clean s)
  | .array items => .array (Items.ofJson items)
  | .object entries => .object (Fields.ofJson entries)
termination_by structural j => j

/-- The draft of the items of an array. -/
def Items.ofJson : List Json → Items
  | [] => .close
  | j :: rest => .item (Draft.ofJson j) (Items.ofJson rest)
termination_by structural js => js

/-- The draft of the entries of an object. -/
def Fields.ofJson : List (String × Json) → Fields
  | [] => .close
  | (key, j) :: rest => .field (.clean key) (Draft.ofJson j) (Fields.ofJson rest)
termination_by structural es => es
end

end CyclePatterns.Json

/-
Reading values of a wanted shape.

A `ReadError` is either a fault of the text or a `ShapeError`: good JSON that is not
what the reader wants.  Readers take drafts, so that whichever comes first in a text is
the one reported, and a `Room`.  A reader with bounded room reads a text; one without
bound reads a value that is in memory already.
-/
import CyclePatterns.Json.Reader
import CyclePatterns.Text.Quoted

namespace CyclePatterns.Json

/-- Good JSON of the wrong shape. -/
inductive ShapeError where
  /-- Another kind of value, described as messages do. -/
  | unexpected (found wanted : String)
  /-- An integer outside the range of its place. -/
  | outOfRange (n : Int) (wanted : String)
  /-- A string that does not name what is wanted. -/
  | badText (s : String) (wanted : String)
  /-- An array with fewer items than the record it stands for has fields. -/
  | tooFew (found : Nat) (record : String) (fields : Nat)
  /-- An array with more. -/
  | tooMany (found : Nat)
  | missingField (name : String)
  | duplicateField (name : String)
  /-- A field that the record does not have; the fields that it has. -/
  | unknownField (name : String) (known : List String)
  /-- No alternative of a choice fits. -/
  | noVariant (choice : String)
  /-- Any other reason, in its own words. -/
  | reason (text : String)
deriving DecidableEq, Repr

/-- The message of a shape error. -/
def ShapeError.message : ShapeError → String
  | unexpected found wanted => "invalid type: " ++ found ++ ", expected " ++ wanted
  | outOfRange n wanted =>
    "invalid value: integer `" ++ Text.integer n ++ "`, expected " ++ wanted
  | badText s wanted => "invalid value: string " ++ Text.quoted s ++ ", expected " ++ wanted
  | tooFew found record fields =>
    "invalid length " ++ Text.natural found ++ ", expected struct " ++ record ++ " with " ++
      Text.natural fields ++ (if fields = 1 then " element" else " elements")
  | tooMany found =>
    "invalid length " ++ Text.natural found ++ ", expected fewer elements in array"
  | missingField name => "missing field `" ++ name ++ "`"
  | duplicateField name => "duplicate field `" ++ name ++ "`"
  | unknownField name known =>
    "unknown field `" ++ name ++ "`, expected " ++
      " or ".intercalate (known.map fun k => "`" ++ k ++ "`")
  | noVariant choice => "data did not match any variant of untagged enum " ++ choice
  | reason text => text

/-- Why a reader does not get what it wants. -/
inductive ReadError where
  | fault (f : Fault)
  | shape (e : ShapeError)
deriving DecidableEq, Repr

/-- The outcome of reading. -/
abbrev Read (α : Type) := Except ReadError α

/-- The outcome of a step that only faults can stop. -/
def Read.ofFault {α : Type} (r : Except Fault α) : Read α :=
  r.mapError .fault

/-- An outcome that a shape error stands for. -/
def Read.wrong {α : Type} (e : ShapeError) : Read α :=
  .error (.shape e)

/-- One less deep. -/
def Room.enterOrFail (room : Room) : Read Room :=
  Read.ofFault room.enter

/-! ### Single values -/

/-- A number as messages describe it. -/
def Number.described : Number → String
  | integer n => "integer `" ++ Text.integer n ++ "`"
  | float x => "floating point `" ++ x.text .scientific ++ "`"

/-- The error of one who finds something other than what is wanted.  The value found
is read as far as its description needs it. -/
def Draft.unexpected {α : Type} (wanted : String) : Draft → Read α
  | .null => Read.wrong (.unexpected "null" wanted)
  | .bool b =>
    Read.wrong (.unexpected (if b then "boolean `true`" else "boolean `false`") wanted)
  | .number n => do
    let n ← Read.ofFault n.read
    Read.wrong (.unexpected n.described wanted)
  | .string s => do
    let s ← Read.ofFault s.read
    Read.wrong (.unexpected ("string " ++ Text.quoted s) wanted)
  | .array _ => Read.wrong (.unexpected "sequence" wanted)
  | .object _ => Read.wrong (.unexpected "map" wanted)
  | .fault f => .error (.fault f)

/-- Reads a string. -/
def readString : Draft → Read String
  | .string s => Read.ofFault s.read
  | d => d.unexpected "a string"

/-- Reads a natural number up to `max`. -/
def readNatural (max : Nat) (wanted : String) : Draft → Read Nat
  | .number n => do
    match ← Read.ofFault n.read with
    | .integer i =>
      if 0 ≤ i ∧ i ≤ max then return i.toNat else Read.wrong (.outOfRange i wanted)
    | .float x => Draft.unexpected wanted (.number (.clean (.float x)))
  | d => d.unexpected wanted

/-- Reads a natural number of 64 bits. -/
def readWord64 : Draft → Read Nat :=
  readNatural word64Max "usize"

/-- Reads a natural number of 32 bits. -/
def readWord32 : Draft → Read Nat :=
  readNatural word32Max "u32"

/-- Reads a value that may be `null`. -/
def readOptional {α : Type} (read : Draft → Read α) : Draft → Read (Option α)
  | .null => .ok none
  | d => (read d).map some

/-- Reads any value. -/
def readJson (room : Room) (d : Draft) : Read Json :=
  Read.ofFault (d.toJson room)

/-- Passes over a value. -/
def passOver (d : Draft) : Read Unit :=
  match d.skim with
  | some f => .error (.fault f)
  | none => .ok ()

/-! ### Records -/

/-- Goes through the entries of an object in their order. -/
def Fields.walk {σ : Type} (step : σ → String → Draft → Read σ) (s : σ) : Fields → Read σ
  | .close => .ok s
  | .stop f => .error (.fault f)
  | .field key d rest => do
    let key ← Read.ofFault key.read
    rest.walk step (← step s key d)
termination_by structural fields => fields

/-- How many items are left in an array. -/
def Items.count : Items → Nat
  | .close => 0
  | .stop _ _ => 0
  | .item _ rest => rest.count + 1
termination_by structural items => items

/-- The end of an array of which `taken` items have been read as the fields of a
record. -/
def Items.readEnd (room : Room) (taken : Nat) : Items → Read Unit
  | .close => .ok ()
  | .stop _ f => .error (.fault f)
  | .item d rest =>
    match room with
    | some _ => .error (.fault .malformed)
    | none => Read.wrong (.tooMany (taken + (Items.item d rest).count))

/-- Goes through an array as the fields of a record, one step for each, and counts
them. -/
def Items.walk {σ : Type} (room : Room) (taken : Nat) :
    List (σ → Draft → Read σ) → σ → Items → Read (σ × Nat)
  | [], s, items => do
    items.readEnd room taken
    return (s, taken)
  | _ :: _, s, .close => return (s, taken)
  | _ :: _, _, .stop f _ => .error (.fault f)
  | step :: steps, s, .item d rest => do
    rest.walk room (taken + 1) steps (← step s d)
termination_by structural _ _ items => items

/-- A record: an object with known fields, or an array of their values in order.  What
has been read of it so far is held in a `σ`. -/
structure Record (σ : Type) where
  name : String
  /-- The fields by name, each with how its value is taken up. -/
  fields : List (String × (Room → σ → Draft → Read σ))
  /-- How many of the fields an array must give. -/
  required : Nat
  /-- What becomes of a field with another name. -/
  other : String → Draft → Read Unit

namespace Record

variable {σ : Type}

/-- Takes up one entry of an object. -/
def entry (r : Record σ) (room : Room) (s : σ) (key : String) (d : Draft) : Read σ :=
  match r.fields.lookup key with
  | some take => take room s d
  | none => do
    r.other key d
    return s

/-- What a draft holds of a record.  Whether an object has every field that must be
there is for the caller to ask. -/
def read (r : Record σ) (start : σ) (room : Room) : Draft → Read σ
  | .object fields => do
    let room ← room.enterOrFail
    fields.walk (r.entry room) start
  | .array items => do
    let room ← room.enterOrFail
    let (s, taken) ← items.walk room 0 (r.fields.map fun (_, take) => take room) start
    if taken < r.required then Read.wrong (.tooFew taken r.name r.fields.length)
    else return s
  | d => d.unexpected ("struct " ++ r.name)

end Record

/-- The value of a field that has not been seen yet; a second field of its name is an
error before its value is read. -/
def readOnce {α : Type} (name : String) (seen : Option α) (read : Read α) :
    Read (Option α) :=
  if seen.isSome then Read.wrong (.duplicateField name) else read.map some

/-- The value of a field that must be there. -/
def needed {α : Type} (name : String) : Option α → Read α
  | some a => .ok a
  | none => Read.wrong (.missingField name)

/-- Where the value of a field is kept in what has been read of a record. -/
structure Slot (σ α : Type) where
  get : σ → Option α
  set : σ → Option α → σ

/-- The slot of a record that keeps nothing else. -/
def Slot.only {α : Type} : Slot (Option α) α :=
  ⟨fun s => s, fun _ v => v⟩

/-- A field of a record, which is read once and kept in its slot. -/
def field {σ α : Type} (name : String) (slot : Slot σ α) (read : Room → Draft → Read α) :
    String × (Room → σ → Draft → Read σ) :=
  (name, fun room s d => do return slot.set s (← readOnce name (slot.get s) (read room d)))

end CyclePatterns.Json

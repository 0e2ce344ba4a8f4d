/-
Options in JSON.

Options are an object.  Four of its entries have a meaning here and `null` in them is
as good as no entry; every other entry is kept as it is.  What `toJson` writes, `read`
takes back.
-/
import CyclePatterns.Json.FractionReader
import CyclePatterns.Tree.Basic

namespace CyclePatterns

open Json (Draft Room Read Record Slot field needed readString readWord32 readOptional readJson
  readFraction passOver)

/-! ### Reading -/

/-- The arguments of an operator as a record. -/
def Operator.argumentsRecord : Record (Option (Option Rat)) where
  name := "OperatorArguments"
  fields := [field "amount" Slot.only fun room => readOptional (readFraction room)]
  required := 0
  other _ d := passOver d

/-- The arguments of an operator. -/
def Operator.readAmount (room : Room) (d : Draft) : Read (Option Rat) := do
  return (← argumentsRecord.read none room d).join

/-- An operator as a record: its kind and perhaps its arguments. -/
def Operator.record : Record (Option String × Option (Option Rat)) where
  name := "Operator"
  fields :=
    [field "type_" ⟨fun s => s.1, fun s v => (v, s.2)⟩ fun _ => readString,
     field "arguments_" ⟨fun s => s.2, fun s v => (s.1, v)⟩ Operator.readAmount]
  required := 1
  other _ d := passOver d

/-- An operator. -/
def Operator.read (room : Room) (d : Draft) : Read Operator := do
  let (kind, amount) ← record.read (none, none) room d
  return ⟨← needed "type_" kind, amount.join⟩

/-- A natural number of 32 bits. -/
def readCount (d : Draft) : Read UInt32 := do
  return UInt32.ofNat (← readWord32 d)

/-- A Euclidean rhythm as a record. -/
def Euclid.record : Record (Option UInt32 × Option UInt32 × Option (Option UInt32)) where
  name := "Euclid"
  fields :=
    [field "pulses" ⟨fun s => s.1, fun s v => (v, s.2)⟩ fun _ => readCount,
     field "steps" ⟨fun s => s.2.1, fun s v => (s.1, v, s.2.2)⟩ fun _ => readCount,
     field "rotation" ⟨fun s => s.2.2, fun s v => (s.1, s.2.1, v)⟩ fun _ =>
       readOptional readCount]
  required := 2
  other _ d := passOver d

/-- A Euclidean rhythm. -/
def Euclid.read (room : Room) (d : Draft) : Read Euclid := do
  let (pulses, steps, rotation) ← record.read (none, none, none) room d
  return ⟨← needed "pulses" pulses, ← needed "steps" steps, rotation.join⟩

namespace Options

/-- What has been read of options: the four known entries, and the others. -/
structure Entry where
  operator : Option (Option Operator)
  weight : Option (Option Rat)
  reps : Option (Option UInt32)
  euclid : Option (Option Euclid)
  extra : List (String × Json)

/-- The known entries. -/
def fields : List (String × (Room → Entry → Draft → Read Entry)) :=
  [field "operator" ⟨Entry.operator, fun s v => { s with operator := v }⟩ fun room =>
     readOptional (Operator.read room),
   field "weight" ⟨Entry.weight, fun s v => { s with weight := v }⟩ fun room =>
     readOptional (readFraction room),
   field "reps" ⟨Entry.reps, fun s v => { s with reps := v }⟩ fun _ => readOptional readCount,
   field "euclid" ⟨Entry.euclid, fun s v => { s with euclid := v }⟩ fun room =>
     readOptional (Euclid.read room)]

/-- Takes up one entry. -/
def takeUp (room : Room) (s : Entry) (key : String) (d : Draft) : Read Entry :=
  match fields.lookup key with
  | some take => take room s d
  | none => do
    return { s with extra := Entries.insert key (← readJson room d) s.extra }

/-- Reads options. -/
def read (room : Room) : Draft → Read Options
  | .object fields => do
    let room ← room.enterOrFail
    let s ← fields.walk (takeUp room) ⟨none, none, none, none, []⟩
    return ⟨s.operator.join, s.weight.join, s.reps.join, s.euclid.join, s.extra⟩
  | d => d.unexpected "struct Options"

end Options

/-! ### Writing -/

/-- A natural number of 32 bits. -/
def jsonOfCount (n : UInt32) : Json :=
  .number (.integer n.toNat)

/-- An operator with its arguments. -/
def Operator.toJson (o : Operator) : Json :=
  .object (Entries.ofList
    [("type_", .string o.kind),
     ("arguments_", .object (match o.amount with
       | some a => [("amount", Json.ofFraction a)]
       | none => []))])

/-- A Euclidean rhythm; a missing rotation is `null`. -/
def Euclid.toJson (e : Euclid) : Json :=
  .object (Entries.ofList
    [("pulses", jsonOfCount e.pulses),
     ("steps", jsonOfCount e.steps),
     ("rotation", match e.rotation with
       | some r => jsonOfCount r
       | none => .null)])

/-- Options with an entry for all that is set. -/
def Options.toJson (o : Options) : Json :=
  .object (Entries.ofList
    ((o.operator.map fun v => ("operator", v.toJson)).toList ++
      (o.weight.map fun v => ("weight", Json.ofFraction v)).toList ++
      (o.reps.map fun v => ("reps", jsonOfCount v)).toList ++
      (o.euclid.map fun v => ("euclid", v.toJson)).toList ++
      o.extra))

end CyclePatterns

/-
Trees as JSON texts spell them.

A node is spelled as a record: what kind it is, its arguments, its source, its options
and its location.  The source is where the children are, and it has three spellings:
a list of nodes, one node, or a value.  A `Sketch` is such a record taken at its word,
before anyone has asked whether its kind has a meaning or its arguments make sense.
-/
import CyclePatterns.Tree.OptionsForm

namespace CyclePatterns

open Json (Draft Items Fields Room Read Record ReadError Slot field readOnce needed readString
  readWord64 readOptional passOver)

mutual
/-- A node as it is spelled. -/
inductive Sketch where
  | node (kind : String) (arguments : List (String × Json)) (source : Source)
      (options : Option Options) (location : Option SourceSpan)

/-- The source of a node. -/
inductive Source where
  | absent
  | nodes (nodes : List Sketch)
  | one (node : Sketch)
  | value (v : Value)
end

namespace Sketch

/-! ### Parts without nodes in them -/

/-- A position in the notation as a record. -/
def positionRecord : Record (Option Nat) where
  name := "RawPosition"
  fields := [field "offset" Slot.only fun _ => readWord64]
  required := 1
  other _ d := passOver d

/-- A position in the notation. -/
def readPosition (room : Room) (d : Draft) : Read Nat := do
  needed "offset" (← positionRecord.read none room d)

/-- A stretch of the notation as a record. -/
def locationRecord : Record (Option Nat × Option Nat) where
  name := "RawLocation"
  fields :=
    [field "start" ⟨fun s => s.1, fun s v => (v, s.2)⟩ readPosition,
     field "end" ⟨fun s => s.2, fun s v => (s.1, v)⟩ readPosition]
  required := 2
  other _ d := passOver d

/-- A stretch of the notation. -/
def readLocation (room : Room) (d : Draft) : Read SourceSpan := do
  let (start, stop) ← locationRecord.read (none, none) room d
  return ⟨← needed "start" start, ← needed "end" stop⟩

/-- The arguments of a node: any entries. -/
def readArguments (room : Room) : Draft → Read (List (String × Json))
  | .object fields => do
    let room ← room.enterOrFail
    Read.ofFault (fields.toJson room [])
  | d => d.unexpected "a map"

/-- The value that a draft is, if it is a number or a text. -/
def value? : Draft → Option Value
  | .number n => n.read.toOption.map fun n => .number n.toBinary64
  | .string s => s.read.toOption.map .text
  | _ => none

/-! ### Nodes -/

/-- What has been read of a node. -/
structure Slots where
  kind : Option String
  arguments : Option (List (String × Json))
  source : Option Source
  options : Option (Option Options)
  location : Option (Option SourceSpan)

/-- Nothing read yet. -/
def Slots.empty : Slots :=
  ⟨none, none, none, none, none⟩

/-- The node that has been read. -/
def Slots.node (s : Slots) : Read Sketch := do
  return .node (← needed "type_" s.kind) (s.arguments.getD []) (s.source.getD .absent)
    s.options.join s.location.join

/-- A source that no spelling fits. -/
def noSource {α : Type} : Read α :=
  Read.wrong (.noVariant "RawSource")

mutual
/-- Reads a node. -/
def read (room : Room) : Draft → Read Sketch
  | .object fields => do
    let room ← room.enterOrFail
    (← readFields room .empty fields).node
  | .array items => do
    let room ← room.enterOrFail
    readItems room 0 .empty items
  | d => d.unexpected "struct RawNode"
termination_by structural d => d

/-- Reads the entries of a node that is an object. -/
def readFields (room : Room) (s : Slots) : Fields → Read Slots
  | .close => .ok s
  | .stop f => .error (.fault f)
  | .field key d rest => do
    let key ← Read.ofFault key.read
    if key = "type_" then
      let v ← readOnce key s.kind (readString d)
      readFields room { s with kind := v } rest
    else if key = "arguments_" then
      let v ← readOnce key s.arguments (readArguments room d)
      readFields room { s with arguments := v } rest
    else if key = "source_" then
      let v ← readOnce key s.source (readSource room d)
      readFields room { s with source := v } rest
    else if key = "options_" then
      let v ← readOnce key s.options (readOptional (Options.read room) d)
      readFields room { s with options := v } rest
    else if key = "location_" then
      let v ← readOnce key s.location (readOptional (readLocation room) d)
      readFields room { s with location := v } rest
    else
      passOver d
      readFields room s rest
termination_by structural fields => fields

/-- Reads a node that is an array, of which `taken` items have been read. -/
def readItems (room : Room) (taken : Nat) (s : Slots) : Items → Read Sketch
  | .close =>
    if taken = 0 then Read.wrong (.tooFew 0 "RawNode" 5) else s.node
  | .stop item close => .error (.fault (if taken < 5 then item else close))
  | .item d rest => do
    match taken with
    | 0 => readItems room 1 { s with kind := some (← readString d) } rest
    | 1 => readItems room 2 { s with arguments := some (← readArguments room d) } rest
    | 2 => readItems room 3 { s with source := some (← readSource room d) } rest
    | 3 => readItems room 4 { s with options := some (← readOptional (Options.read room) d) } rest
    | 4 =>
      readItems room 5 { s with location := some (← readOptional (readLocation room) d) } rest
    | _ => do
      (Items.item d rest).readEnd room taken
      s.node
termination_by structural items => items

/-- Reads a source.  It is read in full before its spelling is looked at, and why a
spelling does not fit is not told. -/
def readSource (room : Room) : Draft → Read Source
  | .null => .ok .absent
  | d@(.array items) => do
    let _ ← Json.readJson room d
    match readNodes items with
    | .ok ns => return .nodes ns
    | .error _ =>
      match readItems none 0 .empty items with
      | .ok n => return .one n
      | .error _ => noSource
  | d@(.object fields) => do
    let _ ← Json.readJson room d
    match (do (← readFields none .empty fields).node : Read Sketch) with
    | .ok n => return .one n
    | .error _ => noSource
  | d => do
    let _ ← Json.readJson room d
    match value? d with
    | some v => return .value v
    | none => noSource
termination_by structural d => d

/-- Reads a list of nodes. -/
def readNodes : Items → Read (List Sketch)
  | .close => .ok []
  | .stop f _ => .error (.fault f)
  | .item d rest => do
    let n ← read none d
    return n :: (← readNodes rest)
termination_by structural items => items
end

end Sketch

/-- Reads a value, which is a number or a text. -/
def Value.read (room : Room) (d : Draft) : Read Value := do
  let _ ← Json.readJson room d
  match Sketch.value? d with
  | some v => return v
  | none => Read.wrong (.noVariant "Value")

end CyclePatterns

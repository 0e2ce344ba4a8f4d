/-
Settings of the compiler.

Settings are read from JSON.  A setting that is not given has its default, and one that
does not exist is an error.
-/
import CyclePatterns.Json.Shape
import CyclePatterns.Theory.Pitch

namespace CyclePatterns

open Json (Document Draft Read Record Room ReadError field readString readWord64)

/-- What the compiler can be told. -/
structure Config where
  /-- The greatest depth of a node that is still compiled. -/
  maxDepth : Nat
  /-- The tonic of a scale that names none. -/
  defaultTonic : Pitch
deriving DecidableEq, Repr

namespace Config

/-- The settings where none are given. -/
def default : Config :=
  ⟨64, Pitch.c4⟩

instance : Inhabited Config := ⟨default⟩

/-- Reads a note name. -/
def readPitch (d : Draft) : Read Pitch := do
  match Pitch.ofText (← readString d) with
  | .ok p => return p
  | .error e => Read.wrong (.reason e.message)

/-- Settings as a record. -/
def record : Record (Option Nat × Option Pitch) where
  name := "CompilerConfig"
  fields :=
    [field "max_depth" ⟨fun s => s.1, fun s v => (v, s.2)⟩ fun _ => readWord64,
     field "default_tonic" ⟨fun s => s.2, fun s v => (s.1, v)⟩ fun _ => readPitch]
  required := 0
  other key _ := Read.wrong (.unknownField key ["max_depth", "default_tonic"])

/-- Reads settings. -/
def read (room : Room) (d : Draft) : Read Config := do
  let (maxDepth, tonic) ← record.read (none, none) room d
  return ⟨maxDepth.getD default.maxDepth, tonic.getD default.defaultTonic⟩

/-- The settings that a JSON text gives. -/
def ofText (text : String) : Read Config :=
  (Document.ofText text).read .fault read

end Config

end CyclePatterns

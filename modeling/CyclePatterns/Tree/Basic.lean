/-
Syntax trees of notation.

A tree says how patterns are put together and says nothing yet about time.  Its kinds
of node are a closed set; a node of any other kind keeps its name and its children, so
that it can be reported.  Only elements carry options.
-/
import CyclePatterns.Json.Basic
import CyclePatterns.Pattern.Hap
import CyclePatterns.Value

namespace CyclePatterns

/-- How the children of a pattern node share its time. -/
inductive Alignment where
  /-- One after another, in equal parts. -/
  | horizontal
  /-- All at once. -/
  | vertical
deriving DecidableEq, Repr

/-- What is done to an element. -/
structure Operator where
  kind : String
  amount : Option Rat
deriving DecidableEq, Repr

/-- Plays an element `amount` times slower. -/
def Operator.stretch (amount : Rat) : Operator :=
  ⟨"stretch", some amount⟩

/-- A rhythm that spreads pulses over steps. -/
structure Euclid where
  pulses : UInt32
  steps : UInt32
  rotation : Option UInt32
deriving DecidableEq, Repr

/-- The decoration of an element. -/
structure Options where
  operator : Option Operator
  weight : Option Rat
  reps : Option UInt32
  euclid : Option Euclid
  /-- What else was given, ordered by name. -/
  extra : List (String × Json)
deriving Repr

namespace Options

/-- No decoration. -/
def empty : Options :=
  ⟨none, none, none, none, []⟩

/-- The names of all that is set: the known ones first, in a fixed order. -/
def keys (o : Options) : List String :=
  (if o.operator.isSome then ["operator"] else []) ++
    (if o.weight.isSome then ["weight"] else []) ++
    (if o.reps.isSome then ["reps"] else []) ++
    (if o.euclid.isSome then ["euclid"] else []) ++
    o.extra.map (·.1)

end Options

/-- A node of a syntax tree. -/
inductive Node where
  /-- Several nodes that share the time. -/
  | pattern (alignment : Alignment) (children : List Node)
  /-- One value, with the place in the notation that it comes from. -/
  | scalar (value : Value) (options : Option Options) (location : Option SourceSpan)
  /-- A sub-tree that takes the place of one value. -/
  | group (child : Node) (options : Option Options) (location : Option SourceSpan)
  /-- A child played `amount` times slower. -/
  | stretch (amount : Rat) (child : Option Node)
  /-- A child whose values are steps of a scale. -/
  | scale (name : String) (child : Option Node)
  /-- A node of a kind that has no meaning here. -/
  | unknown (kind : String) (children : List Node)

namespace Node

/-- Nodes one after another. -/
def sequence (children : List Node) : Node :=
  pattern .horizontal children

/-- Nodes all at once. -/
def stack (children : List Node) : Node :=
  pattern .vertical children

/-- A step at which nothing sounds. -/
def rest : Node :=
  scalar Value.rest none none

/-- The decoration of a node; only elements have any. -/
def options : Node → Option Options
  | scalar _ o _ => o
  | group _ o _ => o
  | _ => none

/-- An element with other options; any other node stays as it is. -/
def withOptions (o : Options) : Node → Node
  | scalar v _ l => scalar v (some o) l
  | group c _ l => group c (some o) l
  | n => n

end Node

end CyclePatterns

/-
From spelled trees to syntax trees.

A node that is spelled well may still make no sense: a pattern without children, a
stretch without an amount.  `toNode` finds the first such node, children before the
node that holds them except that a stretch looks at its amount first.
-/
import CyclePatterns.Tree.Sketch

namespace CyclePatterns

open Json (Draft Document ReadError ShapeError Fault)

/-- Why a JSON text or value is not a syntax tree. -/
inductive TreeError where
  /-- It is not even spelled as one. -/
  | json (e : ReadError)
  | emptyPattern
  /-- A stretch has no amount, or one that is not a fraction. -/
  | invalidAmount (e : Option ShapeError)
deriving Repr

/-- The message of an error that is not about JSON. -/
def TreeError.message : TreeError → String
  | json _ => "invalid AST JSON"
  | emptyPattern => "pattern node has no children"
  | invalidAmount none => "stretch node has an invalid \"amount\" argument: missing"
  | invalidAmount (some e) =>
    "stretch node has an invalid \"amount\" argument: " ++ e.message

namespace Sketch

/-- How the children of a pattern are aligned; side by side unless said otherwise. -/
def alignment (arguments : List (String × Json)) : Alignment :=
  match Entries.get? "alignment" arguments with
  | some (.string s) => if s = "v" || s = "vertical" then .vertical else .horizontal
  | _ => .horizontal

/-- The amount of a stretch. -/
def amount (arguments : List (String × Json)) : Except TreeError Rat :=
  match Entries.get? "amount" arguments with
  | none => .error (.invalidAmount none)
  | some j =>
    match Json.readFraction none (Draft.ofJson j) with
    | .ok r => .ok r
    | .error (.shape e) => .error (.invalidAmount (some e))
    | .error (.fault f) => .error (.json (.fault f))

/-- The name of a scale; empty unless a text is given. -/
def scaleName (arguments : List (String × Json)) : String :=
  match Entries.get? "scale" arguments with
  | some (.string s) => s
  | _ => ""

/-- Children as the one child of a node: several of them are played in sequence. -/
def onlyChild : List Node → Option Node
  | [] => none
  | [n] => some n
  | ns => some (Node.sequence ns)

mutual
/-- The syntax tree that a sketch means. -/
def toNode : Sketch → Except TreeError Node
  | .node kind arguments source options location =>
    if kind = "pattern" then do
      let children ← sourceChildren source
      if children.isEmpty then .error .emptyPattern
      else return .pattern (alignment arguments) children
    else if kind = "element" then
      match source with
      | .absent => .ok (.scalar Value.rest options location)
      | .value v => .ok (.scalar v options location)
      | .one n => do return .group (← n.toNode) options location
      | .nodes ns => do
        match onlyChild (← toNodes ns) with
        | some child => return .group child options location
        | none => .error .emptyPattern
    else if kind = "stretch" then do
      let amount ← amount arguments
      return .stretch amount (onlyChild (← sourceChildren source))
    else if kind = "scale" then do
      return .scale (scaleName arguments) (onlyChild (← sourceChildren source))
    else do
      return .unknown kind (← sourceChildren source)
termination_by structural s => s

/-- The nodes of a source. -/
def sourceChildren : Source → Except TreeError (List Node)
  | .absent => .ok []
  | .nodes ns => toNodes ns
  | .one n => do return [← n.toNode]
  | .value v => .ok [.scalar v none none]
termination_by structural s => s

/-- The syntax trees of several sketches. -/
def toNodes : List Sketch → Except TreeError (List Node)
  | [] => .ok []
  | s :: rest => do
    let n ← s.toNode
    return n :: (← toNodes rest)
termination_by structural ss => ss
end

end Sketch

namespace Node

/-- The syntax tree of a sketch that is being read. -/
def ofSketch (s : Json.Read Sketch) : Except TreeError Node :=
  match s with
  | .ok s => s.toNode
  | .error e => .error (.json e)

/-- The syntax tree that a JSON text spells. -/
def ofText (text : String) : Except TreeError Node :=
  ofSketch ((Document.ofText text).read .fault Sketch.read)

/-- The syntax tree that a JSON value spells. -/
def ofJson (j : Json) : Except TreeError Node :=
  ofSketch (Sketch.read none (Draft.ofJson j))

end Node

end CyclePatterns

/-
Syntax trees written as JSON.

A tree is written in the shape that the reader of trees expects.  Children stand in a list, but
a child without siblings may also stand alone, and for some nodes it may be a bare value.  All
of this is in use, so whoever writes a tree chooses for every node.  Amounts are texts, so that
they stay exact.
-/
import CyclePatterns.Tree.OptionsForm

namespace CyclePatterns

/-- The word for an alignment. -/
def Alignment.word : Alignment → String
  | horizontal => "h"
  | vertical => "v"

/-- A place in the notation. -/
def SourceSpan.toJson (s : SourceSpan) : Json :=
  .object
    [("end", .object [("offset", .number (.integer s.stop))]),
     ("start", .object [("offset", .number (.integer s.start))])]

/-- A number or a text; a number that is not finite has no other spelling than `null`. -/
def Value.toJson : Value → Json
  | number x => if x.isFinite then .number (.float x) else .null
  | text s => .string s

/-- How a child without siblings is spelled. -/
inductive ChildSpelling where
  /-- In a list, as several children are. -/
  | listed
  /-- Without a list around it. -/
  | alone
  /-- As nothing but its value, if it is a value that is not decorated and has no place. -/
  | bare
deriving DecidableEq, Repr

namespace Node

/-- The entries of a node: its kind and its arguments, and what it has of a source, of options
and of a place. -/
def entries (kind : String) (arguments : List (String × Json)) (source : Option Json)
    (options : Option Options) (location : Option SourceSpan) : List (String × Json) :=
  ("type_", .string kind) :: ("arguments_", .object arguments) ::
    ((source.map fun v => ("source_", v)).toList ++
      ((options.map fun o => ("options_", o.toJson)).toList ++
        (location.map fun l => ("location_", l.toJson)).toList))

/-- A node with these entries. -/
def spelled (kind : String) (arguments : List (String × Json)) (source : Option Json)
    (options : Option Options) (location : Option SourceSpan) : Json :=
  .object (Entries.ofList (entries kind arguments source options location))

/-- Children as a source: in a list, unless there is one that is not to be listed. -/
def inSource (spelling : ChildSpelling) : List Json → Json
  | [j] => if spelling = .listed then .array [j] else j
  | js => .array js

/-- Children as the source of a node that is no element, for which a value may stand bare. -/
def inPlainSource (spelling : ChildSpelling) (children : List Node) (js : List Json) : Json :=
  match spelling, children with
  | .bare, [.scalar value none none] => value.toJson
  | _, _ => inSource spelling js

mutual
/-- The JSON value that spells a tree; how a child without siblings is spelled is chosen for
every node. -/
def toJson (spelling : Node → ChildSpelling) : Node → Json
  | .pattern alignment children =>
    spelled "pattern" [("alignment", .string alignment.word)]
      (some (inPlainSource (spelling (.pattern alignment children)) children
        (listToJson spelling children))) none none
  | .scalar value options location =>
    spelled "element" [] (some value.toJson) options location
  | .group child options location =>
    spelled "element" []
      (some (inSource (spelling (.group child options location)) [child.toJson spelling]))
      options location
  | .stretch amount child =>
    spelled "stretch" [("amount", Json.ofFraction amount)]
      ((childToJson spelling child).map fun j =>
        inPlainSource (spelling (.stretch amount child)) child.toList [j]) none none
  | .scale name child =>
    spelled "scale" [("scale", .string name)]
      ((childToJson spelling child).map fun j =>
        inPlainSource (spelling (.scale name child)) child.toList [j]) none none
  | .unknown kind children =>
    spelled kind []
      (some (inPlainSource (spelling (.unknown kind children)) children
        (listToJson spelling children))) none none
termination_by structural n => n

/-- The JSON value that spells the one child of a node, if it has one. -/
def childToJson (spelling : Node → ChildSpelling) : Option Node → Option Json
  | none => none
  | some child => some (child.toJson spelling)
termination_by structural c => c

/-- The JSON values that spell several trees. -/
def listToJson (spelling : Node → ChildSpelling) : List Node → List Json
  | [] => []
  | n :: rest => n.toJson spelling :: listToJson spelling rest
termination_by structural ns => ns
end

theorem listToJson_eq_map (spelling : Node → ChildSpelling) (ns : List Node) :
    listToJson spelling ns = ns.map (toJson spelling) := by
  induction ns with
  | nil => rfl
  | cons n ns ih => simp [listToJson, ih]

end Node

end CyclePatterns

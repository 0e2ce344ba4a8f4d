/-
From notation to syntax trees.

A layer is a horizontal pattern, several layers are a vertical pattern of such.  A step
is an element, and its suffixes set its options one after another.  An element has room
for one operator: a second one puts the element as it stands into a group and is set on
that.  The numbers of replications and rhythms must fit into 32 bits, and the first in
the text that does not is an error.
-/
import CyclePatterns.Notation.Grammar
import CyclePatterns.Tree.Basic

namespace CyclePatterns

namespace Notation

/-- Why a text is not notation. -/
inductive NotationError where
  /-- The text does not match the grammar; the place to look at. -/
  | grammar (offset : Nat)
  /-- A number that names no fraction. -/
  | number (place : SourceSpan)
  /-- A number of digits that does not fit into 32 bits. -/
  | count (place : SourceSpan)
deriving DecidableEq, Repr

namespace NotationError

/-- The stretch of text that an error is about. -/
def span : NotationError → SourceSpan
  | grammar offset => ⟨offset, offset⟩
  | number place => place
  | count place => place

/-- The message of an error; what the grammar wanted is not told. -/
def message (e : NotationError) : String :=
  "parse error at " ++ Text.natural e.span.start ++ "-" ++ Text.natural e.span.stop ++
    match e with
    | grammar _ => ""
    | number _ => ": invalid number"
    | count _ => ": invalid integer"

end NotationError

/-- A place counted from `lead` bytes into the text. -/
def placeFrom (lead : Nat) (place : SourceSpan) : SourceSpan :=
  ⟨place.start - lead, place.stop - lead⟩

namespace Numeral

/-- The fraction that a number names. -/
def toRat (lead : Nat) (n : Numeral) : Except NotationError Rat :=
  match Fraction.ofChars? n.text with
  | some r => .ok r
  | none => .error (.number (placeFrom lead n.place))

/-- The count that digits name. -/
def toCount (lead : Nat) (n : Numeral) : Except NotationError UInt32 :=
  match Text.digits? n.text with
  | some k =>
    if k ≤ word32Max then .ok (UInt32.ofNat k) else .error (.count (placeFrom lead n.place))
  | none => .error (.count (placeFrom lead n.place))

/-- One over the fraction that a number names; zero where there is no such thing. -/
def toRecip (lead : Nat) (n : Numeral) : Except NotationError Rat := do
  return (Fraction.recip? (← n.toRat lead)).getD 0

end Numeral

/-- A part that may be missing. -/
def traverse {α β : Type} (f : α → Except NotationError β) :
    Option α → Except NotationError (Option β)
  | none => .ok none
  | some a => (f a).map some

/-! ### Elements -/

/-- The location of an element. -/
def locationOf : Node → Option SourceSpan
  | .scalar _ _ l => l
  | .group _ _ l => l
  | _ => none

/-- An element with its options changed. -/
def adjust (f : Options → Options) (element : Node) : Node :=
  element.withOptions (f (element.options.getD .empty))

/-- An element with one more operator. -/
def operate (o : Operator) (element : Node) : Node :=
  match element.options.bind (·.operator) with
  | none => adjust (fun options => { options with operator := some o }) element
  | some _ =>
    .group (Node.sequence [element]) (some { Options.empty with operator := some o })
      (locationOf element)

/-- An element with one more suffix. -/
def Suffix.apply (lead : Nat) (element : Node) : Suffix → Except NotationError Node
  | .fast n => do return operate (.stretch (← n.toRecip lead)) element
  | .slow n => do return operate (.stretch (← n.toRat lead)) element
  | .fixedStep n => do return operate ⟨"fixed-step", some (← n.toRat lead)⟩ element
  | .degrade n => do
    return operate ⟨"degrade", ← traverse (Numeral.toRat lead) n⟩ element
  | .weight n => do
    let w ← n.toRat lead
    return adjust (fun options => { options with weight := some w }) element
  | .replicate n => do
    let r ← traverse (Numeral.toCount lead) n
    return adjust (fun options => { options with reps := some (r.getD 2) }) element
  | .euclid pulses steps rotation => do
    let p ← pulses.toCount lead
    let s ← steps.toCount lead
    let r ← traverse (Numeral.toCount lead) rotation
    return adjust (fun options => { options with euclid := some ⟨p, s, r⟩ }) element

/-- An element with its suffixes, in order. -/
def Suffix.applyAll (lead : Nat) (element : Node) : List Suffix → Except NotationError Node
  | [] => .ok element
  | s :: rest => do applyAll lead (← s.apply lead element) rest

/-! ### Steps, layers and expressions -/

/-- Layers as one node: a single layer stands for itself. -/
def ofLayers : List Node → Node
  | [n] => n
  | ns => Node.stack ns

mutual
/-- The element that a step means. -/
def Step.toNode (lead : Nat) : Step → Except NotationError Node
  | .word text place suffixes =>
    Suffix.applyAll lead
      (.scalar (.text (String.ofList text)) none (some (placeFrom lead place))) suffixes
  | .bracket layers place suffixes => do
    let child ← layersToNodes lead layers
    Suffix.applyAll lead (.group (ofLayers child) none (some (placeFrom lead place))) suffixes
termination_by structural s => s

/-- The elements of a layer. -/
def stepsToNodes (lead : Nat) : List Step → Except NotationError (List Node)
  | [] => .ok []
  | s :: rest => do
    let n ← s.toNode lead
    return n :: (← stepsToNodes lead rest)
termination_by structural ss => ss

/-- The sequences that layers mean. -/
def layersToNodes (lead : Nat) : List (List Step) → Except NotationError (List Node)
  | [] => .ok []
  | steps :: rest => do
    let n ← stepsToNodes lead steps
    return Node.sequence n :: (← layersToNodes lead rest)
termination_by structural ls => ls
end

/-- A node with a call in front. -/
def Call.apply (lead : Nat) (child : Node) : Call → Except NotationError Node
  | .slow n => do return .stretch (← n.toRat lead) (some child)
  | .fast n => do return .stretch (← n.toRecip lead) (some child)
  | .scale name => .ok (.scale (String.ofList name) (some child))
  | .named name => .ok (.unknown (String.ofList name) [child])

/-- The node that an expression means. -/
def Expression.toNode (lead : Nat) : Expression → Except NotationError Node
  | .quoted layers => do return ofLayers (← layersToNodes lead layers)
  | .application call operand => do call.apply lead (← operand.toNode lead)

/-- A node as the root of a tree, which is always a pattern. -/
def asRoot : Node → Node
  | .pattern alignment children => .pattern alignment children
  | n => Node.sequence [n]

theorem asRoot_eq_or (n : Node) : asRoot n = n ∨ asRoot n = Node.sequence [n] := by
  cases n with
  | pattern alignment children => exact .inl rfl
  | _ => exact .inr rfl

/-- The tree that a text means, with places counted from `lead` bytes into it. -/
def treeFrom (lead : Nat) (text : List Char) : Except NotationError Node :=
  match parse text with
  | .ok e => (e.toNode lead).map asRoot
  | .error offset => .error (.grammar (offset - lead))

end Notation

open Notation (NotationError treeFrom)

namespace Node

/-- The tree of quoted notation with calls in front. -/
def ofNotation (text : String) : Except NotationError Node :=
  treeFrom 0 text.toList

/-- The tree of bare notation, which is read as if quotes stood around it.  Places are
those in the text itself. -/
def ofMini (text : String) : Except NotationError Node :=
  treeFrom 1 ('"' :: text.toList ++ ['"'])

/-- The tree of several bare notations, played one after another. -/
def ofMinis (texts : List String) : Except NotationError Node := do
  let trees ← texts.mapM ofMini
  return sequence (trees.map fun t => .group t none none)

end Node

end CyclePatterns

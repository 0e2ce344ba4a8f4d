/-
Trees with other values and no scales.

A scale does two things to the values below it: it maps them, and it stands above them.  Put
aside what it maps, it is no more than an element around its child.  `Node.relabelled` makes a
tree so, and gives every leaf a value that may depend on the scale that it stands under, so
that nothing is forgotten.
-/
import CyclePatterns.Proofs.Compile.Tiling

namespace CyclePatterns

mutual
/-- The tree with its scales taken as elements around what is below them, and with the value of
each leaf that sounds made from the name of the scale above it and from the value that it had. -/
def Node.relabelled (f : Option String → Value → Value) : Option String → Node → Node
  | above, .pattern alignment children => .pattern alignment (relabelledAll f above children)
  | above, .scalar value options location =>
    .scalar (if value.isRest then value else f above value) options location
  | above, .group child options location => .group (child.relabelled f above) options location
  | _, .stretch amount none => .stretch amount none
  | above, .stretch amount (some child) => .stretch amount (some (child.relabelled f above))
  | _, .scale name none => .scale name none
  | _, .scale name (some child) => .group (child.relabelled f (some name)) none none
  | above, .unknown kind children => .unknown kind (relabelledAll f above children)
termination_by structural _ n => n

/-- Each of several trees relabelled. -/
def relabelledAll (f : Option String → Value → Value) : Option String → List Node → List Node
  | _, [] => []
  | above, n :: rest => n.relabelled f above :: relabelledAll f above rest
termination_by structural _ ns => ns
end

theorem relabelledAll_eq_map (f : Option String → Value → Value) (above : Option String)
    (ns : List Node) : relabelledAll f above ns = ns.map (Node.relabelled f above) := by
  induction ns with
  | nil => rfl
  | cons n rest ih => rw [relabelledAll, ih, List.map_cons]

namespace Node

variable {f : Option String → Value → Value} {above : Option String}

theorem relabelled_pattern (alignment : Alignment) (children : List Node) :
    (pattern alignment children).relabelled f above
      = pattern alignment (children.map (relabelled f above)) := by
  rw [relabelled, relabelledAll_eq_map]

/-- Elements keep their options, and a scale has none. -/
theorem options_relabelled (n : Node) : (n.relabelled f above).options = n.options := by
  cases n with
  | stretch amount child => cases child <;> rfl
  | scale name child => cases child <;> rfl
  | _ => rfl

/-- The tree with each of its scales replaced by an element around what is below it. -/
def unscaled (tree : Node) : Node :=
  tree.relabelled (fun _ value => value) none

/-- No scale stands below another one. -/
def ScaledOnce (tree : Node) : Prop :=
  ∀ name child, scale name (some child) ∈ tree.nodes → child.Unscaled

/-- All scales in the tree have names that are known. -/
def ScalesKnown (tree : Node) : Prop :=
  ∀ name child, scale name child ∈ tree.nodes →
    (Scale.intervals (Scale.tokenize name).2).isOk = true

/-- A tree in which a known scale is the only one. -/
theorem scaled_of_only {tree child : Node} {name : String}
    (honly : ∀ name' child', scale name' child' ∈ tree.nodes → name' = name ∧ child' = some child)
    (hchild : child.Unscaled) (hknown : (Scale.intervals (Scale.tokenize name).2).isOk = true) :
    tree.ScaledOnce ∧ tree.ScalesKnown := by
  constructor
  · intro name' child' hmem
    rw [Option.some.inj (honly name' _ hmem).2]
    exact hchild
  · intro name' child' hmem
    rw [(honly name' child' hmem).1]
    exact hknown

end Node

end CyclePatterns

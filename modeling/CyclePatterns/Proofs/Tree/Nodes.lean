/-
The nodes of a tree.

`Node.nodes` lists a tree and all that stands below it, parents first and from left to
right.  A condition on a whole tree is then a condition on single nodes, such as that none
of them is a rest.  The leaves are the scalars among them, each known by its value and its
place in the notation.
-/
import CyclePatterns.Proofs.Compile.Walk
import Mathlib.Data.List.Basic

namespace CyclePatterns

mutual
/-- A node and all nodes below it. -/
def Node.nodes : Node → List Node
  | .pattern alignment children => .pattern alignment children :: nodesOfAll children
  | .scalar value options location => [.scalar value options location]
  | .group child options location => .group child options location :: child.nodes
  | .stretch amount (some child) => .stretch amount (some child) :: child.nodes
  | .stretch amount none => [.stretch amount none]
  | .scale name (some child) => .scale name (some child) :: child.nodes
  | .scale name none => [.scale name none]
  | .unknown kind children => .unknown kind children :: nodesOfAll children
termination_by structural n => n

/-- The nodes of several trees, one after another. -/
def nodesOfAll : List Node → List Node
  | [] => []
  | n :: rest => n.nodes ++ nodesOfAll rest
termination_by structural ns => ns
end

theorem nodesOfAll_eq_flatMap (ns : List Node) : nodesOfAll ns = ns.flatMap Node.nodes := by
  induction ns with
  | nil => rfl
  | cons n rest ih => rw [nodesOfAll, ih, List.flatMap_cons]

namespace Node

/-! ### One equation for each kind of node -/

theorem nodes_pattern (alignment : Alignment) (children : List Node) :
    (pattern alignment children).nodes
      = pattern alignment children :: children.flatMap nodes := by
  rw [nodes, nodesOfAll_eq_flatMap]

theorem nodes_unknown (kind : String) (children : List Node) :
    (unknown kind children).nodes = unknown kind children :: children.flatMap nodes := by
  rw [nodes, nodesOfAll_eq_flatMap]

theorem mem_nodes_self (n : Node) : n ∈ n.nodes := by
  cases n with
  | pattern alignment children => exact List.mem_cons_self
  | scalar value options location => exact List.mem_cons_self
  | group child options location => exact List.mem_cons_self
  | stretch amount child => cases child <;> exact List.mem_cons_self
  | scale name child => cases child <;> exact List.mem_cons_self
  | unknown kind children => exact List.mem_cons_self

/-- What stands below a child of a pattern node stands below the pattern node. -/
theorem nodes_subset_of_mem {alignment : Alignment} {child : Node} {children : List Node}
    (h : child ∈ children) : child.nodes ⊆ (pattern alignment children).nodes := by
  intro n hn
  rw [nodes_pattern]
  exact List.mem_cons_of_mem _ (List.mem_flatMap.mpr ⟨child, h, hn⟩)

/-! ### Leaves -/

/-- The value and the place of a scalar. -/
def leaf? : Node → Option (Value × Option SourceSpan)
  | scalar value _ location => some (value, location)
  | _ => none

/-- The scalars of a tree, from left to right. -/
def leaves (n : Node) : List (Value × Option SourceSpan) :=
  n.nodes.filterMap leaf?

/-- The places of the scalars of a tree. -/
def leafPlaces (n : Node) : List (Option SourceSpan) :=
  n.leaves.map Prod.snd

theorem leaves_pattern (alignment : Alignment) (children : List Node) :
    (pattern alignment children).leaves = children.flatMap leaves := by
  rw [leaves, nodes_pattern, List.filterMap_cons, List.filterMap_flatMap]
  rfl

theorem leaves_unknown (kind : String) (children : List Node) :
    (unknown kind children).leaves = children.flatMap leaves := by
  rw [leaves, nodes_unknown, List.filterMap_cons, List.filterMap_flatMap]
  rfl

theorem leafPlaces_pattern (alignment : Alignment) (children : List Node) :
    (pattern alignment children).leafPlaces = children.flatMap leafPlaces := by
  rw [leafPlaces, leaves_pattern, List.map_flatMap]
  rfl

theorem leafPlaces_unknown (kind : String) (children : List Node) :
    (unknown kind children).leafPlaces = children.flatMap leafPlaces := by
  rw [leafPlaces, leaves_unknown, List.map_flatMap]
  rfl

end Node

end CyclePatterns

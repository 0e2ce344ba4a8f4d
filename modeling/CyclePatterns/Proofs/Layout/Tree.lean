/-
The layout of a tree.

Where every stretch is by one over a whole number, a tree divides a cycle into slots in
the plain sense: a sequence into equal parts, a stretch into equal copies, and a stack
not at all.  `Node.layout` says which events that gives and takes no notice of cycles or
queries.  The compiled pattern plays it, in every cycle whose divisions are counted
exactly.

An operator belongs to a child of a pattern node.  On an element that stands anywhere
else it has no effect, and the layout takes no notice of it either.
-/
import CyclePatterns.Proofs.Compile.Walk
import CyclePatterns.Proofs.Layout.Plays
import Mathlib.Algebra.BigOperators.Group.List.Lemmas

namespace CyclePatterns

/-! ### Slots, divisions and height -/

/-- How often an element with these options plays within its slot. -/
def copies (options : Option Options) : Nat :=
  match options.bind (·.operator) with
  | some o => if o.kind = "stretch" then o.amount.elim 1 Rat.den else 1
  | none => 1

mutual
/-- Which events fill the slot of a node. -/
def Node.layout : Node → Layout Value
  | .pattern .horizontal children => Layout.row (slotLayouts children)
  | .pattern .vertical children => Layout.pile (slotLayouts children)
  | .scalar value _ location =>
    if value.isRest then Layout.empty else Layout.event value location
  | .group child _ _ => child.layout
  | .stretch amount (some child) => Layout.repeated amount.den child.layout
  | .stretch _ none => Layout.empty
  | .scale _ _ => Layout.empty
  | .unknown _ _ => Layout.empty
termination_by structural n => n

/-- The layouts of the children of a pattern node, each with its copies. -/
def slotLayouts : List Node → List (Layout Value)
  | [] => []
  | child :: rest => Layout.repeated (copies child.options) child.layout :: slotLayouts rest
termination_by structural ns => ns
end

mutual
/-- The product of all fan-outs and all numbers of copies in a tree.  A pattern node
without children counts as one. -/
def Node.divisions : Node → Nat
  | .pattern _ children => max 1 children.length * slotDivisions children
  | .scalar _ _ _ => 1
  | .group child _ _ => child.divisions
  | .stretch amount (some child) => amount.den * child.divisions
  | .stretch _ none => 1
  | .scale _ _ => 1
  | .unknown _ _ => 1
termination_by structural n => n

/-- The product over the children of a pattern node. -/
def slotDivisions : List Node → Nat
  | [] => 1
  | child :: rest => copies child.options * child.divisions * slotDivisions rest
termination_by structural ns => ns
end

mutual
/-- How many nodes stand above the deepest node of a tree. -/
def Node.height : Node → Nat
  | .pattern _ children => slotHeight children
  | .scalar _ _ _ => 0
  | .group child _ _ => child.height + 1
  | .stretch _ (some child) => child.height + 1
  | .stretch _ none => 0
  | .scale _ (some child) => child.height + 1
  | .scale _ none => 0
  | .unknown _ _ => 0
termination_by structural n => n

/-- The same over the children of a pattern node. -/
def slotHeight : List Node → Nat
  | [] => 0
  | child :: rest => max (child.height + 1) (slotHeight rest)
termination_by structural ns => ns
end

/-- The options stretch, if at all, by one over a whole number. -/
def StretchedEvenly (options : Option Options) : Prop :=
  ∀ o, options.bind (·.operator) = some o → o.kind = "stretch" →
    ∃ k : Nat, 0 < k ∧ o.amount = some (1 / (k : Rat))

/-- A tree of patterns, elements and stretches, with every stretch by one over a whole
number. -/
inductive Node.Even : Node → Prop
  | pattern (alignment : Alignment) {children : List Node}
      (hchildren : ∀ child ∈ children, child.Even)
      (hoptions : ∀ child ∈ children, StretchedEvenly child.options) :
      Even (.pattern alignment children)
  | scalar (value : Value) (options : Option Options) (location : Option SourceSpan) :
      Even (.scalar value options location)
  | group {child : Node} (options : Option Options) (location : Option SourceSpan)
      (hchild : child.Even) : Even (.group child options location)
  | stretch {amount : Rat} {k : Nat} {child : Node} (hk : 0 < k) (hamount : amount = 1 / (k : Rat))
      (hchild : child.Even) : Even (.stretch amount (some child))

theorem stretchedEvenly_none : StretchedEvenly none := by
  intro o ho
  cases ho

theorem slotLayouts_eq_map (children : List Node) :
    slotLayouts children
      = children.map fun child => Layout.repeated (copies child.options) child.layout := by
  induction children with
  | nil => rfl
  | cons child rest ih => rw [slotLayouts, ih, List.map_cons]

theorem slotDivisions_eq_prod (children : List Node) :
    slotDivisions children
      = (children.map fun child => copies child.options * child.divisions).prod := by
  induction children with
  | nil => rfl
  | cons child rest ih => rw [slotDivisions, ih, List.map_cons, List.prod_cons]

theorem height_lt_slotHeight {child : Node} {children : List Node} (h : child ∈ children) :
    child.height < slotHeight children := by
  induction children with
  | nil => exact absurd h List.not_mem_nil
  | cons first rest ih =>
      rw [slotHeight]
      rcases List.mem_cons.mp h with rfl | h
      · omega
      · have hrest := ih h
        omega

theorem copies_pos (options : Option Options) : 0 < copies options := by
  unfold copies
  split
  · rename_i o _
    split
    · cases o.amount with
      | none => exact Nat.one_pos
      | some amount => exact amount.den_pos
    · exact Nat.one_pos
  · exact Nat.one_pos

theorem slotDivisions_pos {children : List Node} (h : ∀ child ∈ children, 0 < child.divisions) :
    0 < slotDivisions children := by
  rw [slotDivisions_eq_prod, List.prod_pos_iff_forall_pos_nat]
  intro d hd
  obtain ⟨child, hchild, rfl⟩ := List.mem_map.mp hd
  exact Nat.mul_pos (copies_pos _) (h child hchild)

theorem Node.divisions_pos (n : Node) : 0 < n.divisions := by
  induction n using Node.induction with
  | pattern alignment children ih => exact Nat.mul_pos (by omega) (slotDivisions_pos ih)
  | scalar value options location => exact Nat.one_pos
  | group child options location ih => exact ih
  | stretch amount child ih =>
      cases child with
      | none => exact Nat.one_pos
      | some child => exact Nat.mul_pos amount.den_pos (ih child rfl)
  | scale name child ih => exact Nat.one_pos
  | unknown kind children ih => exact Nat.one_pos

theorem divisions_le_slotDivisions {child : Node} {children : List Node} (h : child ∈ children) :
    copies child.options * child.divisions ≤ slotDivisions children := by
  refine Nat.le_of_dvd (slotDivisions_pos fun child _ => child.divisions_pos) ?_
  rw [slotDivisions_eq_prod]
  exact List.dvd_prod (List.mem_map_of_mem h)

theorem Node.movable_layout (n : Node) : n.layout.Movable := by
  induction n using Node.induction with
  | pattern alignment children ih =>
      have hslots : ∀ layout ∈ slotLayouts children, layout.Movable := by
        rw [slotLayouts_eq_map]
        intro layout hlayout
        obtain ⟨child, hchild, rfl⟩ := List.mem_map.mp hlayout
        exact Layout.movable_repeated (ih child hchild) _
      cases alignment with
      | horizontal => exact Layout.movable_row hslots
      | vertical => exact Layout.movable_pile hslots
  | scalar value options location =>
      rw [layout]
      split
      · exact Layout.movable_empty
      · exact Layout.movable_event value location
  | group child options location ih => exact ih
  | stretch amount child ih =>
      cases child with
      | none => exact Layout.movable_empty
      | some child => exact Layout.movable_repeated (ih child rfl) _
  | scale name child ih => exact Layout.movable_empty
  | unknown kind children ih => exact Layout.movable_empty

end CyclePatterns

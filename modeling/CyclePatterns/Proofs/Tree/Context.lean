/-
A place in a tree.

A context is a tree with a hole, so that to fill it is to say what stands at that place and
nothing else.  Every node of a tree stands in a context, and the leaves of a filled context
are those of the filling and those beside the hole.
-/
import CyclePatterns.Proofs.Tree.Nodes

namespace CyclePatterns

/-- A tree with a hole. -/
inductive Context where
  | hole
  | pattern (alignment : Alignment) (before : List Node) (inside : Context) (after : List Node)
  | group (inside : Context) (options : Option Options) (location : Option SourceSpan)
  | stretch (amount : Rat) (inside : Context)
  | scale (name : String) (inside : Context)
  | unknown (kind : String) (before : List Node) (inside : Context) (after : List Node)

namespace Context

/-- The tree with a node in its hole. -/
def fill (n : Node) : Context → Node
  | hole => n
  | pattern alignment before inside after =>
    .pattern alignment (before ++ inside.fill n :: after)
  | group inside options location => .group (inside.fill n) options location
  | stretch amount inside => .stretch amount (some (inside.fill n))
  | scale name inside => .scale name (some (inside.fill n))
  | unknown kind before inside after => .unknown kind (before ++ inside.fill n :: after)

/-- How many nodes stand above the hole. -/
def depth : Context → Nat
  | hole => 0
  | pattern _ _ inside _ => inside.depth + 1
  | group inside _ _ => inside.depth + 1
  | stretch _ inside => inside.depth + 1
  | scale _ inside => inside.depth + 1
  | unknown _ _ inside _ => inside.depth + 1

/-- The hole is the place of a child of a pattern. -/
def InPattern : Context → Prop
  | hole => False
  | pattern _ _ inside _ => inside = hole ∨ inside.InPattern
  | group inside _ _ | stretch _ inside | scale _ inside | unknown _ _ inside _ => inside.InPattern

/-- The places of the leaves beside the hole. -/
def leafPlaces : Context → List (Option SourceSpan)
  | hole => []
  | pattern _ before inside after =>
    before.flatMap Node.leafPlaces ++ (inside.leafPlaces ++ after.flatMap Node.leafPlaces)
  | group inside _ _ => inside.leafPlaces
  | stretch _ inside => inside.leafPlaces
  | scale _ inside => inside.leafPlaces
  | unknown _ before inside after =>
    before.flatMap Node.leafPlaces ++ (inside.leafPlaces ++ after.flatMap Node.leafPlaces)

/-- What stands below one of several nodes has that node and its siblings around it. -/
theorem exists_fill_of_mem {n : Node} {children : List Node}
    (ih : ∀ child ∈ children, n ∈ child.nodes → ∃ C : Context, C.fill n = child)
    (h : n ∈ children.flatMap Node.nodes) :
    ∃ before after, ∃ C : Context, before ++ C.fill n :: after = children := by
  obtain ⟨child, hchild, hn⟩ := List.mem_flatMap.mp h
  obtain ⟨C, rfl⟩ := ih child hchild hn
  obtain ⟨before, after, rfl⟩ := List.append_of_mem hchild
  exact ⟨before, after, C, rfl⟩

/-- **The nodes of a tree are what contexts make the tree of.** -/
theorem mem_nodes_iff {n tree : Node} : n ∈ tree.nodes ↔ ∃ C : Context, C.fill n = tree := by
  constructor
  · induction tree using Node.induction with
    | pattern alignment children ih =>
        intro h
        rw [Node.nodes_pattern] at h
        rcases List.mem_cons.mp h with rfl | h
        · exact ⟨hole, rfl⟩
        · obtain ⟨before, after, C, rfl⟩ := exists_fill_of_mem ih h
          exact ⟨pattern alignment before C after, rfl⟩
    | scalar value options location =>
        intro h
        exact ⟨hole, List.mem_singleton.mp h⟩
    | group child options location ih =>
        intro h
        rcases List.mem_cons.mp h with rfl | h
        · exact ⟨hole, rfl⟩
        · obtain ⟨C, rfl⟩ := ih h
          exact ⟨group C options location, rfl⟩
    | stretch amount child ih =>
        intro h
        cases child with
        | none => exact ⟨hole, List.mem_singleton.mp h⟩
        | some child =>
            rcases List.mem_cons.mp h with rfl | h
            · exact ⟨hole, rfl⟩
            · obtain ⟨C, rfl⟩ := ih child rfl h
              exact ⟨stretch amount C, rfl⟩
    | scale name child ih =>
        intro h
        cases child with
        | none => exact ⟨hole, List.mem_singleton.mp h⟩
        | some child =>
            rcases List.mem_cons.mp h with rfl | h
            · exact ⟨hole, rfl⟩
            · obtain ⟨C, rfl⟩ := ih child rfl h
              exact ⟨scale name C, rfl⟩
    | unknown kind children ih =>
        intro h
        rw [Node.nodes_unknown] at h
        rcases List.mem_cons.mp h with rfl | h
        · exact ⟨hole, rfl⟩
        · obtain ⟨before, after, C, rfl⟩ := exists_fill_of_mem ih h
          exact ⟨unknown kind before C after, rfl⟩
  · rintro ⟨C, rfl⟩
    induction C with
    | hole => exact Node.mem_nodes_self n
    | pattern alignment before inside after ih =>
        exact Node.nodes_subset_of_mem (List.mem_append_right _ List.mem_cons_self) ih
    | group inside options location ih => exact List.mem_cons_of_mem _ ih
    | stretch amount inside ih => exact List.mem_cons_of_mem _ ih
    | scale name inside ih => exact List.mem_cons_of_mem _ ih
    | unknown kind before inside after ih =>
        rw [fill, Node.nodes_unknown]
        refine List.mem_cons_of_mem _ (List.mem_flatMap.mpr ⟨inside.fill n, ?_, ih⟩)
        exact List.mem_append_right _ List.mem_cons_self

theorem perm_beside {α : Type} (before inside after filling : List α) :
    (before ++ ((filling ++ inside) ++ after)).Perm (filling ++ (before ++ (inside ++ after))) := by
  rw [List.append_assoc, ← List.append_assoc before, ← List.append_assoc filling before]
  exact List.Perm.append_right _ List.perm_append_comm

/-- The leaves of a filled context are those of the filling and those beside it. -/
theorem leafPlaces_fill (C : Context) (n : Node) :
    (C.fill n).leafPlaces.Perm (n.leafPlaces ++ C.leafPlaces) := by
  induction C with
  | hole => rw [fill, leafPlaces, List.append_nil]
  | pattern alignment before inside after ih =>
      rw [fill, Node.leafPlaces_pattern, List.flatMap_append, List.flatMap_cons, leafPlaces]
      exact ((ih.append_right _).append_left _).trans (perm_beside _ _ _ _)
  | group inside options location ih => exact ih
  | stretch amount inside ih => exact ih
  | scale name inside ih => exact ih
  | unknown kind before inside after ih =>
      rw [fill, Node.leafPlaces_unknown, List.flatMap_append, List.flatMap_cons, leafPlaces]
      exact ((ih.append_right _).append_left _).trans (perm_beside _ _ _ _)

end Context

end CyclePatterns

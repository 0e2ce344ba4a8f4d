/-
What trees are made of.

Whatever is read from JSON, no pattern in it is without children: a node that is spelled as a
pattern is refused where it has none, and the reader puts nodes in sequence only where there
are several.  A tree that is read from notation is more regular still.  Its root is a pattern,
every node that needs a child has one, every element has a place, and options stand only
where a pattern looks for them.

Both facts are conditions on single nodes, carried through the recursion that makes the tree:
over sketches for JSON, over written parts for notation.
-/
import CyclePatterns.Proofs.Notation.Completeness
import CyclePatterns.Proofs.Notation.Soundness
import CyclePatterns.Proofs.Outcome
import CyclePatterns.Proofs.Tree.Context
import CyclePatterns.Tree.Form

namespace CyclePatterns

open Notation (locationOf)

/-! ### Trees that are spelled in JSON -/

namespace Sketch

variable {kind : String} {arguments : List (String × Json)} {source : Source}
  {options : Option Options} {location : Option SourceSpan} {n : Node}

/-- The kinds of nodes that the reader knows. -/
def knownKinds : List String :=
  ["pattern", "element", "stretch", "scale"]

/-- Several nodes are played in sequence, and no nodes make no child. -/
theorem onlyChild_cases {children : List Node} {child : Node}
    (h : onlyChild children = some child) :
    children = [child] ∨ (2 ≤ children.length ∧ child = Node.sequence children) := by
  match children, h with
  | [n], h => exact .inl (congrArg (· :: []) (Option.some.inj h))
  | n :: m :: rest, h =>
      refine .inr ⟨?_, (Option.some.inj h).symm⟩
      simp only [List.length_cons]
      omega

/-- What the sketch of an element means. -/
theorem toNode_element
    (h : (Sketch.node "element" arguments source options location).toNode = .ok n) :
    (∃ v, (source = .value v ∨ source = .absent) ∧ n = .scalar v options location) ∨
      ∃ children child, sourceChildren source = .ok children ∧
        onlyChild children = some child ∧ n = .group child options location := by
  rw [toNode.eq_def] at h
  simp only [String.reduceEq, if_false, if_true] at h
  cases source with
  | absent => exact .inl ⟨_, .inr rfl, (Except.ok.inj h).symm⟩
  | value v => exact .inl ⟨_, .inl rfl, (Except.ok.inj h).symm⟩
  | one s =>
      obtain ⟨child, hchild, h⟩ := ok_of_bind_eq_ok h
      refine .inr ⟨[child], child, ?_, rfl, (Except.ok.inj h).symm⟩
      rw [sourceChildren, hchild]
      rfl
  | nodes ss =>
      obtain ⟨children, hchildren, h⟩ := ok_of_bind_eq_ok h
      refine .inr ⟨children, ?_⟩
      cases honly : onlyChild children with
      | none =>
          rw [honly] at h
          cases h
      | some child =>
          rw [honly] at h
          exact ⟨child, by rw [sourceChildren, hchildren], rfl, (Except.ok.inj h).symm⟩

/-- **What a sketch can mean.**  Every node is of the kind that it is spelled with, and made of
what its source holds. -/
theorem toNode_cases
    (h : (Sketch.node kind arguments source options location).toNode = .ok n) :
    (kind = "element" ∧
      ∃ v, (source = .value v ∨ source = .absent) ∧ n = .scalar v options location) ∨
      ∃ children, sourceChildren source = .ok children ∧
        ((kind = "pattern" ∧ children ≠ [] ∧ n = .pattern (alignment arguments) children) ∨
          (kind = "element" ∧
            ∃ child, onlyChild children = some child ∧ n = .group child options location) ∨
          (kind = "stretch" ∧ ∃ amount, n = .stretch amount (onlyChild children)) ∨
          (kind = "scale" ∧ n = .scale (scaleName arguments) (onlyChild children)) ∨
          (kind ∉ knownKinds ∧ n = .unknown kind children)) := by
  by_cases helement : kind = "element"
  · subst helement
    rcases toNode_element h with hscalar | ⟨children, child, hchildren, honly, rfl⟩
    · exact .inl ⟨rfl, hscalar⟩
    · exact .inr ⟨children, hchildren, .inr (.inl ⟨rfl, child, honly, rfl⟩)⟩
  · rw [toNode.eq_def] at h
    dsimp only at h
    refine .inr ?_
    by_cases hpattern : kind = "pattern"
    · rw [if_pos hpattern] at h
      obtain ⟨children, hchildren, h⟩ := ok_of_bind_eq_ok h
      by_cases hempty : children.isEmpty = true
      · rw [if_pos hempty] at h
        cases h
      · rw [if_neg hempty] at h
        refine ⟨children, hchildren, .inl ⟨hpattern, ?_, (Except.ok.inj h).symm⟩⟩
        rwa [List.isEmpty_iff] at hempty
    · rw [if_neg hpattern, if_neg helement] at h
      by_cases hstretch : kind = "stretch"
      · rw [if_pos hstretch] at h
        obtain ⟨amount, -, h⟩ := ok_of_bind_eq_ok h
        obtain ⟨children, hchildren, h⟩ := ok_of_bind_eq_ok h
        exact ⟨children, hchildren,
          .inr (.inr (.inl ⟨hstretch, amount, (Except.ok.inj h).symm⟩))⟩
      · rw [if_neg hstretch] at h
        by_cases hscale : kind = "scale"
        · rw [if_pos hscale] at h
          obtain ⟨children, hchildren, h⟩ := ok_of_bind_eq_ok h
          exact ⟨children, hchildren,
            .inr (.inr (.inr (.inl ⟨hscale, (Except.ok.inj h).symm⟩)))⟩
        · rw [if_neg hscale] at h
          obtain ⟨children, hchildren, h⟩ := ok_of_bind_eq_ok h
          refine ⟨children, hchildren, .inr (.inr (.inr (.inr ⟨?_, (Except.ok.inj h).symm⟩)))⟩
          simp only [knownKinds, List.mem_cons, List.not_mem_nil, hpattern, helement, hstretch,
            hscale, or_self, not_false_eq_true]

end Sketch

namespace Node

/-- No pattern in the tree is without children. -/
def Peopled (tree : Node) : Prop :=
  ∀ alignment children, pattern alignment children ∈ tree.nodes → children ≠ []

variable {children : List Node}

theorem peopled_pattern {alignment : Alignment} (hempty : children ≠ [])
    (h : ∀ child ∈ children, child.Peopled) : (pattern alignment children).Peopled := by
  intro a ns hmem
  rw [nodes_pattern] at hmem
  rcases List.mem_cons.mp hmem with hself | hmem
  · obtain ⟨-, rfl⟩ := pattern.inj hself
    exact hempty
  · obtain ⟨child, hchild, hmem⟩ := List.mem_flatMap.mp hmem
    exact h child hchild a ns hmem

theorem peopled_unknown {kind : String} (h : ∀ child ∈ children, child.Peopled) :
    (unknown kind children).Peopled := by
  intro a ns hmem
  rw [nodes_unknown] at hmem
  rcases List.mem_cons.mp hmem with hself | hmem
  · cases hself
  · obtain ⟨child, hchild, hmem⟩ := List.mem_flatMap.mp hmem
    exact h child hchild a ns hmem

theorem peopled_scalar (value : Value) (options : Option Options)
    (location : Option SourceSpan) : (scalar value options location).Peopled :=
  fun _ _ hmem => nomatch List.mem_singleton.mp hmem

theorem Peopled.group {child : Node} (h : child.Peopled) (options : Option Options)
    (location : Option SourceSpan) : (Node.group child options location).Peopled :=
  fun a ns hmem => (List.mem_cons.mp hmem).elim nofun (h a ns)

theorem peopled_stretch {child : Option Node} (h : ∀ c, child = some c → c.Peopled)
    (amount : Rat) : (stretch amount child).Peopled := by
  cases child with
  | none => exact fun _ _ hmem => nomatch List.mem_singleton.mp hmem
  | some c => exact fun a ns hmem => (List.mem_cons.mp hmem).elim nofun (h c rfl a ns)

theorem peopled_scale {child : Option Node} (h : ∀ c, child = some c → c.Peopled)
    (name : String) : (scale name child).Peopled := by
  cases child with
  | none => exact fun _ _ hmem => nomatch List.mem_singleton.mp hmem
  | some c => exact fun a ns hmem => (List.mem_cons.mp hmem).elim nofun (h c rfl a ns)

/-- Putting nodes in sequence makes no pattern without children. -/
theorem peopled_onlyChild (h : ∀ n ∈ children, n.Peopled) {child : Node}
    (honly : Sketch.onlyChild children = some child) : child.Peopled := by
  rcases Sketch.onlyChild_cases honly with rfl | ⟨hlength, rfl⟩
  · exact h child List.mem_cons_self
  · refine peopled_pattern (fun hempty => ?_) h
    rw [hempty] at hlength
    exact absurd hlength (by decide)

end Node

namespace Sketch

open Node (Peopled)

mutual
/-- What a sketch means is peopled. -/
theorem peopled_toNode (s : Sketch) {n : Node} (h : s.toNode = .ok n) : n.Peopled := by
  cases s with
  | node kind arguments source options location =>
      rcases toNode_cases h with ⟨-, v, -, rfl⟩ | ⟨children, hchildren, h⟩
      · exact Node.peopled_scalar v options location
      · have hpeopled := peopled_sourceChildren source hchildren
        have honly : ∀ c, onlyChild children = some c → c.Peopled :=
          fun _ => Node.peopled_onlyChild hpeopled
        rcases h with ⟨-, hempty, rfl⟩ | ⟨-, child, hchild, rfl⟩ | ⟨-, amount, rfl⟩ | ⟨-, rfl⟩ |
          ⟨-, rfl⟩
        · exact Node.peopled_pattern hempty hpeopled
        · exact (honly child hchild).group options location
        · exact Node.peopled_stretch honly amount
        · exact Node.peopled_scale honly _
        · exact Node.peopled_unknown hpeopled
termination_by structural s

/-- What stands in a source is peopled. -/
theorem peopled_sourceChildren (s : Source) {ns : List Node} (h : sourceChildren s = .ok ns) :
    ∀ n ∈ ns, n.Peopled := by
  cases s with
  | absent =>
      obtain rfl := Except.ok.inj h
      exact fun n hn => absurd hn List.not_mem_nil
  | nodes ss => exact peopled_toNodes ss h
  | one s =>
      obtain ⟨n, hn, h⟩ := ok_of_bind_eq_ok h
      obtain rfl := Except.ok.inj h
      exact List.forall_mem_singleton.mpr (peopled_toNode s hn)
  | value v =>
      obtain rfl := Except.ok.inj h
      exact List.forall_mem_singleton.mpr (Node.peopled_scalar v none none)
termination_by structural s

/-- What several sketches mean is peopled. -/
theorem peopled_toNodes (ss : List Sketch) {ns : List Node} (h : toNodes ss = .ok ns) :
    ∀ n ∈ ns, n.Peopled := by
  cases ss with
  | nil =>
      obtain rfl := Except.ok.inj h
      exact fun n hn => absurd hn List.not_mem_nil
  | cons s rest =>
      obtain ⟨n, hn, h⟩ := ok_of_bind_eq_ok h
      obtain ⟨ns, hns, h⟩ := ok_of_bind_eq_ok h
      obtain rfl := Except.ok.inj h
      exact List.forall_mem_cons.mpr ⟨peopled_toNode s hn, peopled_toNodes rest hns⟩
termination_by structural ss
end

end Sketch

/-! ### Trees that are read from notation -/

namespace Node

/-- A node has the children that it needs, and none of them has options unless the node is a
pattern.  An element has a place, and a scalar a text. -/
def Regular : Node → Prop
  | pattern _ children => children ≠ []
  | scalar value _ location => (∃ s, s ≠ "" ∧ value = .text s) ∧ location ≠ none
  | group child _ location => child.options = none ∧ location ≠ none
  | stretch _ child | scale _ child => ∃ c, child = some c ∧ c.options = none
  | unknown _ children => ∃ c, children = [c] ∧ c.options = none

/-- All nodes of the tree are regular. -/
def AllRegular (tree : Node) : Prop :=
  ∀ n ∈ tree.nodes, n.Regular

theorem allRegular_pattern {alignment : Alignment} {children : List Node}
    (hempty : children ≠ []) (h : ∀ child ∈ children, child.AllRegular) :
    (pattern alignment children).AllRegular := by
  rw [AllRegular, nodes_pattern]
  refine List.forall_mem_cons.mpr ⟨hempty, fun m hm => ?_⟩
  obtain ⟨child, hchild, hm⟩ := List.mem_flatMap.mp hm
  exact h child hchild m hm

theorem AllRegular.of_mem {tree n : Node} (h : tree.AllRegular) (hn : n.nodes ⊆ tree.nodes) :
    n.AllRegular :=
  fun m hm => h m (hn hm)

/-- Where a node without options stands there is a hole for one with options only below. -/
theorem inPattern_of_options_eq_none {C : Context} {n : Node} (h : C = .hole ∨ C.InPattern)
    (hnone : (C.fill n).options = none) (hoptions : n.options ≠ none) : C.InPattern := by
  rcases h with rfl | h
  · exact absurd hnone hoptions
  · exact h

/-- In a regular tree options stand only at the root and where a pattern has its children. -/
theorem AllRegular.inPattern {C : Context} {n : Node} (h : (C.fill n).AllRegular)
    (hoptions : n.options ≠ none) : C = .hole ∨ C.InPattern := by
  induction C with
  | hole => exact .inl rfl
  | pattern alignment before inside after ih =>
      refine .inr (ih (h.of_mem ?_))
      exact nodes_subset_of_mem (List.mem_append_right _ List.mem_cons_self)
  | group inside options location ih =>
      obtain ⟨hnone, -⟩ : (group (inside.fill n) options location).Regular := h _ (mem_nodes_self _)
      have hinside := ih (h.of_mem (List.subset_cons_self _ _))
      have hbelow : inside.InPattern := inPattern_of_options_eq_none hinside hnone hoptions
      exact .inr hbelow
  | stretch amount inside ih =>
      obtain ⟨c, hc, hnone⟩ : (stretch amount (some (inside.fill n))).Regular :=
        h _ (mem_nodes_self _)
      obtain rfl := Option.some.inj hc
      have hinside := ih (h.of_mem (List.subset_cons_self _ _))
      have hbelow : inside.InPattern := inPattern_of_options_eq_none hinside hnone hoptions
      exact .inr hbelow
  | scale name inside ih =>
      obtain ⟨c, hc, hnone⟩ : (scale name (some (inside.fill n))).Regular :=
        h _ (mem_nodes_self _)
      obtain rfl := Option.some.inj hc
      have hinside := ih (h.of_mem (List.subset_cons_self _ _))
      have hbelow : inside.InPattern := inPattern_of_options_eq_none hinside hnone hoptions
      exact .inr hbelow
  | unknown kind before inside after ih =>
      obtain ⟨c, hc, hnone⟩ : (unknown kind (before ++ inside.fill n :: after)).Regular :=
        h _ (mem_nodes_self _)
      have hmem : inside.fill n ∈ before ++ inside.fill n :: after :=
        List.mem_append_right _ List.mem_cons_self
      have hself : inside.fill n = c := by
        rwa [hc, List.mem_singleton] at hmem
      rw [← hself] at hnone
      have hinside : inside = .hole ∨ inside.InPattern := by
        refine ih (h.of_mem fun m hm => ?_)
        rw [Context.fill, nodes_unknown]
        exact List.mem_cons_of_mem _ (List.mem_flatMap.mpr ⟨_, hmem, hm⟩)
      have hbelow : inside.InPattern := inPattern_of_options_eq_none hinside hnone hoptions
      exact .inr hbelow

end Node

namespace Notation.Written

open Node (AllRegular)

/-- Marks keep an element regular; the groups that they put around it hold a pattern. -/
theorem allRegular_decorate (place : SourceSpan) {head : Option Options → Node}
    (hhead : ∀ o, (head o).AllRegular) (options : Option Options) (marks : List Mark) :
    (decorate place head options marks).AllRegular := by
  induction marks generalizing head options with
  | nil => exact hhead options
  | cons m rest ih =>
      rw [decorate]
      split
      · exact ih hhead _
      · split
        · exact ih hhead _
        · refine ih (fun outer => ?_) _
          refine List.forall_mem_cons.mpr ⟨⟨rfl, Option.some_ne_none place⟩, ?_⟩
          exact Node.allRegular_pattern (List.cons_ne_nil _ _)
            (List.forall_mem_singleton.mpr (hhead options))

theorem sequences_ne_nil (off : Nat) (ls : Layers) : ls.sequences off ≠ [] := by
  cases ls with
  | one first =>
      rw [Layers.sequences]
      exact List.cons_ne_nil _ _
  | more first before after rest =>
      rw [Layers.sequences]
      exact List.cons_ne_nil _ _

theorem elements_ne_nil (off : Nat) (ss : Steps) : ss.elements off ≠ [] := by
  cases ss with
  | one first =>
      rw [Steps.elements]
      exact List.cons_ne_nil _ _
  | more first gap rest =>
      rw [Steps.elements]
      exact List.cons_ne_nil _ _

/-- The pattern of layers has no options, and is as regular as its sequences. -/
theorem allRegular_node {off : Nat} {ls : Layers}
    (h : ∀ n ∈ ls.sequences off, n.AllRegular) : (ls.node off).AllRegular := by
  rcases ls.node_cases off with hmem | hstack
  · exact h _ hmem
  · rw [hstack]
    exact Node.allRegular_pattern (sequences_ne_nil off ls) h

theorem options_node (off : Nat) (ls : Layers) : (ls.node off).options = none := by
  cases ls <;> rw [Layers.node] <;> rfl

mutual
/-- The element of a step is regular. -/
theorem allRegular_step (s : Step) (off : Nat) : (s.node off).AllRegular := by
  cases s with
  | word text marks =>
      rw [Step.node]
      refine allRegular_decorate _ (fun o n hn => ?_) none marks
      obtain rfl := List.mem_singleton.mp hn
      exact ⟨⟨_, fun h => text.nonempty (String.ofList_eq_empty_iff.mp h), rfl⟩, nofun⟩
  | bracket before body after marks =>
      rw [Step.node]
      refine allRegular_decorate _ (fun o n hn => ?_) none marks
      rcases List.mem_cons.mp hn with rfl | hn
      · exact ⟨options_node _ body, nofun⟩
      · exact allRegular_node (allRegular_sequences body _) n hn
termination_by structural s

/-- The elements of steps are regular. -/
theorem allRegular_elements (ss : Steps) (off : Nat) : ∀ n ∈ ss.elements off, n.AllRegular := by
  cases ss with
  | one first =>
      rw [Steps.elements]
      exact List.forall_mem_singleton.mpr (allRegular_step first off)
  | more first gap rest =>
      rw [Steps.elements]
      exact List.forall_mem_cons.mpr ⟨allRegular_step first off, allRegular_elements rest _⟩
termination_by structural ss

/-- The sequences of layers are regular. -/
theorem allRegular_sequences (ls : Layers) (off : Nat) :
    ∀ n ∈ ls.sequences off, n.AllRegular := by
  cases ls with
  | one first =>
      rw [Layers.sequences]
      exact List.forall_mem_singleton.mpr
        (Node.allRegular_pattern (elements_ne_nil off first) (allRegular_elements first off))
  | more first before after rest =>
      rw [Layers.sequences]
      exact List.forall_mem_cons.mpr
        ⟨Node.allRegular_pattern (elements_ne_nil off first) (allRegular_elements first off),
          allRegular_sequences rest _⟩
termination_by structural ls
end

/-- A call in front of a regular tree without options gives another. -/
theorem allRegular_call (call : Call) {child : Node} (h : child.AllRegular)
    (hoptions : child.options = none) :
    (call.node child).AllRegular ∧ (call.node child).options = none := by
  cases call with
  | slow gap n => exact ⟨List.forall_mem_cons.mpr ⟨⟨child, rfl, hoptions⟩, h⟩, rfl⟩
  | fast gap n => exact ⟨List.forall_mem_cons.mpr ⟨⟨child, rfl, hoptions⟩, h⟩, rfl⟩
  | scale gap name => exact ⟨List.forall_mem_cons.mpr ⟨⟨child, rfl, hoptions⟩, h⟩, rfl⟩
  | named name arguments =>
      refine ⟨?_, rfl⟩
      rw [Call.node, AllRegular, Node.nodes_unknown, List.flatMap_singleton]
      exact List.forall_mem_cons.mpr ⟨⟨child, rfl, hoptions⟩, h⟩

theorem allRegular_expression (e : Expression) (off : Nat) :
    (e.node off).AllRegular ∧ (e.node off).options = none := by
  induction e generalizing off with
  | quoted before body after =>
      rw [Expression.node]
      exact ⟨allRegular_node (allRegular_sequences body _), options_node _ body⟩
  | application call before after operand ih =>
      rw [Expression.node]
      exact allRegular_call call (ih _).1 (ih _).2

end Notation.Written

namespace Node

/-- The tree has a pattern for its root. -/
def IsPattern (tree : Node) : Prop :=
  ∃ alignment children, tree = pattern alignment children

/-- A root is a pattern, which it becomes by being the one child of one if need be. -/
theorem isPattern_asRoot (n : Node) : (Notation.asRoot n).IsPattern := by
  cases n <;> exact ⟨_, _, rfl⟩

theorem AllRegular.asRoot {n : Node} (h : n.AllRegular) : (Notation.asRoot n).AllRegular := by
  have hsequence : (sequence [n]).AllRegular :=
    allRegular_pattern (List.cons_ne_nil _ _) (List.forall_mem_singleton.mpr h)
  rcases Notation.asRoot_eq_or n with hroot | hroot
  · rwa [hroot]
  · rwa [hroot]

theorem allRegular_of_read {text : String} {tree : Node}
    (h : ofMini text = .ok tree ∨ ofNotation text = .ok tree) :
    tree.AllRegular ∧ tree.IsPattern := by
  rcases h with h | h
  · obtain ⟨before, w, after, -, rfl⟩ := ofMini_sound h
    refine ⟨Notation.Written.allRegular_node (Notation.Written.allRegular_sequences w _), ?_⟩
    cases w <;> rw [Notation.Written.Layers.node] <;> exact ⟨_, _, rfl⟩
  · obtain ⟨before, e, after, -, rfl⟩ := ofNotation_sound h
    exact ⟨(Notation.Written.allRegular_expression e _).1.asRoot, isPattern_asRoot _⟩

/-- What a tree that is read from notation is like. -/
structure WellMade (tree : Node) : Prop where
  root : tree.IsPattern
  patterns : ∀ alignment children, pattern alignment children ∈ tree.nodes → children ≠ []
  stretches : ∀ amount child, stretch amount child ∈ tree.nodes → child ≠ none
  scales : ∀ name child, scale name child ∈ tree.nodes → child ≠ none
  /-- Only a child of a pattern has options. -/
  decorated : ∀ (C : Context) (n : Node), C.fill n = tree → n.options ≠ none → C.InPattern
  located : ∀ value options location, scalar value options location ∈ tree.nodes →
    location ≠ none
  groupsLocated : ∀ child options location, group child options location ∈ tree.nodes →
    location ≠ none
  scalars : ∀ value options location, scalar value options location ∈ tree.nodes →
    ∃ s, s ≠ "" ∧ value = .text s
  unknowns : ∀ kind children, unknown kind children ∈ tree.nodes → ∃ child, children = [child]

theorem AllRegular.wellMade {tree : Node} (h : tree.AllRegular) (hroot : tree.IsPattern) :
    tree.WellMade where
  root := hroot
  patterns _ _ hmem := h _ hmem
  stretches _ _ hmem := by
    obtain ⟨c, rfl, -⟩ := h _ hmem
    exact nofun
  scales _ _ hmem := by
    obtain ⟨c, rfl, -⟩ := h _ hmem
    exact nofun
  decorated C n hfill hoptions := by
    subst hfill
    refine inPattern_of_options_eq_none (h.inPattern hoptions) ?_ hoptions
    obtain ⟨alignment, children, hpattern⟩ := hroot
    rw [hpattern]
    rfl
  located _ _ _ hmem := (h _ hmem).2
  groupsLocated _ _ _ hmem := (h _ hmem).2
  scalars _ _ _ hmem := (h _ hmem).1
  unknowns _ _ hmem := by
    obtain ⟨c, rfl, -⟩ := h _ hmem
    exact ⟨c, rfl⟩

theorem peopled_ofSketch {s : Json.Read Sketch} {tree : Node} (h : ofSketch s = .ok tree) :
    tree.Peopled := by
  cases s with
  | error e => cases h
  | ok s => exact Sketch.peopled_toNode s h

/-- **What is read is well made.**  In a tree that is read from JSON, be it a text or a value,
every pattern has a child.  A tree that is read from bare or from quoted notation has a pattern
for its root and is well made throughout. -/
theorem readers_make_well :
    (∀ (text : String) (tree : Node), ofText text = .ok tree → tree.Peopled) ∧
    (∀ (j : Json) (tree : Node), ofJson j = .ok tree → tree.Peopled) ∧
    ∀ (text : String) (tree : Node), ofMini text = .ok tree ∨ ofNotation text = .ok tree →
      tree.WellMade := by
  refine ⟨fun text tree h => peopled_ofSketch h, fun j tree h => peopled_ofSketch h, ?_⟩
  intro text tree h
  obtain ⟨hregular, hroot⟩ := allRegular_of_read h
  exact hregular.wellMade hroot

theorem made_well_when_read :
    (∃ tree, ofText "\x7b\"type_\":\"pattern\",\"source_\":[\"c\"]\x7d" = .ok tree ∧
      tree.Peopled) ∧
    (∃ tree, ofJson (.object [("source_", .array [.string "c"]), ("type_", .string "pattern")]) =
      .ok tree ∧ tree.Peopled) ∧
    (∃ tree, ofMini "c*2/3 [d]" = .ok tree ∧ tree.WellMade) ∧
    ∃ tree, ofNotation "rev $ \"c*2/3 [d]\"" = .ok tree ∧ tree.WellMade := by
  obtain ⟨htext, hjson, hnotation⟩ := readers_make_well
  obtain ⟨t, ht⟩ : ∃ tree, ofText "\x7b\"type_\":\"pattern\",\"source_\":[\"c\"]\x7d" = .ok tree :=
    exists_of_isOk (by decide +kernel)
  obtain ⟨j, hj⟩ : ∃ tree, ofJson (.object [("source_", .array [.string "c"]),
      ("type_", .string "pattern")]) = .ok tree := exists_of_isOk (by decide +kernel)
  obtain ⟨m, hm⟩ : ∃ tree, ofMini "c*2/3 [d]" = .ok tree := exists_of_isOk (by decide +kernel)
  obtain ⟨n, hn⟩ : ∃ tree, ofNotation "rev $ \"c*2/3 [d]\"" = .ok tree :=
    exists_of_isOk (by decide +kernel)
  exact ⟨⟨t, ht, htext _ t ht⟩, ⟨j, hj, hjson _ j hj⟩, ⟨m, hm, hnotation _ m (.inl hm)⟩,
    ⟨n, hn, hnotation _ n (.inr hn)⟩⟩

end Node

end CyclePatterns

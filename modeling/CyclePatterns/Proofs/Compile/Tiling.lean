/-
How the haps of a compiled tree follow each other.

A leaf never sounds twice at once: its haps come in order of time, and no two of them
overlap.  It is enough that leaves can be told apart by their places, for then at most one
layer of a stack holds the leaf.  Without stacks the same is true of all haps together, and
if in addition nothing in the tree is silent, the parts of the haps tile the query.
-/
import CyclePatterns.Proofs.Compile.Window
import CyclePatterns.Proofs.Pattern.Carried
import CyclePatterns.Proofs.Pattern.Order
import CyclePatterns.Proofs.Tree.Nodes
import Mathlib.Data.List.Nodup

namespace CyclePatterns

/-- There is no scale in a tree. -/
def Node.Unscaled (n : Node) : Prop :=
  ∀ name child, scale name child ∉ n.nodes

theorem Node.Unscaled.mono {n m : Node} (h : n.Unscaled) (hsub : m.nodes ⊆ n.nodes) :
    m.Unscaled :=
  fun name child hmem => h name child (hsub hmem)

/-! ### Where haps come from -/

namespace Pattern

variable {ρ α : Type} {ps : List (Pattern ρ α)}

/-- Patterns that share the time of a pattern node. -/
def joined (alignment : Alignment) (ps : List (Pattern ρ α)) : Pattern ρ α :=
  match alignment with
  | .vertical => stack ps
  | .horizontal => fastcat ps

theorem carries_joined (alignment : Alignment) {Q : α → Option SourceSpan → Prop}
    (h : ∀ p ∈ ps, p.Carries Q) : (joined alignment ps).Carries Q := by
  cases alignment with
  | horizontal => exact carries_fastcat h
  | vertical => exact carries_stack h

end Pattern

namespace Compilation

/-- Haps come from the leaves of the tree. -/
theorem closed_carries_places :
    Closed fun n c => c.pattern.Carries fun _ place => place ∈ n.leafPlaces where
  pattern := by
    intro alignment children slot hslots
    have hpatterns : ∀ p ∈ (children.map slot).map (·.pattern), p.Carries fun _ place =>
        place ∈ (Node.pattern alignment children).leafPlaces := by
      simp only [List.forall_mem_map]
      intro child hchild
      refine (hslots child hchild).mono fun _ place hplace => ?_
      rw [Node.leafPlaces_pattern]
      exact List.mem_flatMap.mpr ⟨child, hchild, hplace⟩
    exact Pattern.carries_joined alignment hpatterns
  rest := fun _ _ => Pattern.carries_silence
  scalar := fun _ _ _ _ => Pattern.carries_pure List.mem_cons_self
  group := fun _ _ _ _ hc => hc
  stretch := fun amount _ _ _ hc => hc.slow amount
  scale := fun _ _ _ _ hc => hc.mapReporting fun _ _ hplace => hplace
  unscaled := fun _ _ _ hc => hc
  unknown := fun _ _ => Pattern.carries_silence
  failed := fun _ _ _ => Pattern.carries_silence
  slowed := fun _ _ amount _ hc => hc.slow amount
  reported := fun _ _ _ hc => hc

/-- A layer has haps from one place only if a leaf of it has that place. -/
theorem queryFrom_eq_nil {p : Score} {places : List (Option SourceSpan)}
    {place : Option SourceSpan} (hp : p.Carries fun _ place => place ∈ places)
    (hplace : place ∉ places) (s : Span) : p.queryFrom (· == place) s = [] := by
  refine List.filter_eq_nil_iff.mpr fun h hh heq => hplace ?_
  rw [← beq_iff_eq.mp heq]
  exact hp s h hh

/-- If the leaves have different places, the haps from one place are in order. -/
theorem closed_inOrder_place (place : Option SourceSpan) :
    Closed fun n c => (c.pattern.Carries fun _ place => place ∈ n.leafPlaces) ∧
      (n.leafPlaces.Nodup → c.pattern.InOrder (· == place)) where
  pattern := by
    intro alignment children slot hslots
    refine ⟨closed_carries_places.pattern alignment children slot
      fun child hchild => (hslots child hchild).1, fun hnodup => ?_⟩
    rw [Node.leafPlaces_pattern, List.nodup_flatMap] at hnodup
    obtain ⟨hnodup, hapart⟩ := hnodup
    have hpatterns : ∀ p ∈ (children.map slot).map (·.pattern), p.InOrder (· == place) := by
      simp only [List.forall_mem_map]
      exact fun child hchild => (hslots child hchild).2 (hnodup child hchild)
    cases alignment with
    | horizontal => exact Pattern.inOrder_fastcat hpatterns
    | vertical =>
        refine Pattern.inOrder_stack hpatterns ?_
        rw [List.pairwise_map, List.pairwise_map]
        refine hapart.imp_of_mem fun {child child'} hchild hchild' hdisjoint s => ?_
        by_cases hplace : place ∈ child.leafPlaces
        · exact Or.inr (queryFrom_eq_nil (hslots child' hchild').1 (hdisjoint hplace) s)
        · exact Or.inl (queryFrom_eq_nil (hslots child hchild).1 hplace s)
  rest := fun _ _ => ⟨Pattern.carries_silence, fun _ => Pattern.inOrder_silence⟩
  scalar := fun value _ location _ =>
    ⟨Pattern.carries_pure List.mem_cons_self, fun _ => Pattern.inOrder_pure value location⟩
  group := fun _ _ _ _ hc => hc
  stretch := fun amount _ _ _ hc => ⟨hc.1.slow amount, fun h => (hc.2 h).slow amount⟩
  scale := fun _ _ _ f hc =>
    ⟨hc.1.mapReporting fun _ _ hplace => hplace, fun h => (hc.2 h).mapReporting f⟩
  unscaled := fun _ _ _ hc => hc
  unknown := fun _ _ => ⟨Pattern.carries_silence, fun _ => Pattern.inOrder_silence⟩
  failed := fun _ _ _ => ⟨Pattern.carries_silence, fun _ => Pattern.inOrder_silence⟩
  slowed := fun _ _ amount _ hc => ⟨hc.1.slow amount, fun h => (hc.2 h).slow amount⟩
  reported := fun _ _ _ hc => hc

end Compilation

/-! ### All leaves -/

namespace Node

/-- No two leaves of the tree sound at once. -/
def Stackless (n : Node) : Prop :=
  ∀ children, stack children ∉ n.nodes

/-- Something sounds in the tree at any time, if no part of it fails. -/
structure Gapless (n : Node) : Prop where
  stackless : n.Stackless
  noRest : ∀ options location, scalar Value.rest options location ∉ n.nodes
  noUnknown : ∀ kind children, unknown kind children ∉ n.nodes
  noEmpty : ∀ alignment, pattern alignment [] ∉ n.nodes

theorem Stackless.mono {n m : Node} (h : n.Stackless) (hsub : m.nodes ⊆ n.nodes) : m.Stackless :=
  fun children hmem => h children (hsub hmem)

theorem Gapless.mono {n m : Node} (h : n.Gapless) (hsub : m.nodes ⊆ n.nodes) : m.Gapless where
  stackless := h.stackless.mono hsub
  noRest := fun options location hmem => h.noRest options location (hsub hmem)
  noUnknown := fun kind children hmem => h.noUnknown kind children (hsub hmem)
  noEmpty := fun alignment hmem => h.noEmpty alignment (hsub hmem)

end Node

namespace Compilation

/-- Without stacks all haps are in order. -/
theorem closed_inOrder :
    Closed fun n c => n.Stackless → c.pattern.InOrder fun _ => true where
  pattern := by
    intro alignment children slot hslots hstackless
    have hpatterns : ∀ p ∈ (children.map slot).map (·.pattern), p.InOrder fun _ => true := by
      simp only [List.forall_mem_map]
      exact fun child hchild =>
        hslots child hchild (hstackless.mono (Node.nodes_subset_of_mem hchild))
    cases alignment with
    | horizontal => exact Pattern.inOrder_fastcat hpatterns
    | vertical => exact absurd (Node.mem_nodes_self _) (hstackless children)
  rest := fun _ _ _ => Pattern.inOrder_silence
  scalar := fun value _ location _ _ => Pattern.inOrder_pure value location
  group := fun _ _ _ _ hc h => hc (h.mono (List.subset_cons_self _ _))
  stretch := fun amount _ _ _ hc h => (hc (h.mono (List.subset_cons_self _ _))).slow amount
  scale := fun _ _ _ f hc h => (hc (h.mono (List.subset_cons_self _ _))).mapReporting f
  unscaled := fun _ _ _ hc h => hc (h.mono (List.subset_cons_self _ _))
  unknown := fun _ _ _ => Pattern.inOrder_silence
  failed := fun _ _ _ _ => Pattern.inOrder_silence
  slowed := fun _ _ amount _ hc h => (hc h).slow amount
  reported := fun _ _ _ hc => hc

/-- No sub-tree is silent because it has no pattern. -/
def Unfailing (c : Compilation) : Prop :=
  ∀ e, Diagnostic.subtreeFailed e ∉ c.diagnostics

/-- Where nothing is silent and nothing fails, time is filled. -/
theorem closed_fills : Closed fun n c => n.Gapless → c.Unfailing → c.pattern.Fills where
  pattern := by
    intro alignment children slot hslots hgapless hunfailing
    have hpatterns : ∀ p ∈ (children.map slot).map (·.pattern), p.Fills := by
      simp only [List.forall_mem_map]
      intro child hchild
      refine hslots child hchild (hgapless.mono (Node.nodes_subset_of_mem hchild)) fun e he => ?_
      exact hunfailing e (List.mem_flatMap.mpr ⟨slot child, List.mem_map_of_mem hchild, he⟩)
    have hne : (children.map slot).map (·.pattern) ≠ [] := by
      intro hnil
      rw [List.map_eq_nil_iff, List.map_eq_nil_iff] at hnil
      subst hnil
      exact hgapless.noEmpty alignment (Node.mem_nodes_self _)
    cases alignment with
    | horizontal => exact Pattern.fills_fastcat hne hpatterns
    | vertical => exact absurd (Node.mem_nodes_self _) (hgapless.stackless children)
  rest := fun options location hgapless =>
    absurd (Node.mem_nodes_self _) (hgapless.noRest options location)
  scalar := fun value _ location _ _ _ => Pattern.fills_pure value location
  group := fun _ _ _ _ hc h => hc (h.mono (List.subset_cons_self _ _))
  stretch := fun _ _ _ hpos hc h hu => (hc (h.mono (List.subset_cons_self _ _)) hu).slow hpos
  scale := fun _ _ _ f hc h hu => (hc (h.mono (List.subset_cons_self _ _)) hu).mapReporting f
  unscaled := fun _ _ _ hc h hu =>
    hc (h.mono (List.subset_cons_self _ _)) fun e he => hu e (List.mem_append_left _ he)
  unknown := fun kind children hgapless =>
    absurd (Node.mem_nodes_self _) (hgapless.noUnknown kind children)
  failed := fun _ found e _ hu =>
    absurd (List.mem_append_right found (List.mem_singleton_self _)) (hu e)
  slowed := fun _ _ _ hpos hc h hu => (hc h hu).slow hpos
  reported := fun _ _ _ hc h hu => hc h fun e he => hu e (List.mem_append_left _ he)

end Compilation

namespace Config

/--
**No leaf is heard twice at once, and without stacks and silence no time is left out.**
The haps that answer a question about a span with extent and come from one leaf are in order
of time and do not overlap, if the leaves have different places.  In a tree without stacks
that holds of all haps together.  If moreover it has no rest, no node of an unknown kind and
no pattern node without children, and nothing in it fails, the parts of the haps tile the
span.
-/
theorem haps_compile_inOrder (config : Config) (tree : Node) {q : Query}
    (hq : q.span.start < q.span.stop) :
    (tree.leafPlaces.Nodup → ∀ place,
      ((q.haps (config.compile tree).pattern).filter fun h => h.source == place).Pairwise
        fun h k => h.part.stop ≤ k.part.start) ∧
    ((∀ children, Node.stack children ∉ tree.nodes) →
      (q.haps (config.compile tree).pattern).Pairwise
        fun h k => h.part.stop ≤ k.part.start) ∧
    ((∀ children, Node.stack children ∉ tree.nodes) →
      (∀ options location, Node.scalar Value.rest options location ∉ tree.nodes) →
      (∀ kind children, Node.unknown kind children ∉ tree.nodes) →
      (∀ alignment, Node.pattern alignment [] ∉ tree.nodes) →
      (∀ e, Diagnostic.subtreeFailed e ∉ (config.compile tree).diagnostics) →
      Span.Tiles q.span.start ((q.haps (config.compile tree).pattern).map (·.part))
        q.span.stop) := by
  refine ⟨fun hnodup place => ?_, fun hstackless => ?_, ?_⟩
  · have hleaf := ((Compilation.closed_inOrder_place place).compile config tree).2 hnodup
    rw [hleaf.filter_haps q hq]
    exact hleaf.ordered q.span hq
  · have hall := Compilation.closed_inOrder.compile config tree hstackless
    rw [hall.haps_eq_query q hq, ← Pattern.queryFrom_true]
    exact hall.ordered q.span hq
  · intro hstackless hrest hunknown hempty hunfailing
    have hall := Compilation.closed_inOrder.compile config tree hstackless
    rw [hall.haps_eq_query q hq]
    exact Compilation.closed_fills.compile config tree ⟨hstackless, hrest, hunknown, hempty⟩
      hunfailing q.span hq

/-- An event of three halves of a cycle beside a sequence of three, asked for across
several cycles. -/
theorem haps_compile_inOrder_slowed :
    let letter (s : String) (place : Nat) : Node :=
      .scalar (.text s) none (some ⟨place, place + 1⟩)
    let tree := Node.sequence [.stretch (3 / 2) (some (letter "a" 0)),
      .group (Node.sequence [letter "b" 1, letter "c" 2, letter "d" 3]) none none]
    let q := Query.arc ⟨-1 / 4, 7 / 3⟩
    q.span.start < q.span.stop ∧ tree.leafPlaces.Nodup ∧
      (∀ children, Node.stack children ∉ tree.nodes) ∧
      (∀ options location, Node.scalar Value.rest options location ∉ tree.nodes) ∧
      (∀ kind children, Node.unknown kind children ∉ tree.nodes) ∧
      (∀ alignment, Node.pattern alignment [] ∉ tree.nodes) ∧
      (∀ e, Diagnostic.subtreeFailed e ∉ (Config.default.compile tree).diagnostics) ∧
      (∀ place, ((q.haps (Config.default.compile tree).pattern).filter
          fun h => h.source == place).Pairwise fun h k => h.part.stop ≤ k.part.start) ∧
      (q.haps (Config.default.compile tree).pattern).Pairwise
        (fun h k => h.part.stop ≤ k.part.start) ∧
      Span.Tiles q.span.start ((q.haps (Config.default.compile tree).pattern).map (·.part))
        q.span.stop := by
  intro letter tree q
  have hq : q.span.start < q.span.stop := by norm_num [q, Query.span]
  have hnodup : tree.leafPlaces.Nodup := by decide +kernel
  have hstackless : ∀ children, Node.stack children ∉ tree.nodes := by
    simp [tree, letter, Node.stack, Node.sequence, Node.nodes, nodesOfAll]
  have hrest : ∀ options location, Node.scalar Value.rest options location ∉ tree.nodes := by
    simp [tree, letter, Node.sequence, Node.nodes, nodesOfAll, Value.rest]
  have hunknown : ∀ kind children, Node.unknown kind children ∉ tree.nodes := by
    simp [tree, letter, Node.sequence, Node.nodes, nodesOfAll]
  have hempty : ∀ alignment, Node.pattern alignment [] ∉ tree.nodes := by
    simp [tree, letter, Node.sequence, Node.nodes, nodesOfAll]
  have hunfailing : ∀ e, Diagnostic.subtreeFailed e
      ∉ (Config.default.compile tree).diagnostics := by
    have hnone : (Config.default.compile tree).diagnostics = [] := by decide +kernel
    simp [hnone]
  obtain ⟨hleaf, hall, hfill⟩ := haps_compile_inOrder Config.default tree hq
  exact ⟨hq, hnodup, hstackless, hrest, hunknown, hempty, hunfailing, hleaf hnodup,
    hall hstackless, hfill hstackless hrest hunknown hempty hunfailing⟩

end Config

end CyclePatterns

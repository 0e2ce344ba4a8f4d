/-
A cycle of a compiled tree.

Asked for one cycle, the pattern of an evenly stretched tree answers with the events of
the tree's layout, each once and whole, in the order in which they start.  Nothing of how
the answer is found shows in it: not that a sequence is its children in turn played fast,
nor that a child is asked about a cycle with another number than its parent.
-/
import CyclePatterns.Proofs.Layout.Tree
import Mathlib.Data.Rat.Lemmas

namespace CyclePatterns

/-! ### Stretching by one over a whole number -/

theorem den_one_div {k : Nat} (hk : 0 < k) : (1 / (k : Rat)).den = k := by
  rw [one_div]
  exact Rat.inv_natCast_den_of_pos hk

/-- An evenly stretched child is slowed down until it fits its copies. -/
theorem StretchedEvenly.decorated_eq {options : Option Options} (h : StretchedEvenly options)
    (score : Score) :
    (Score.decorated score options).map Prod.fst
      = .ok (score.slow (1 / (copies options : Rat))) := by
  by_cases hstretch : ∃ o, options.bind (·.operator) = some o ∧ o.kind = "stretch"
  · obtain ⟨o, hop, hkind⟩ := hstretch
    obtain ⟨k, hk, hamount⟩ := h o hop hkind
    have hcopies : copies options = k := by
      simp only [copies, hop, if_pos hkind, hamount, Option.elim_some, den_one_div hk]
    have hpos : (0 : Rat) < 1 / (k : Rat) := one_div_pos.mpr (Nat.cast_pos.mpr hk)
    rw [hcopies, Score.decorated_of_stretch hop hkind]
    simp only [Score.stretch, hamount, if_pos hpos]
  · have hnot : ∀ o, options.bind (·.operator) = some o → o.kind ≠ "stretch" :=
      fun o hop hkind => hstretch ⟨o, hop, hkind⟩
    have hcopies : copies options = 1 := by
      unfold copies
      split
      · rename_i o hop
        exact if_neg (hnot o hop)
      · rfl
    rw [hcopies, Nat.cast_one, div_one, Pattern.slow_one]
    exact Score.decorated_of_not_stretch hnot score

/-! ### Compiling keeps the layout -/

theorem Compilation.plays_slot {options : Option Options} (h : StretchedEvenly options)
    {result : Except CompileError Compilation} {c : Compilation} (hresult : result = .ok c)
    {layout : Layout Value} {d : Nat} (hplays : c.pattern.Plays layout d)
    (hmov : layout.Movable) :
    (Compilation.slot options result).pattern.Plays (layout.repeated (copies options))
      (copies options * d) := by
  obtain ⟨⟨score, found⟩, hdecorated, rfl⟩ := ok_of_map_eq_ok (h.decorated_eq c.pattern)
  simp only [hresult, Compilation.slot, hdecorated]
  exact hplays.slow hmov (copies_pos options)

namespace Node

/-- Slots that play the layouts of the children make a pattern that plays the layout of
the whole. -/
theorem plays_combine {alignment : Alignment} {children : List Node}
    {slot : Node → Compilation}
    (h : ∀ child ∈ children, (slot child).pattern.Plays
      (child.layout.repeated (copies child.options)) (slotDivisions children)) :
    (Compilation.combine alignment (children.map slot)).pattern.Plays
      (pattern alignment children).layout (pattern alignment children).divisions := by
  have hpatterns : (children.map slot).map (·.pattern)
      = children.map fun child => (slot child).pattern := List.map_map
  have hmov : ∀ child ∈ children, (child.layout.repeated (copies child.options)).Movable :=
    fun child _ => Layout.movable_repeated child.movable_layout _
  have hpos : 0 < slotDivisions children := slotDivisions_pos fun child _ => child.divisions_pos
  cases alignment with
  | horizontal =>
      simp only [Compilation.combine, hpatterns, layout, divisions, slotLayouts_eq_map]
      exact Pattern.Plays.fastcat hpos hmov h
  | vertical =>
      simp only [Compilation.combine, hpatterns, layout, divisions, slotLayouts_eq_map]
      exact (Pattern.Plays.stack h).mono (Nat.le_mul_of_pos_left _ (by omega))

/-- **An evenly stretched tree compiles to a pattern that plays its layout.** -/
theorem Even.compileAt_plays (config : Config) {n : Node} (h : n.Even) :
    ∀ depth, depth + n.height ≤ config.maxDepth →
      ∃ c, n.compileAt config depth = .ok c ∧ c.pattern.Plays n.layout n.divisions := by
  induction h with
  | @pattern alignment children hchildren hoptions ih =>
      intro depth hdepth
      rw [height] at hdepth
      refine ⟨_, compileAt_pattern alignment children (by omega), plays_combine ?_⟩
      intro child hchild
      have hheight := height_lt_slotHeight hchild
      obtain ⟨c, hc, hplays⟩ := ih child hchild (depth + 1) (by omega)
      have hslot := Compilation.plays_slot (hoptions child hchild) hc hplays child.movable_layout
      exact hslot.mono (divisions_le_slotDivisions hchild)
  | scalar value options location =>
      intro depth hdepth
      refine ⟨_, compileAt_scalar value options location (by omega), ?_⟩
      rw [layout]
      split
      · exact Pattern.plays_silence _
      · exact Pattern.plays_pure value location _
  | group options location hchild ih =>
      intro depth hdepth
      rw [height] at hdepth
      rw [compileAt_group _ _ _ (by omega)]
      exact ih (depth + 1) (by omega)
  | @stretch amount k child hk hamount hchild ih =>
      intro depth hdepth
      rw [height] at hdepth
      obtain ⟨c, hc, hplays⟩ := ih (depth + 1) (by omega)
      subst hamount
      have hpos : (0 : Rat) < 1 / (k : Rat) := one_div_pos.mpr (Nat.cast_pos.mpr hk)
      refine ⟨c.slow (1 / (k : Rat)), ?_, ?_⟩
      · rw [compileAt_stretch child (by omega) hpos, hc]
        rfl
      · rw [layout, divisions, den_one_div hk]
        exact hplays.slow child.movable_layout hk

end Node

/-! ### One cycle -/

namespace Pattern

variable {ρ α : Type}

/-- The answer for a cycle has the haps of the query, in order of their starts. -/
theorem queryCycle_perm (c : Int) (p : Pattern ρ α) :
    (p.queryCycle c).Perm (p.query (Span.cycle c)) :=
  List.mergeSort_perm _ _

theorem queryCycle_sorted (c : Int) (p : Pattern ρ α) :
    (p.queryCycle c).Pairwise fun h k => h.part.start ≤ k.part.start := by
  have htrans : ∀ h k l : Hap α, decide (h.part.start ≤ k.part.start) = true →
      decide (k.part.start ≤ l.part.start) = true →
      decide (h.part.start ≤ l.part.start) = true := by
    intro h k l hhk hkl
    exact decide_eq_true (le_trans (of_decide_eq_true hhk) (of_decide_eq_true hkl))
  have htotal : ∀ h k : Hap α,
      (decide (h.part.start ≤ k.part.start) || decide (k.part.start ≤ h.part.start)) = true := by
    intro h k
    rw [Bool.or_eq_true, decide_eq_true_iff, decide_eq_true_iff]
    exact le_total _ _
  exact (List.pairwise_mergeSort htrans htotal _).imp of_decide_eq_true

end Pattern

namespace Config

/--
**A cycle of an evenly stretched tree holds the events of its layout, in order.**  The
tree has to fit into the greatest depth, and the divisions of the cycle have to be
counted exactly.
-/
theorem queryCycle_compile_layout (config : Config) {tree : Node} (heven : tree.Even)
    (hdepth : tree.height ≤ config.maxDepth) {c : Int}
    (hreach : (c.natAbs + 1) * tree.divisions ≤ 2 ^ 53) :
    ((config.compile tree).pattern.queryCycle c).Perm (tree.layout (Span.cycle c)) ∧
      ((config.compile tree).pattern.queryCycle c).Pairwise
        fun h k => h.part.start ≤ k.part.start := by
  refine ⟨?_, Pattern.queryCycle_sorted c _⟩
  obtain ⟨compilation, hcompile, hplays⟩ :=
    heven.compileAt_plays config 0 (by omega)
  have hpattern : (config.compile tree).pattern = compilation.pattern := by
    rw [compile, tryCompile, hcompile]
    rfl
  rw [hpattern]
  exact (Pattern.queryCycle_perm c _).trans (hplays.cycle hreach)

/-- A stretched child before a stretched stack, in a cycle before zero. -/
theorem queryCycle_compile_layout_nested :
    let letter (s : String) : Node := .scalar (.text s) none none
    let thirds : Options := { Options.empty with operator := some (.stretch (1 / 3)) }
    let tree := Node.sequence [.stretch (1 / 2) (some (letter "a")),
      .group (Node.stack [letter "b", Node.rest]) (some thirds) none]
    tree.Even ∧ tree.height ≤ Config.default.maxDepth ∧
      ((-2 : Int).natAbs + 1) * tree.divisions ≤ 2 ^ 53 ∧
      ((Config.default.compile tree).pattern.queryCycle (-2)).Perm
        (tree.layout (Span.cycle (-2))) ∧
      ((Config.default.compile tree).pattern.queryCycle (-2)).Pairwise
        fun h k => h.part.start ≤ k.part.start := by
  intro letter thirds tree
  have hhalf : (Node.stretch (1 / 2) (some (letter "a"))).Even :=
    .stretch (by omega : 0 < 2) (by norm_num) (.scalar _ _ _)
  have hstack : (Node.stack [letter "b", Node.rest]).Even := by
    refine .pattern _ ?_ ?_
    · simp [letter, Node.rest, Node.Even.scalar]
    · simp [letter, Node.rest, Node.options, stretchedEvenly_none]
  have hthirds : StretchedEvenly (some thirds) := by
    rintro o ⟨⟩ _
    exact ⟨3, by omega, by norm_num [Operator.stretch]⟩
  have heven : tree.Even := by
    refine .pattern _ ?_ ?_
    · simp only [List.forall_mem_cons]
      exact ⟨hhalf, .group _ _ hstack, List.forall_mem_nil _⟩
    · simp [Node.options, stretchedEvenly_none, hthirds]
  have hdepth : tree.height ≤ Config.default.maxDepth := by decide +kernel
  have hreach : ((-2 : Int).natAbs + 1) * tree.divisions ≤ 2 ^ 53 := by decide +kernel
  exact ⟨heven, hdepth, hreach, queryCycle_compile_layout Config.default heven hdepth hreach⟩

/--
Two trees that are not played as one might read them.  A stretch on an element that is
no child of a pattern node has no effect.  And a pattern node without children bounds no
cycle if it counts as zero: three thirds of this cycle are more than a double can count.
-/
theorem queryCycle_compile_undivided :
    (let thirds : Options := { Options.empty with operator := some (.stretch (1 / 3)) }
      let tree := Node.stretch (1 / 2) (some (.scalar (.text "c") (some thirds) none))
      ((0 : Int).natAbs + 1) * (2 * 3) ≤ 2 ^ 53 ∧
        ¬ ((Config.default.compile tree).pattern.queryCycle 0).Perm
          (Layout.repeated 2 (Layout.repeated 3 (Layout.event (.text "c") none))
            (Span.cycle 0))) ∧
    (let children := [Node.scalar (.text "a") none none, .scalar (.text "b") none none,
        Node.sequence []]
      let c : Int := 3002399751580331
      (c.natAbs + 1) * (children.length * ([] : List Node).length) ≤ 2 ^ 53 ∧
        ¬ ((Config.default.compile (Node.sequence children)).pattern.queryCycle c).Perm
          ((Node.sequence children).layout (Span.cycle c))) := by
  constructor
  · intro thirds tree
    refine ⟨by decide, fun hperm => ?_⟩
    have hlength := ((Pattern.queryCycle_perm 0 _).symm.trans hperm).length_eq
    revert hlength
    decide +kernel
  · intro children c
    refine ⟨by decide, fun hperm => ?_⟩
    have hfirst : (⟨some ((Span.cycle c).part 3 0), (Span.cycle c).part 3 0, .text "a", none⟩ :
        Hap Value) ∈ (Node.sequence children).layout (Span.cycle c) := by
      decide +kernel
    have hquery := (Pattern.queryCycle_perm c _).mem_iff.mp (hperm.mem_iff.mpr hfirst)
    revert hquery
    decide +kernel

end Config

end CyclePatterns

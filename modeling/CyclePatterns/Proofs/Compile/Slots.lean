/-
What happens in one slot of a pattern node.

Compiling reads the children of a pattern node one by one and never looks at a sibling.  So a
child that fails is the same as a rest, a leaf that is made a rest takes its own haps along
and nothing else, and the diagnostics of a pattern node are those of its children in order.

The first two are one statement about contexts: if two nodes at the same place have the same
haps, except for some that come from places found nowhere else, then so have the trees
around them.
-/
import CyclePatterns.Proofs.Compile.Related
import CyclePatterns.Proofs.Compile.Tiling
import CyclePatterns.Proofs.Pattern.Kept
import CyclePatterns.Proofs.Tree.Context

namespace CyclePatterns

variable {keep : Option SourceSpan → Bool}

/-! ### Outcomes that differ by some haps -/

/-- Both outcomes are failures, or the second has those haps of the first that come from
places to be kept. -/
inductive KeptOutcome (keep : Option SourceSpan → Bool) :
    Except CompileError Compilation → Except CompileError Compilation → Prop
  | ok {c d : Compilation} (h : Pattern.Kept keep c.pattern d.pattern) :
      KeptOutcome keep (.ok c) (.ok d)
  | error (e e' : CompileError) : KeptOutcome keep (.error e) (.error e')

namespace KeptOutcome

variable {r r' : Except CompileError Compilation}

theorem map (h : KeptOutcome keep r r') {f : Compilation → Compilation}
    (hf : ∀ c d : Compilation, Pattern.Kept keep c.pattern d.pattern →
      Pattern.Kept keep (f c).pattern (f d).pattern) : KeptOutcome keep (r.map f) (r'.map f) := by
  cases h with
  | ok h => exact .ok (hf _ _ h)
  | error e e' => exact .error e e'

theorem orSilenced (h : KeptOutcome keep r r') :
    Pattern.Kept keep (Compilation.orSilenced r).pattern (Compilation.orSilenced r').pattern := by
  cases h with
  | ok h => exact h
  | error e e' => exact Pattern.kept_silence

/-- The same options do the same to both. -/
theorem slot (h : KeptOutcome keep r r') (options : Option Options) :
    Pattern.Kept keep (Compilation.slot options r).pattern
      (Compilation.slot options r').pattern := by
  cases h with
  | error e e' => exact Pattern.kept_silence
  | ok h => exact Compilation.related_slot Pattern.lasting_kept h options

end KeptOutcome

namespace Compilation

variable {Q : Value → Option SourceSpan → Prop}

/-- Options make no haps up. -/
theorem carries_slot {r : Except CompileError Compilation}
    (h : ∀ c, r = .ok c → c.pattern.Carries Q) (options : Option Options) :
    (slot options r).pattern.Carries Q := by
  cases r with
  | error e => exact Pattern.carries_silence
  | ok c =>
      have hc := h c rfl
      simp only [slot]
      rcases Score.decorated_cases options with ⟨e, he⟩ | ⟨found, he⟩ | ⟨amount, found, -, he⟩
      · rw [he]
        exact Pattern.carries_silence
      · rw [he]
        exact hc
      · rw [he]
        exact hc.slow amount

theorem kept_onScale {c d : Compilation} (h : Pattern.Kept keep c.pattern d.pattern)
    (config : Config) (name : String) :
    Pattern.Kept keep (c.onScale config name).pattern (d.onScale config name).pattern := by
  unfold onScale
  dsimp only
  split
  · exact h.mapReporting _
  · exact h

theorem kept_combine (alignment : Alignment) {slots slots' : List Compilation}
    (h : List.Forall₂ (fun c d => Pattern.Kept keep c.pattern d.pattern) slots slots') :
    Pattern.Kept keep (combine alignment slots).pattern (combine alignment slots').pattern :=
  related_combine Pattern.lasting_kept alignment h

end Compilation

/-! ### Nodes at the same place -/

/-- What stands in the slot of a node at a depth. -/
def Node.slotAt (config : Config) (depth : Nat) (n : Node) : Compilation :=
  Compilation.slot n.options (n.compileAt config depth)

/-- Two nodes at a depth that differ by haps that are not to be kept, whether they stand in
a slot or not. -/
structure Node.KeptAt (keep : Option SourceSpan → Bool) (config : Config) (depth : Nat)
    (n m : Node) : Prop where
  outcome : KeptOutcome keep (n.compileAt config depth) (m.compileAt config depth)
  slot : Pattern.Kept keep (n.slotAt config depth).pattern (m.slotAt config depth).pattern

namespace Node

variable {config : Config} {depth : Nat} {n m : Node}

theorem keptAt_of_options (hoptions : n.options = m.options)
    (h : KeptOutcome keep (n.compileAt config depth) (m.compileAt config depth)) :
    KeptAt keep config depth n m := by
  refine ⟨h, ?_⟩
  rw [slotAt, slotAt, hoptions]
  exact h.slot m.options

/-- A node is the same as itself if none of its leaves is to be left out. -/
theorem keptAt_self (h : ∀ place ∈ n.leafPlaces, keep place = true) :
    KeptAt keep config depth n n := by
  refine keptAt_of_options rfl ?_
  cases hc : n.compileAt config depth with
  | error e => exact .error e e
  | ok c =>
      refine .ok (Pattern.Carries.kept ?_)
      exact (Compilation.closed_carries_places.compileAt config n depth c hc).mono
        fun _ place hplace => h place hplace

/-- In a slot it matters only what stands there, not whether it is a failure. -/
theorem keptAt_pattern {alignment : Alignment} {before after : List Node}
    (hbefore : ∀ place ∈ before.flatMap leafPlaces, keep place = true)
    (hafter : ∀ place ∈ after.flatMap leafPlaces, keep place = true)
    (h : Pattern.Kept keep (n.slotAt config (depth + 1)).pattern
      (m.slotAt config (depth + 1)).pattern) :
    KeptAt keep config depth (pattern alignment (before ++ n :: after))
      (pattern alignment (before ++ m :: after)) := by
  have hself : ∀ ns : List Node, (∀ place ∈ ns.flatMap leafPlaces, keep place = true) →
      List.Forall₂ (fun c d : Compilation => Pattern.Kept keep c.pattern d.pattern)
        (ns.map (slotAt config (depth + 1))) (ns.map (slotAt config (depth + 1))) := by
    intro ns hns
    rw [List.forall₂_map_left_iff, List.forall₂_map_right_iff, List.forall₂_same]
    intro sibling hsibling
    exact (keptAt_self fun place hplace =>
      hns place (List.mem_flatMap.mpr ⟨sibling, hsibling, hplace⟩)).slot
  refine keptAt_of_options rfl ?_
  refine compileAt_both (fun _ => .error _ _) fun hdepth => ?_
  rw [compileAt_pattern _ _ hdepth, compileAt_pattern _ _ hdepth]
  refine .ok (Compilation.kept_combine alignment ?_)
  rw [List.map_append, List.map_append, List.map_cons, List.map_cons]
  exact List.rel_append (hself before hbefore) (.cons h (hself after hafter))

end Node

/-- **What two nodes differ by is what the trees around them differ by.** -/
theorem Context.keptAt_fill {config : Config} {n m : Node} (C : Context)
    (hbeside : ∀ place ∈ C.leafPlaces, keep place = true) :
    ∀ {depth : Nat}, Node.KeptAt keep config (depth + C.depth) n m →
      Node.KeptAt keep config depth (C.fill n) (C.fill m) := by
  induction C with
  | hole => exact fun h => h
  | pattern alignment before inside after ih =>
      intro depth h
      simp only [leafPlaces, List.mem_append] at hbeside
      refine Node.keptAt_pattern (fun place hplace => hbeside place (Or.inl hplace))
        (fun place hplace => hbeside place (Or.inr (Or.inr hplace))) ?_
      refine (ih (fun place hplace => hbeside place (Or.inr (Or.inl hplace))) ?_).slot
      rwa [Nat.add_right_comm]
  | group inside options location ih =>
      intro depth h
      refine Node.keptAt_of_options rfl ?_
      refine Node.compileAt_both (fun _ => .error _ _) fun hdepth => ?_
      rw [fill, fill, Node.compileAt_group _ _ _ hdepth, Node.compileAt_group _ _ _ hdepth]
      exact (ih hbeside (by rwa [Nat.add_right_comm])).outcome
  | stretch amount inside ih =>
      intro depth h
      refine Node.keptAt_of_options rfl ?_
      refine Node.compileAt_both (fun _ => .error _ _) fun hdepth => ?_
      by_cases hpos : 0 < amount
      · rw [fill, fill, Node.compileAt_stretch _ hdepth hpos,
          Node.compileAt_stretch _ hdepth hpos]
        exact (ih hbeside (by rwa [Nat.add_right_comm])).outcome.map fun _ _ h => h.slow amount
      · rw [fill, fill, Node.compileAt_stretch_of_nonpos _ hdepth (Rat.not_lt.mp hpos),
          Node.compileAt_stretch_of_nonpos _ hdepth (Rat.not_lt.mp hpos)]
        exact .error _ _
  | scale name inside ih =>
      intro depth h
      refine Node.keptAt_of_options rfl ?_
      refine Node.compileAt_both (fun _ => .error _ _) fun hdepth => ?_
      rw [fill, fill, Node.compileAt_scale _ _ hdepth, Node.compileAt_scale _ _ hdepth]
      exact (ih hbeside (by rwa [Nat.add_right_comm])).outcome.map
        fun _ _ h => Compilation.kept_onScale h config name
  | unknown kind before inside after ih =>
      intro depth h
      refine Node.keptAt_of_options rfl ?_
      refine Node.compileAt_both (fun _ => .error _ _) fun hdepth => ?_
      rw [fill, fill, Node.compileAt_unknown _ _ hdepth, Node.compileAt_unknown _ _ hdepth]
      exact .ok Pattern.kept_silence

/-- Answers differ as the trees do. -/
theorem Node.KeptAt.haps_compile {config : Config} {tree tree' : Node}
    (h : KeptAt keep config 0 tree tree') (q : Query) :
    q.haps (config.compile tree').pattern
      = (q.haps (config.compile tree).pattern).filter fun h => keep h.source := by
  have hkept : Pattern.Kept keep (config.compile tree).pattern (config.compile tree').pattern :=
    h.outcome.orSilenced
  rw [Query.haps_eq_arrange, Query.haps_eq_arrange, Query.filter_arrange, hkept q.span]
  rfl

/-! ### Rests in place of nodes -/

namespace Node

variable {config : Config} {depth : Nat} {n : Node}

/-- The node has no pattern at the depth, or its options cannot be applied to it. -/
def Fails (config : Config) (depth : Nat) (n : Node) : Prop :=
  (∃ e, n.compileAt config depth = .error e) ∨
    ∃ c e, n.compileAt config depth = .ok c ∧ Score.decorated c.pattern n.options = .error e

theorem Fails.slotAt_pattern (h : n.Fails config depth) :
    (n.slotAt config depth).pattern = Pattern.silence := by
  rcases h with ⟨e, he⟩ | ⟨c, e, hc, he⟩
  · rw [slotAt, he]
    rfl
  · simp only [slotAt, hc, Compilation.slot, he]

/-- Nothing sounds where a rest stands. -/
theorem carries_slotAt_rest (options : Option Options) (location : Option SourceSpan) :
    ((scalar Value.rest options location).slotAt config depth).pattern.Carries
      fun _ _ => False := by
  refine Compilation.carries_slot (fun c hc => ?_) _
  rw [compileAt_scalar _ _ _ (le_of_compileAt hc)] at hc
  rw [← Except.ok.inj hc]
  exact Pattern.carries_silence

/-- A child that fails is the same as a rest. -/
theorem Fails.keptAt_rest (h : n.Fails config (depth + 1)) (alignment : Alignment)
    (before after : List Node) :
    KeptAt (fun _ => true) config depth (pattern alignment (before ++ n :: after))
      (pattern alignment (before ++ rest :: after)) := by
  refine keptAt_pattern (fun _ _ => rfl) (fun _ _ => rfl) ?_
  rw [h.slotAt_pattern]
  exact Pattern.Carries.kept_of_silent Pattern.carries_silence (carries_slotAt_rest none none)

/-- A leaf that is made a rest takes along what comes from its place. -/
theorem keptAt_rest (value : Value) (options options' : Option Options)
    (location location' : Option SourceSpan) :
    KeptAt (· != location) config depth (scalar value options location)
      (scalar Value.rest options' location') where
  outcome := by
    refine compileAt_both (fun _ => .error _ _) fun hdepth => ?_
    rw [compileAt_scalar _ _ _ hdepth, compileAt_scalar _ _ _ hdepth]
    refine .ok (Pattern.Carries.kept_of_silent ?_ Pattern.carries_silence)
    dsimp only
    split
    · exact Pattern.carries_silence
    · exact Pattern.carries_pure (bne_self_eq_false location)
  slot := by
    refine Pattern.Carries.kept_of_silent ?_ (carries_slotAt_rest options' location')
    refine Compilation.carries_slot (fun c hc => ?_) _
    refine (Compilation.closed_carries_places.compileAt config _ depth c hc).mono ?_
    intro _ place hplace
    rw [List.mem_singleton.mp hplace]
    exact bne_self_eq_false location

/-! ### Diagnostics by position -/

/-- What there is to report on a node in a slot: first what was found in the node, then what
was found about its options, or the one failure of either. -/
def slotFindings (config : Config) (depth : Nat) (n : Node) : List Diagnostic :=
  match n.compileAt config depth with
  | .error e => [.subtreeFailed e]
  | .ok c => c.diagnostics ++
    match Score.decorated c.pattern n.options with
    | .ok (_, found) => found
    | .error e => [.subtreeFailed e]

theorem diagnostics_slotAt (n : Node) :
    (n.slotAt config depth).diagnostics = n.slotFindings config depth := by
  unfold slotAt slotFindings Compilation.slot
  cases n.compileAt config depth with
  | error e => rfl
  | ok c =>
      dsimp only
      cases Score.decorated c.pattern n.options with
      | error e => rfl
      | ok r => rfl

end Node

namespace Config

/--
**The slots of a pattern node do not know of each other.**  Wherever in a tree the pattern
node stands, a child that fails is the same as a rest.  A leaf that is made a rest, with
whatever options and location, takes along the haps from its place and no others, and leaves
those in their order, if the leaves have different places.  And a pattern node reports what
there is to report on its children, each on its own, in their order.
-/
theorem slots_independent (config : Config) :
    (∀ (C : Context) (alignment : Alignment) (before : List Node) (child : Node)
        (after : List Node), child.Fails config (C.depth + 1) → ∀ q : Query,
      q.haps (config.compile (C.fill (.pattern alignment (before ++ child :: after)))).pattern
        = q.haps (config.compile
            (C.fill (.pattern alignment (before ++ Node.rest :: after)))).pattern) ∧
    (∀ (C : Context) (value : Value) (options options' : Option Options)
        (location location' : Option SourceSpan),
      (C.fill (.scalar value options location)).leafPlaces.Nodup → ∀ q : Query,
      q.haps (config.compile (C.fill (.scalar Value.rest options' location'))).pattern
        = (q.haps (config.compile (C.fill (.scalar value options location))).pattern).filter
            fun h => h.source != location) ∧
    (∀ (depth : Nat) (alignment : Alignment) (children : List Node), depth ≤ config.maxDepth →
      ∃ c, (Node.pattern alignment children).compileAt config depth = .ok c ∧
        c.diagnostics = children.flatMap (Node.slotFindings config (depth + 1))) := by
  refine ⟨?_, ?_, ?_⟩
  · intro C alignment before child after hfails q
    have hrest := hfails.keptAt_rest alignment before after
    rw [← Nat.zero_add C.depth] at hrest
    rw [(C.keptAt_fill (fun _ _ => rfl) hrest).haps_compile q, List.filter_true]
  · intro C value options options' location location' hnodup q
    have hsplit := (C.leafPlaces_fill (.scalar value options location)).nodup_iff.mp hnodup
    refine (C.keptAt_fill (fun place hplace => ?_)
      (Node.keptAt_rest value options options' location location')).haps_compile q
    -- The place of the leaf is no place beside it.
    rw [bne_iff_ne]
    rintro rfl
    exact (List.nodup_cons.mp hsplit).1 hplace
  · intro depth alignment children hdepth
    refine ⟨_, Node.compileAt_pattern alignment children hdepth, ?_⟩
    simp only [Compilation.combine, List.flatMap_map]
    exact List.flatMap_congr fun child _ => child.diagnostics_slotAt

/-- A slot inside a slowed group, where a stretch lacks its amount, where a leaf falls
silent, and where both stand side by side. -/
theorem slots_independent_in_slowed_group :
    let letter (s : String) (place : Nat) : Node :=
      .scalar (.text s) none (some ⟨place, place + 1⟩)
    let C : Context := .pattern .horizontal [letter "a" 0]
      (.group (.stretch (3 / 2) .hole) none none) [letter "b" 1]
    let failing : Node :=
      .scalar (.text "d") (some { Options.empty with operator := some ⟨"stretch", none⟩ }) none
    let q := Query.cycle (-2)
    failing.Fails Config.default (C.depth + 1) ∧
      (C.fill (letter "c" 2)).leafPlaces.Nodup ∧ C.depth ≤ Config.default.maxDepth ∧
      q.haps (Config.default.compile
          (C.fill (.pattern .vertical ([letter "c" 2] ++ failing :: [])))).pattern
        = q.haps (Config.default.compile
            (C.fill (.pattern .vertical ([letter "c" 2] ++ Node.rest :: [])))).pattern ∧
      q.haps (Config.default.compile (C.fill (.scalar Value.rest none none))).pattern
        = (q.haps (Config.default.compile (C.fill (letter "c" 2))).pattern).filter
            (fun h => h.source != some ⟨2, 3⟩) ∧
      ∃ c, (Node.sequence [letter "c" 2, failing]).compileAt Config.default C.depth = .ok c ∧
        c.diagnostics = [letter "c" 2, failing].flatMap
          (Node.slotFindings Config.default (C.depth + 1)) := by
  intro letter C failing q
  have hfails : failing.Fails Config.default (C.depth + 1) := by
    refine Or.inr ⟨⟨Pattern.pure (.text "d") none, []⟩, .missingArgument "stretch" "amount", ?_, rfl⟩
    exact Node.compileAt_scalar _ _ _ (by decide)
  have hnodup : (C.fill (letter "c" 2)).leafPlaces.Nodup := by decide +kernel
  have hdepth : C.depth ≤ Config.default.maxDepth := by decide
  obtain ⟨hfailing, hsilent, hfindings⟩ := slots_independent Config.default
  exact ⟨hfails, hnodup, hdepth, hfailing C .vertical _ failing [] hfails q,
    hsilent C (.text "c") none none (some ⟨2, 3⟩) none hnodup q,
    hfindings C.depth .horizontal _ hdepth⟩

end Config

end CyclePatterns

/-
Scales account for every hap.

A hap that is found under a scale goes back to the value of a leaf.  The scale makes it the
text of a pitch, or leaves it as it is, and in that case has one thing to say about it.  So all
there is to know of a hap is its origin: the value of the leaf and the scale above it.  For
every tree in which scales are known and do not stand below each other there is one pattern of
origins, and the haps, the values and the reports of the tree are read off it.  No options, no
stretch and no sequence or stack comes between a hap and what is reported on it.
-/
import CyclePatterns.Proofs.Compile.Alike
import CyclePatterns.Proofs.Compile.Tiling
import CyclePatterns.Proofs.Pattern.Mapped
import CyclePatterns.Proofs.Tree.Relabelled

namespace CyclePatterns

/-! ### Origins -/

/-- The pitch that a value names as a step of a scale, if the scale is known. -/
def Scale.pitch? (config : Config) (name : String) (v : Value) : Option Pitch := do
  let intervals ← (Scale.intervals (Scale.tokenize name).2).toOption
  let step ← v.asNumber?
  Scale.stepToPitch ((Scale.tokenize name).1.getD config.defaultTonic) intervals step

/-- Where the value of a hap comes from. -/
structure Origin where
  /-- The name of the scale that the leaf stands under. -/
  scale : Option String
  /-- The value of the leaf. -/
  raw : Value
deriving DecidableEq, Repr

namespace Origin

/-- The pitch that the value is mapped to. -/
def pitch? (config : Config) (o : Origin) : Option Pitch :=
  o.scale.bind fun name => Scale.pitch? config name o.raw

/-- The value that is heard: the text of the pitch, or the value of the leaf. -/
def heard (config : Config) (o : Origin) : Value :=
  match o.pitch? config with
  | some p => .text p.name
  | none => o.raw

/-- What there is to report on a value that stands under a scale and is left unmapped. -/
def finding? (config : Config) (o : Origin) : Option Diagnostic :=
  if o.scale = none ∨ (o.pitch? config).isSome then none
  else if o.raw.asNumber? = none then some (.nonNumericScaleStep o.raw.display)
  else some (.scaleStepOutOfRange o.raw.display)

/-- What there is to hear and to report of an origin at a place in the tree.  Below the scale it
is not yet mapped. -/
def seen (config : Config) (above : Option String) (o : Origin) : Value × List Diagnostic :=
  match above with
  | none => (o.heard config, (o.finding? config).toList)
  | some _ => (o.raw, [])

/-- Without a scale there is nothing to map and nothing to report. -/
theorem seen_leaf (config : Config) (above : Option String) (v : Value) :
    seen config above ⟨above, v⟩ = (v, []) := by
  cases above <;> rfl

end Origin

/-- A known scale maps a value and reports on it as its origin says. -/
theorem Scale.mapValue_eq_seen {config : Config} {name : String} {intervals : List Interval}
    (h : Scale.intervals (Scale.tokenize name).2 = .ok intervals) (v : Value) :
    Scale.mapValue ((Scale.tokenize name).1.getD config.defaultTonic) intervals v
      = Origin.seen config none ⟨some name, v⟩ := by
  have hpitch : Origin.pitch? config ⟨some name, v⟩ = v.asNumber?.bind fun step =>
      Scale.stepToPitch ((Scale.tokenize name).1.getD config.defaultTonic) intervals step := by
    rw [Origin.pitch?, Option.bind_some, Scale.pitch?, h]
    rfl
  rw [Scale.mapValue, Origin.seen, Origin.heard, Origin.finding?, hpitch]
  generalize (Scale.tokenize name).1.getD config.defaultTonic = tonic
  cases v.asNumber? with
  | none => rfl
  | some step =>
      rw [Option.bind_some]
      rcases Option.eq_none_or_eq_some (Scale.stepToPitch tonic intervals step) with hp | ⟨p, hp⟩
      · simp [hp]
      · simp [hp]

/-! ### Scores of outcomes -/

namespace Compilation

/-- The score of an outcome that is no failure. -/
def score? (r : Except CompileError Compilation) : Option Score :=
  r.toOption.map (·.pattern)

theorem score?_map {f : Compilation → Compilation} {g : Score → Score}
    (h : ∀ c, (f c).pattern = g c.pattern) (r : Except CompileError Compilation) :
    score? (r.map f) = (score? r).map g := by
  cases r with
  | error e => rfl
  | ok c => exact congrArg some (h c)

theorem pattern_orSilenced (r : Except CompileError Compilation) :
    (orSilenced r).pattern = (score? r).getD Pattern.silence := by
  cases r <;> rfl

end Compilation

/-- How much slower options make what stands in a slot.  By nothing it is silenced. -/
def Options.slowing (options : Option Options) : Rat :=
  match (stretch? options).map (·.amount) with
  | none => 1
  | some none => 0
  | some (some amount) => if 0 < amount then amount else 0

namespace Pattern

variable {ρ α β : Type} {ps : List (Pattern ρ α)}

theorem quiet_joined (alignment : Alignment) (h : ∀ p ∈ ps, p.Quiet) :
    (joined alignment ps).Quiet := by
  cases alignment with
  | horizontal => exact quiet_fastcat h
  | vertical => exact quiet_stack h

theorem mapReporting_joined (alignment : Alignment) (h : ∀ p ∈ ps, p.Quiet)
    (f : α → β × List ρ) :
    (joined alignment ps).mapReporting f = joined alignment (ps.map (mapReporting f)) := by
  cases alignment with
  | horizontal => exact mapReporting_fastcat (.inr h)
  | vertical => exact mapReporting_stack (.inr h)

end Pattern

namespace Compilation

/-- A slot plays what stands in it, slowed down as the options say. -/
theorem pattern_slot_eq_slow (options : Option Options) (r : Except CompileError Compilation) :
    (slot options r).pattern
      = ((score? r).getD Pattern.silence).slow (Options.slowing options) := by
  cases r with
  | error e => exact (Pattern.slow_silence _).symm
  | ok c =>
      rw [pattern_slot, Options.slowing]
      cases Options.stretch? options with
      | none => exact (Pattern.slow_one _).symm
      | some o =>
          simp only [Option.map_some, Score.stretch, score?, Except.toOption, Option.getD_some]
          cases o.amount with
          | none => exact (Pattern.slow_zero _).symm
          | some amount =>
              by_cases hpos : 0 < amount
              · simp only [if_pos hpos]
              · simp only [if_neg hpos]
                exact (Pattern.slow_zero _).symm

theorem pattern_combine (alignment : Alignment) (slots : List Compilation) :
    (combine alignment slots).pattern = Pattern.joined alignment (slots.map (·.pattern)) := by
  cases alignment <;> rfl

end Compilation

/-! ### The origins of the haps of a node -/

/-- A pattern of origins. -/
abbrev Origins := Pattern Diagnostic Origin

namespace Origins

/-- What stands in a slot, by its origins. -/
def slot (options : Option Options) (origins : Option Origins) : Origins :=
  (origins.getD Pattern.silence).slow (Options.slowing options)

variable {origins : Option Origins}

theorem quiet_slot (options : Option Options) (h : ∀ o ∈ origins, o.Quiet) :
    (slot options origins).Quiet := by
  cases origins with
  | none => exact Pattern.quiet_silence.slow _
  | some o => exact (h o rfl).slow _

theorem carries_slot (options : Option Options) {Q : Origin → Option SourceSpan → Prop}
    (h : ∀ o ∈ origins, o.Carries Q) : (slot options origins).Carries Q := by
  cases origins with
  | none => exact Pattern.carries_silence.slow _
  | some o => exact (h o rfl).slow _

end Origins

namespace Node

/-- The node fails at a depth, or its score is the pattern of origins as it is seen in one way. -/
def Sees (config : Config) (depth : Nat) (see : Origin → Value × List Diagnostic) (n : Node)
    (origins : Option Origins) : Prop :=
  Compilation.score? (n.compileAt config depth) = origins.map (Pattern.mapReporting see)

/-- The haps of a node and of the node relabelled have the same origins, and those below a scale
stand under that scale. -/
structure Traced (config : Config) (above : Option String) (depth : Nat) (n : Node)
    (origins : Option Origins) : Prop where
  quiet : ∀ o ∈ origins, o.Quiet
  under : ∀ o ∈ origins, ∀ name, above = some name →
    o.Carries fun origin _ => origin.scale = some name
  heard : n.Sees config depth (Origin.seen config above) origins
  relabelled : ∀ f : Option String → Value → Value,
    (∀ above value, value ≠ Value.rest → f above value ≠ Value.rest) →
    (n.relabelled f above).Sees config depth (fun o => (f o.scale o.raw, [])) origins

/-- Scales in the tree are known and do not stand below each other, or below a scale further up. -/
def Suits (above : Option String) (n : Node) : Prop :=
  ∀ name child, scale name child ∈ n.nodes →
    above = none ∧ (Scale.intervals (Scale.tokenize name).2).isOk = true ∧
      ∀ c, child = some c → c.Unscaled

variable {config : Config} {above : Option String} {depth : Nat} {n : Node}
  {see : Origin → Value × List Diagnostic} {origins : Option Origins}

theorem Suits.mono {m : Node} (h : n.Suits above) (hsub : m.nodes ⊆ n.nodes) : m.Suits above :=
  fun name child hmem => h name child (hsub hmem)

/-! ### One way to see a node -/

theorem sees_pattern (alignment : Alignment) {children : List Node} (tr : Node → Node)
    {origin : Node → Option Origins} (hdepth : depth ≤ config.maxDepth)
    (hoptions : ∀ child, (tr child).options = child.options)
    (hquiet : ∀ child ∈ children, ∀ o ∈ origin child, o.Quiet)
    (h : ∀ child ∈ children, (tr child).Sees config (depth + 1) see (origin child)) :
    (pattern alignment (children.map tr)).Sees config depth see
      (some (Pattern.joined alignment
        (children.map fun child => Origins.slot child.options (origin child)))) := by
  have hslots : ∀ p ∈ children.map fun child => Origins.slot child.options (origin child),
      p.Quiet :=
    List.forall_mem_map.mpr fun child hchild => Origins.quiet_slot _ (hquiet child hchild)
  rw [Sees, compileAt_pattern _ _ hdepth]
  refine congrArg some ((Compilation.pattern_combine alignment _).trans ?_)
  rw [Pattern.mapReporting_joined alignment hslots, List.map_map, List.map_map, List.map_map]
  refine congrArg _ (List.map_congr_left fun child hchild => ?_)
  simp only [Function.comp_apply]
  rw [Compilation.pattern_slot_eq_slow, h child hchild, hoptions, Origins.slot,
    Pattern.mapReporting_slow]
  cases origin child <;> rfl

theorem Sees.group {child : Node} (h : child.Sees config (depth + 1) see origins)
    (hdepth : depth ≤ config.maxDepth) (options : Option Options)
    (location : Option SourceSpan) :
    (group child options location).Sees config depth see origins := by
  rw [Sees, compileAt_group _ _ _ hdepth]
  exact h

theorem Sees.stretch {child : Node} (h : child.Sees config (depth + 1) see origins)
    (hdepth : depth ≤ config.maxDepth) {amount : Rat} (hpos : 0 < amount) :
    (stretch amount (some child)).Sees config depth see (origins.map (Pattern.slow amount)) := by
  rw [Sees, compileAt_stretch _ hdepth hpos,
    Compilation.score?_map (g := Pattern.slow amount) (fun _ => rfl), h, Option.map_map,
    Option.map_map]
  exact congrArg (fun g => origins.map g)
    (funext fun o => (Pattern.mapReporting_slow see amount o).symm)

theorem sees_scalar {value value' : Value} (options : Option Options)
    (location : Option SourceSpan) (hdepth : depth ≤ config.maxDepth)
    (hrest : value'.isRest = value.isRest)
    (hsee : value.isRest = false → see ⟨above, value⟩ = (value', [])) :
    (scalar value' options location).Sees config depth see
      (some (if value.isRest then Pattern.silence
        else Pattern.pure ⟨above, value⟩ location)) := by
  rw [Sees, compileAt_scalar _ _ _ hdepth, hrest]
  refine congrArg some ?_
  cases hvalue : value.isRest with
  | true => rfl
  | false =>
      have hsee := hsee hvalue
      have hquiet : (see ⟨above, value⟩).2 = [] := congrArg Prod.snd hsee
      simp only [Bool.false_eq_true, if_false]
      rw [Pattern.mapReporting_pure see hquiet, hsee]

/-! ### All nodes have origins -/

theorem traced_failed (h : ∃ e, n.compileAt config depth = .error e)
    (hrelabelled : ∀ f, ∃ e, (n.relabelled f above).compileAt config depth = .error e) :
    Traced config above depth n none where
  quiet _ ho := nomatch ho
  under _ ho := nomatch ho
  heard := by
    obtain ⟨e, he⟩ := h
    rw [Sees, he]
    rfl
  relabelled f _ := by
    obtain ⟨e, he⟩ := hrelabelled f
    rw [Sees, he]
    rfl

/-- A node that is too deep has no origins. -/
theorem exists_traced_of_le
    (h : depth ≤ config.maxDepth → ∃ origins, Traced config above depth n origins) :
    ∃ origins, Traced config above depth n origins := by
  rcases Nat.lt_or_ge config.maxDepth depth with hdeep | hdepth
  · exact ⟨none, traced_failed ⟨_, compileAt_too_deep n hdeep⟩
      fun f => ⟨_, compileAt_too_deep _ hdeep⟩⟩
  · exact h hdepth

theorem traced_pattern (alignment : Alignment) {children : List Node}
    {origin : Node → Option Origins} (hdepth : depth ≤ config.maxDepth)
    (h : ∀ child ∈ children, Traced config above (depth + 1) child (origin child)) :
    Traced config above depth (pattern alignment children)
      (some (Pattern.joined alignment
        (children.map fun child => Origins.slot child.options (origin child)))) where
  quiet o ho := by
    obtain rfl := Option.some.inj ho
    exact Pattern.quiet_joined alignment (List.forall_mem_map.mpr fun child hchild =>
      Origins.quiet_slot _ (h child hchild).quiet)
  under o ho name habove := by
    obtain rfl := Option.some.inj ho
    exact Pattern.carries_joined alignment (List.forall_mem_map.mpr fun child hchild =>
      Origins.carries_slot _ fun o ho => (h child hchild).under o ho name habove)
  heard := by
    have hsees := sees_pattern alignment id hdepth (fun _ => rfl)
      (fun child hchild => (h child hchild).quiet) fun child hchild => (h child hchild).heard
    rwa [List.map_id] at hsees
  relabelled f hf := by
    rw [relabelled_pattern]
    exact sees_pattern alignment (relabelled f above) hdepth options_relabelled
      (fun child hchild => (h child hchild).quiet)
      fun child hchild => (h child hchild).relabelled f hf

theorem traced_scalar (value : Value) (options : Option Options) (location : Option SourceSpan)
    (hdepth : depth ≤ config.maxDepth) :
    Traced config above depth (scalar value options location)
      (some (if value.isRest then Pattern.silence else Pattern.pure ⟨above, value⟩ location)) where
  quiet o ho := by
    obtain rfl := Option.some.inj ho
    split
    · exact Pattern.quiet_silence
    · exact Pattern.quiet_pure _ _
  under o ho name habove := by
    obtain rfl := Option.some.inj ho
    split
    · exact Pattern.carries_silence
    · exact Pattern.carries_pure habove
  heard := sees_scalar options location hdepth rfl fun _ => Origin.seen_leaf config above value
  relabelled f hf := by
    rw [relabelled]
    refine sees_scalar options location hdepth ?_ fun hrest => ?_
    · split
      · rfl
      · rename_i hrest
        have hvalue : value ≠ Value.rest := by simpa [Value.isRest] using hrest
        simpa [Value.isRest, hvalue] using hf above value hvalue
    · rw [hrest]
      rfl

theorem traced_unknown (kind : String) (children : List Node) (hdepth : depth ≤ config.maxDepth) :
    Traced config above depth (unknown kind children) (some Pattern.silence) where
  quiet o ho := Option.some.inj ho ▸ Pattern.quiet_silence
  under o ho _ _ := Option.some.inj ho ▸ Pattern.carries_silence
  heard := by
    rw [Sees, compileAt_unknown _ _ hdepth]
    rfl
  relabelled f _ := by
    rw [Sees, relabelled, compileAt_unknown _ _ hdepth]
    rfl

theorem Traced.slow {child : Node} (h : Traced config above (depth + 1) child origins)
    (hdepth : depth ≤ config.maxDepth) {amount : Rat} (hpos : 0 < amount) :
    Traced config above depth (stretch amount (some child))
      (origins.map (Pattern.slow amount)) where
  quiet slowed hslowed := by
    obtain ⟨o, ho, rfl⟩ := Option.mem_map.mp hslowed
    exact (h.quiet o ho).slow amount
  under slowed hslowed name habove := by
    obtain ⟨o, ho, rfl⟩ := Option.mem_map.mp hslowed
    exact (h.under o ho name habove).slow amount
  heard := h.heard.stretch hdepth hpos
  relabelled f hf := (h.relabelled f hf).stretch hdepth hpos

/-- Above the scale the values are mapped that were not mapped below it. -/
theorem Traced.scale {child : Node} {name : String}
    (h : Traced config (some name) (depth + 1) child origins) (hdepth : depth ≤ config.maxDepth)
    (hknown : (Scale.intervals (Scale.tokenize name).2).isOk = true) :
    Traced config none depth (scale name (some child)) origins where
  quiet := h.quiet
  under _ _ _ habove := nomatch habove
  heard := by
    obtain ⟨intervals, hintervals⟩ := exists_of_isOk hknown
    have hscale (c : Compilation) : (c.onScale config name).pattern
        = c.pattern.mapReporting fun v => Origin.seen config none ⟨some name, v⟩ := by
      rw [← funext (Scale.mapValue_eq_seen hintervals)]
      unfold Compilation.onScale
      dsimp only
      rw [hintervals]
    rw [Sees, compileAt_scale _ _ hdepth, Compilation.score?_map hscale, h.heard]
    cases origins with
    | none => rfl
    | some o =>
        -- Every origin below stands under this scale, so the scale maps each as it is to be heard.
        refine congrArg some ((Pattern.mapReporting_mapReporting Origin.raw _).trans ?_)
        refine Pattern.mapReporting_congr ((h.under o rfl name rfl).mono fun origin _ hunder => ?_)
        rw [← hunder]
  relabelled f hf := (h.relabelled f hf).group hdepth none none

/-- **The haps of every node have origins**, which the node hands on whatever is done to the
values of its leaves. -/
theorem exists_traced (n : Node) :
    ∀ {above depth}, n.Suits above → ∃ origins, Traced config above depth n origins := by
  induction n using Node.induction with
  | pattern alignment children ih =>
      intro above depth hsuits
      refine exists_traced_of_le fun hdepth => ?_
      have hchildren : ∀ child, child ∈ children →
          ∃ origins, Traced config above (depth + 1) child origins := fun child hchild =>
        ih child hchild (hsuits.mono (nodes_subset_of_mem hchild))
      -- The children are traced one by one, and each keeps the slot that its options give it.
      choose! origin horigin using hchildren
      exact ⟨_, traced_pattern alignment hdepth horigin⟩
  | scalar value options location =>
      intro above depth hsuits
      exact exists_traced_of_le fun hdepth => ⟨_, traced_scalar value options location hdepth⟩
  | group child options location ih =>
      intro above depth hsuits
      refine exists_traced_of_le fun hdepth => ?_
      obtain ⟨origins, h⟩ := ih (hsuits.mono (List.subset_cons_self _ _))
      exact ⟨origins, h.quiet, h.under, h.heard.group hdepth options location,
        fun f hf => (h.relabelled f hf).group hdepth options location⟩
  | stretch amount child ih =>
      intro above depth hsuits
      refine exists_traced_of_le fun hdepth => ?_
      cases child with
      | none =>
          exact ⟨none, traced_failed ⟨_, compileAt_stretch_none amount hdepth⟩
            fun f => ⟨_, compileAt_stretch_none amount hdepth⟩⟩
      | some child =>
          by_cases hpos : 0 < amount
          · obtain ⟨origins, h⟩ := ih child rfl (hsuits.mono (List.subset_cons_self _ _))
            exact ⟨_, h.slow hdepth hpos⟩
          · have hpos := Rat.not_lt.mp hpos
            exact ⟨none, traced_failed ⟨_, compileAt_stretch_of_nonpos child hdepth hpos⟩
              fun f => ⟨_, compileAt_stretch_of_nonpos _ hdepth hpos⟩⟩
  | scale name child ih =>
      intro above depth hsuits
      refine exists_traced_of_le fun hdepth => ?_
      cases child with
      | none =>
          exact ⟨none, traced_failed ⟨_, compileAt_scale_none name hdepth⟩
            fun f => ⟨_, compileAt_scale_none name hdepth⟩⟩
      | some child =>
          obtain ⟨rfl, hknown, hunscaled⟩ := hsuits name (some child) List.mem_cons_self
          have hchild : child.Suits (some name) := fun name' child' hmem =>
            absurd hmem (hunscaled child rfl name' child')
          obtain ⟨origins, h⟩ := ih child rfl hchild
          exact ⟨origins, h.scale hdepth hknown⟩
  | unknown kind children ih =>
      intro above depth hsuits
      exact exists_traced_of_le fun hdepth => ⟨_, traced_unknown kind children hdepth⟩

end Node

namespace Config

/--
**Scales account for every hap.**  In a tree whose scales are known and do not stand below each
other every hap has an origin.  The origins are those of the tree: to give the leaves other
values, made from what they had and from the scale above them, is to give other values to the
origins, and so the tree without its scales has the haps with the values of the leaves.  The
tree itself has those haps at the same times and places and in the same order, with the text of
the pitch for its value where the value is under a scale and names a pitch of it, and with the
value of the leaf where not.  And a query reports, in the order in which haps are found, each
value that is under a scale and names no pitch, once for each hap, and nothing else.
-/
theorem scales_accounted (config : Config) {tree : Node} (honce : tree.ScaledOnce)
    (hknown : tree.ScalesKnown) :
    ∃ origins : Origins,
      (∀ f : Option String → Value → Value,
        (∀ above value, value ≠ Value.rest → f above value ≠ Value.rest) → ∀ q : Query,
        q.haps (config.compile (tree.relabelled f none)).pattern
          = (q.haps origins).map (Hap.map fun o => f o.scale o.raw)) ∧
      ∀ q : Query,
        q.haps (config.compile tree.unscaled).pattern = (q.haps origins).map (Hap.map Origin.raw) ∧
        q.haps (config.compile tree).pattern
          = (q.haps origins).map (Hap.map (Origin.heard config)) ∧
        q.reports (config.compile tree).pattern
          = (origins.query q.span).filterMap fun h => h.value.finding? config := by
  have hsuits : tree.Suits none := fun name child hmem =>
    ⟨rfl, hknown name child hmem, fun c hc => honce name c (hc ▸ hmem)⟩
  obtain ⟨origins, h⟩ : ∃ origins, Node.Traced config none 0 tree origins :=
    tree.exists_traced hsuits
  have hpattern {n : Node} {see : Origin → Value × List Diagnostic}
      (hsees : n.Sees config 0 see origins) :
      (config.compile n).pattern = (origins.getD Pattern.silence).mapReporting see := by
    rw [compile, Compilation.pattern_orSilenced, tryCompile, hsees]
    cases origins <;> rfl
  have hquiet : (origins.getD Pattern.silence).Quiet := by
    cases origins with
    | none => exact Pattern.quiet_silence
    | some o => exact h.quiet o rfl
  have hrelabelled (f : Option String → Value → Value)
      (hf : ∀ above value, value ≠ Value.rest → f above value ≠ Value.rest) (q : Query) :
      q.haps (config.compile (tree.relabelled f none)).pattern
        = (q.haps (origins.getD Pattern.silence)).map (Hap.map fun o => f o.scale o.raw) := by
    rw [hpattern (h.relabelled f hf), Query.haps_mapReporting]
  refine ⟨origins.getD Pattern.silence, hrelabelled, fun q => ⟨?_, ?_, ?_⟩⟩
  · exact hrelabelled (fun _ value => value) (fun _ _ hvalue => hvalue) q
  · rw [hpattern h.heard, Query.haps_mapReporting]
    rfl
  · rw [hpattern h.heard, Query.reports_mapReporting hquiet, List.filterMap_eq_flatMap_toList]
    rfl

/-- A scale in the second half of each cycle, over one value that it knows and one that it does
not.  The ones that stand under it can be told from the one that does not. -/
theorem scales_accounted_second_half :
    let leaf (s : String) : Node := .scalar (.text s) none none
    let tree : Node :=
      .sequence [leaf "1", .scale "C4 major" (some (.sequence [leaf "2", leaf "x"]))]
    let q := Query.arc ⟨0, 1⟩
    let marked (above : Option String) (v : Value) : Value :=
      if above.isSome then .number (.finite 0) else v
    tree.ScaledOnce ∧ tree.ScalesKnown ∧
      (∀ above value, value ≠ Value.rest → marked above value ≠ Value.rest) ∧
      ∃ origins : Origins,
        q.haps (default.compile (tree.relabelled marked none)).pattern
          = (q.haps origins).map (Hap.map fun o => marked o.scale o.raw) ∧
        q.haps (default.compile tree.unscaled).pattern
          = (q.haps origins).map (Hap.map Origin.raw) ∧
        q.haps (default.compile tree).pattern
          = (q.haps origins).map (Hap.map (Origin.heard default)) ∧
        q.reports (default.compile tree).pattern
          = (origins.query q.span).filterMap fun h => h.value.finding? default := by
  intro leaf tree q marked
  have hchild : (Node.sequence [leaf "2", leaf "x"]).Unscaled := by
    intro name child
    simp [leaf, Node.sequence, Node.nodes, nodesOfAll]
  have hmajor : (Scale.intervals (Scale.tokenize "C4 major").2).isOk = true := by decide +kernel
  obtain ⟨honce, hknown⟩ : tree.ScaledOnce ∧ tree.ScalesKnown := by
    refine Node.scaled_of_only (fun name child hmem => ?_) hchild hmajor
    simpa [tree, leaf, Node.sequence, Node.nodes, nodesOfAll] using hmem
  have hmarked (above : Option String) (value : Value) (hvalue : value ≠ Value.rest) :
      marked above value ≠ Value.rest := by
    cases above with
    | none => exact hvalue
    | some name => simp [marked, Value.rest]
  obtain ⟨origins, hrelabelled, horigins⟩ := scales_accounted default honce hknown
  exact ⟨honce, hknown, hmarked, origins, hrelabelled marked hmarked q, horigins q⟩

/-- Where haps are found out of order the answer for a cycle puts them in order of time, and the
reports stay in the order in which they were found. -/
theorem scales_reported_as_found :
    let leaf (s : String) : Node := .scalar (.text s) none none
    let tree : Node :=
      .scale "C4 major" (some (.stack [.sequence [leaf "0", leaf "x"], leaf "y"]))
    let q := Query.cycle 0
    let values (tree : Node) := (q.haps (default.compile tree).pattern).map (·.value)
    tree.ScaledOnce ∧ tree.ScalesKnown ∧ (default.compile tree).diagnostics = [] ∧
      values tree.unscaled = [.text "0", .text "y", .text "x"] ∧
      values tree = [.text "C4", .text "y", .text "x"] ∧
      q.reports (default.compile tree).pattern
        = [.nonNumericScaleStep "x", .nonNumericScaleStep "y"] := by
  intro leaf tree q values
  have hchild : (Node.stack [.sequence [leaf "0", leaf "x"], leaf "y"]).Unscaled := by
    intro name child
    simp [leaf, Node.stack, Node.sequence, Node.nodes, nodesOfAll]
  have hmajor : (Scale.intervals (Scale.tokenize "C4 major").2).isOk = true := by decide +kernel
  obtain ⟨honce, hknown⟩ : tree.ScaledOnce ∧ tree.ScalesKnown := by
    refine Node.scaled_of_only (fun name child hmem => ?_) hchild hmajor
    simpa [tree, leaf, Node.stack, Node.sequence, Node.nodes, nodesOfAll] using hmem
  let hap (s : Span) (text : String) : Hap Value := ⟨some s, s, .text text, none⟩
  let found (text : String) := [hap ⟨0, 1 / 2⟩ text, hap ⟨1 / 2, 1⟩ "x", hap ⟨0, 1⟩ "y"]
  have hraw : (default.compile tree.unscaled).pattern.query (Span.cycle 0) = found "0" := by
    decide +kernel
  have hheard : (default.compile tree).pattern.query (Span.cycle 0) = found "C4" := by
    decide +kernel
  have hsorted (text : String) :
      (q.arrange (found text)).map (·.value) = [.text text, .text "y", .text "x"] := by
    simp [q, Query.arrange, found, hap, List.mergeSort, List.MergeSort.Internal.splitInTwo]
  refine ⟨honce, hknown, rfl, ?_, ?_, by decide +kernel⟩
  · simp only [values]
    rw [Query.haps_eq_arrange, Query.span, hraw, hsorted]
  · simp only [values]
    rw [Query.haps_eq_arrange, Query.span, hheard, hsorted]

end Config

end CyclePatterns

/-
Trees that differ in what they carry.

The times of the haps of a tree depend on how its nodes are put together and on its stretches,
and on nothing else.  Two trees that agree in that may carry different values, at different
places, under different scales, and have other options; their haps then stand at the same
times, one by one, and are related as the leaves are, as long as the scales respect the
relation.  Also what fails is the same, because nothing that may differ can fail.
-/
import CyclePatterns.Proofs.Compile.Related
import CyclePatterns.Proofs.Pattern.Alike

namespace CyclePatterns

/-! ### What matters of options and scales -/

/-- The operator of an element, if it is a stretch. -/
def Options.stretch? (options : Option Options) : Option Operator :=
  (options.bind (·.operator)).filter (·.kind = "stretch")

open Options (stretch?)

/-- Of the options it matters only which stretch they ask for. -/
theorem Compilation.pattern_slot (options : Option Options) (c : Compilation) :
    (slot options (.ok c)).pattern
      = match stretch? options with
        | none => c.pattern
        | some o => match Score.stretch c.pattern o with
          | .ok score => score
          | .error _ => Pattern.silence := by
  have hslot : (slot options (.ok c)).pattern
      = match (Score.decorated c.pattern options).map Prod.fst with
        | .ok score => score
        | .error _ => Pattern.silence := by
    simp only [slot]
    cases Score.decorated c.pattern options <;> rfl
  rw [hslot]
  cases hop : options.bind (·.operator) with
  | none =>
      have hnot : ∀ o, options.bind (·.operator) = some o → o.kind ≠ "stretch" := by
        intro o ho
        rw [hop] at ho
        cases ho
      rw [Score.decorated_of_not_stretch hnot, stretch?, hop, Option.filter_none]
  | some o =>
      by_cases hkind : o.kind = "stretch"
      · rw [Score.decorated_of_stretch hop hkind, stretch?, hop, Option.filter_some,
          if_pos (decide_eq_true hkind)]
      · have hnot : ∀ o', options.bind (·.operator) = some o' → o'.kind ≠ "stretch" := by
          intro o' ho
          rw [hop] at ho
          exact Option.some.inj ho ▸ hkind
        rw [Score.decorated_of_not_stretch hnot, stretch?, hop, Option.filter_some,
          if_neg (by simpa using hkind)]

/-- What a scale makes of a value; a scale that is not known leaves it as it is. -/
def Scale.valueOn (config : Config) (name : String) (v : Value) : Value :=
  match Scale.intervals (Scale.tokenize name).2 with
  | .ok intervals =>
    (Scale.mapValue ((Scale.tokenize name).1.getD config.defaultTonic) intervals v).1
  | .error _ => v

theorem Compilation.query_onScale (config : Config) (name : String) (c : Compilation) (s : Span) :
    (c.onScale config name).pattern.query s
      = (c.pattern.query s).map (Hap.map (Scale.valueOn config name)) := by
  unfold onScale Scale.valueOn
  dsimp only
  cases Scale.intervals (Scale.tokenize name).2 with
  | ok intervals => rfl
  | error e => exact (List.map_id _).symm

/-! ### Trees that are put together alike -/

/-- The trees are put together in the same way, with the same stretches.  The values and places
of their leaves are related, and so are the names of their scales. -/
inductive Node.Alike (R : CarriedRelation Value) (N : String → String → Prop) : Node → Node → Prop
  | pattern {alignment : Alignment} {children children' : List Node}
      (h : List.Forall₂ (Alike R N) children children') :
      Alike R N (.pattern alignment children) (.pattern alignment children')
  /-- A rest has nothing to carry. -/
  | rest {options options' : Option Options} {location location' : Option SourceSpan}
      (h : stretch? options = stretch? options') :
      Alike R N (.scalar Value.rest options location) (.scalar Value.rest options' location')
  | scalar {value value' : Value} {options options' : Option Options}
      {location location' : Option SourceSpan} (hvalue : value ≠ Value.rest)
      (hvalue' : value' ≠ Value.rest) (hcarried : R value location value' location')
      (h : stretch? options = stretch? options') :
      Alike R N (.scalar value options location) (.scalar value' options' location')
  | group {child child' : Node} {options options' : Option Options}
      {location location' : Option SourceSpan} (hchild : Alike R N child child')
      (h : stretch? options = stretch? options') :
      Alike R N (.group child options location) (.group child' options' location')
  | stretch {amount : Rat} {child child' : Node} (hchild : Alike R N child child') :
      Alike R N (.stretch amount (some child)) (.stretch amount (some child'))
  | emptyStretch {amount : Rat} : Alike R N (.stretch amount none) (.stretch amount none)
  | scale {name name' : String} {child child' : Node} (hname : N name name')
      (hchild : Alike R N child child') :
      Alike R N (.scale name (some child)) (.scale name' (some child'))
  | emptyScale {name name' : String} : Alike R N (.scale name none) (.scale name' none)
  /-- What is below a node without meaning does not matter. -/
  | unknown {kind kind' : String} {children children' : List Node} :
      Alike R N (.unknown kind children) (.unknown kind' children')

variable {R : CarriedRelation Value} {N : String → String → Prop}

/-- Trees that are alike ask for the same stretch. -/
theorem Node.Alike.stretch?_options {n m : Node} (h : n.Alike R N m) :
    stretch? n.options = stretch? m.options := by
  cases h with
  | rest h => exact h
  | scalar hvalue hvalue' hcarried h => exact h
  | group hchild h => exact h
  | _ => rfl

/-! ### Their compilations -/

/-- The scores have haps at the same times, which carry related things. -/
def Score.Alike (R : CarriedRelation Value) (p p' : Score) : Prop :=
  p.Related (List.Forall₂ (Hap.Alike R)) p'

/-- Both are failures, or have scores that are alike. -/
inductive AlikeOutcome (R : CarriedRelation Value) :
    Except CompileError Compilation → Except CompileError Compilation → Prop
  | ok {c c' : Compilation} (h : c.pattern.Alike R c'.pattern) : AlikeOutcome R (.ok c) (.ok c')
  | error (e : CompileError) : AlikeOutcome R (.error e) (.error e)

namespace AlikeOutcome

variable {r r' : Except CompileError Compilation}

theorem map {S : CarriedRelation Value} (h : AlikeOutcome R r r') {f f' : Compilation → Compilation}
    (hf : ∀ c c' : Compilation, c.pattern.Alike R c'.pattern →
      (f c).pattern.Alike S (f' c').pattern) : AlikeOutcome S (r.map f) (r'.map f') := by
  cases h with
  | ok h => exact .ok (hf _ _ h)
  | error e => exact .error e

theorem orSilenced (h : AlikeOutcome R r r') :
    (Compilation.orSilenced r).pattern.Alike R (Compilation.orSilenced r').pattern := by
  cases h with
  | ok h => exact h
  | error e => exact Pattern.related_silence lasting_alike

/-- Options with the same stretch do the same to both. -/
theorem slot (h : AlikeOutcome R r r') {options options' : Option Options}
    (hoptions : stretch? options = stretch? options') :
    (Compilation.slot options r).pattern.Alike R (Compilation.slot options' r').pattern := by
  cases h with
  | error e => exact Pattern.related_silence lasting_alike
  | ok h =>
      rw [Compilation.pattern_slot, Compilation.pattern_slot, hoptions]
      cases stretch? options' with
      | none => exact h
      | some o =>
          simp only [Score.stretch]
          cases o.amount with
          | none => exact Pattern.related_silence lasting_alike
          | some amount =>
              by_cases hpos : 0 < amount
              · simp only [if_pos hpos]
                exact Pattern.Related.slow lasting_alike h amount
              · simp only [if_neg hpos]
                exact Pattern.related_silence lasting_alike

end AlikeOutcome

theorem Compilation.alike_combine (alignment : Alignment) {slots slots' : List Compilation}
    (h : List.Forall₂ (fun c c' => c.pattern.Alike R c'.pattern) slots slots') :
    (combine alignment slots).pattern.Alike R (combine alignment slots').pattern :=
  related_combine lasting_alike alignment h

/-- A scale relates what it makes of related values. -/
theorem Compilation.alike_onScale {S : CarriedRelation Value} {config : Config}
    {name name' : String}
    (hvalue : ∀ v place v' place', R v place v' place' →
      S (Scale.valueOn config name v) place (Scale.valueOn config name' v') place')
    {c c' : Compilation} (h : c.pattern.Alike R c'.pattern) :
    (c.onScale config name).pattern.Alike S (c'.onScale config name').pattern := by
  intro s
  rw [query_onScale, query_onScale, List.forall₂_map_left_iff, List.forall₂_map_right_iff]
  exact (h s).imp fun _ _ halike => halike.map hvalue

/-- Scales with related names make related values of related values. -/
def Scale.Respect (config : Config) (R : CarriedRelation Value) (N : String → String → Prop) :
    Prop :=
  ∀ name name', N name name' → ∀ v place v' place', R v place v' place' →
    R (valueOn config name v) place (valueOn config name' v') place'

section

variable {config : Config} (hscale : Scale.Respect config R N)

include hscale

/-- **Trees that are alike compile to what is alike**, and fail alike. -/
theorem Node.Alike.compileAt {n m : Node} (h : n.Alike R N m) (depth : Nat) :
    AlikeOutcome R (n.compileAt config depth) (m.compileAt config depth) := by
  induction n using Node.induction generalizing m depth with
  | pattern alignment children ih =>
      cases h with
      | pattern hchildren =>
          refine compileAt_both .error fun hdepth => ?_
          rw [compileAt_pattern _ _ hdepth, compileAt_pattern _ _ hdepth]
          refine .ok (Compilation.alike_combine alignment ?_)
          rw [List.forall₂_map_left_iff, List.forall₂_map_right_iff]
          refine ((List.forall₂_and_left _ _).mpr ⟨ih, hchildren⟩).imp ?_
          intro child child' hchild
          exact (hchild.1 hchild.2 (depth + 1)).slot hchild.2.stretch?_options
  | scalar value options location =>
      refine compileAt_both .error fun hdepth => ?_
      rw [compileAt_scalar _ _ _ hdepth]
      cases h with
      | rest hoptions =>
          rw [compileAt_scalar _ _ _ hdepth]
          exact .ok (Pattern.related_silence lasting_alike)
      | scalar hvalue hvalue' hcarried hoptions =>
          rw [compileAt_scalar _ _ _ hdepth, if_neg (by simpa [Value.isRest] using hvalue),
            if_neg (by simpa [Value.isRest] using hvalue')]
          exact .ok (Pattern.related_pure hcarried)
  | group child options location ih =>
      cases h with
      | group hchild hoptions =>
          refine compileAt_both .error fun hdepth => ?_
          rw [compileAt_group _ _ _ hdepth, compileAt_group _ _ _ hdepth]
          exact ih hchild (depth + 1)
  | stretch amount child ih =>
      refine compileAt_both .error fun hdepth => ?_
      cases h with
      | emptyStretch =>
          rw [compileAt_stretch_none _ hdepth]
          exact .error _
      | stretch hchild =>
          by_cases hpos : 0 < amount
          · rw [compileAt_stretch _ hdepth hpos, compileAt_stretch _ hdepth hpos]
            exact (ih _ rfl hchild (depth + 1)).map fun _ _ h => h.slow lasting_alike amount
          · rw [compileAt_stretch_of_nonpos _ hdepth (Rat.not_lt.mp hpos),
              compileAt_stretch_of_nonpos _ hdepth (Rat.not_lt.mp hpos)]
            exact .error _
  | scale name child ih =>
      refine compileAt_both .error fun hdepth => ?_
      cases h with
      | emptyScale =>
          rw [compileAt_scale_none _ hdepth, compileAt_scale_none _ hdepth]
          exact .error _
      | scale hname hchild =>
          rw [compileAt_scale _ _ hdepth, compileAt_scale _ _ hdepth]
          exact (ih _ rfl hchild (depth + 1)).map
            fun _ _ h => Compilation.alike_onScale (hscale _ _ hname) h
  | unknown kind children ih =>
      cases h with
      | unknown =>
          refine compileAt_both .error fun hdepth => ?_
          rw [compileAt_unknown _ _ hdepth, compileAt_unknown _ _ hdepth]
          exact .ok (Pattern.related_silence lasting_alike)

/-- Trees that are alike give answers that are alike. -/
theorem Node.Alike.haps_compile {tree tree' : Node} (h : tree.Alike R N tree') (q : Query) :
    List.Forall₂ (Hap.Alike R) (q.haps (config.compile tree).pattern)
      (q.haps (config.compile tree').pattern) :=
  q.alike_haps (h.compileAt hscale 0).orSilenced

/-- Under scales that relate their values in another way, the answers are alike in that way. -/
theorem Node.Alike.haps_scale {S : CarriedRelation Value} {tree tree' : Node}
    (h : tree.Alike R N tree') {name name' : String}
    (hvalue : ∀ v place v' place', R v place v' place' →
      S (Scale.valueOn config name v) place (Scale.valueOn config name' v') place') (q : Query) :
    List.Forall₂ (Hap.Alike S) (q.haps (config.compile (.scale name (some tree))).pattern)
      (q.haps (config.compile (.scale name' (some tree'))).pattern) := by
  refine q.alike_haps (AlikeOutcome.orSilenced ?_)
  refine compileAt_both .error fun hdepth => ?_
  rw [compileAt_scale _ _ hdepth, compileAt_scale _ _ hdepth]
  exact (h.compileAt hscale 1).map fun _ _ h => Compilation.alike_onScale hvalue h

end

/-! ### What decides when something plays -/

/-- The trees differ at most in the values of leaves that are no rests, in the names of scales,
and in options other than a stretch. -/
def Node.SameTimes : Node → Node → Prop :=
  Node.Alike (fun _ place _ place' => place = place') fun _ _ => True

/-- The trees differ at most in options other than a stretch. -/
def Node.SameSound : Node → Node → Prop :=
  Node.Alike (fun v place v' place' => v = v' ∧ place = place') fun name name' => name = name'

namespace Config

/--
**Times do not depend on values, scales and options without meaning.**  Two trees that differ
in nothing else give, whatever they are asked, as many haps in the same order, and at every
position the haps have the same whole, the same part and the same place.  Where also the values
and the scales are the same, so are the haps.
-/
theorem times_independent (config : Config) (q : Query) :
    (∀ tree tree' : Node, tree.SameTimes tree' →
      List.Forall₂ (fun h k => h.whole = k.whole ∧ h.part = k.part ∧ h.source = k.source)
        (q.haps (config.compile tree).pattern) (q.haps (config.compile tree').pattern)) ∧
    (∀ tree tree' : Node, tree.SameSound tree' →
      q.haps (config.compile tree).pattern = q.haps (config.compile tree').pattern) := by
  constructor
  · intro tree tree' h
    have hscale : Scale.Respect config (fun _ place _ place' => place = place') fun _ _ => True :=
      fun _ _ _ _ _ _ _ hplace => hplace
    exact (h.haps_compile hscale q).imp fun _ _ halike =>
      ⟨halike.whole, halike.part, halike.carried⟩
  · intro tree tree' h
    have hscale : Scale.Respect config (fun v place v' place' => v = v' ∧ place = place')
        fun name name' => name = name' := by
      rintro name _ rfl v place _ _ ⟨rfl, rfl⟩
      exact ⟨rfl, rfl⟩
    refine List.forall₂_eq_eq_eq ▸ (h.haps_compile hscale q).imp fun hap hap' halike => ?_
    cases hap
    cases hap'
    obtain ⟨hwhole, hpart, hvalue, hsource⟩ := halike
    simp only at hwhole hpart hvalue hsource
    rw [hwhole, hpart, hvalue, hsource]

/-- A step under a known scale and a word under an unknown one, next to a rest, in a group that
is slowed down and weighed or replicated. -/
theorem times_independent_slowed_weighed :
    let place : SourceSpan := ⟨1, 2⟩
    let tree (name word : String) (options : Options) : Node :=
      .sequence [.group (.scale name (some (.sequence [.scalar (.text word) (some options) place,
        .scalar Value.rest (some options) none])))
          (some { options with operator := some (.stretch (3 / 2)) }) none]
    let weighed : Options := { Options.empty with weight := some 2 }
    let degraded : Options := { Options.empty with operator := some ⟨"degrade", none⟩, reps := some 3 }
    let answer (n : Node) : List (Hap Value) :=
      (Query.arc ⟨-1 / 3, 5 / 4⟩).haps (Config.default.compile n).pattern
    (tree "C:major" "1" weighed).SameTimes (tree "nowhere" "bd" degraded) ∧
      List.Forall₂ (fun h k => h.whole = k.whole ∧ h.part = k.part ∧ h.source = k.source)
        (answer (tree "C:major" "1" weighed)) (answer (tree "nowhere" "bd" degraded)) ∧
      (tree "C:major" "1" weighed).SameSound (tree "C:major" "1" degraded) ∧
      answer (tree "C:major" "1" weighed) = answer (tree "C:major" "1" degraded) := by
  intro place tree weighed degraded answer
  have halike : ∀ (R : CarriedRelation Value) (N : String → String → Prop)
      (name name' word word' : String), N name name' → word ≠ "~" → word' ≠ "~" →
      R (.text word) place (.text word') place →
      (tree name word weighed).Alike R N (tree name' word' degraded) := by
    intro R N name name' word word' hname hword hword' hcarried
    have hvalue : Value.text word ≠ Value.rest := fun h => hword (Value.text.inj h)
    have hvalue' : Value.text word' ≠ Value.rest := fun h => hword' (Value.text.inj h)
    refine .pattern (.cons (.group (.scale hname (.pattern ?_)) rfl) .nil)
    exact .cons (.scalar hvalue hvalue' hcarried rfl) (.cons (.rest rfl) .nil)
  have htimes : (tree "C:major" "1" weighed).SameTimes (tree "nowhere" "bd" degraded) :=
    halike _ _ _ _ _ _ trivial (by decide) (by decide) rfl
  have hsound : (tree "C:major" "1" weighed).SameSound (tree "C:major" "1" degraded) :=
    halike _ _ _ _ _ _ rfl (by decide) (by decide) ⟨rfl, rfl⟩
  obtain ⟨htwice, hequal⟩ := times_independent Config.default (Query.arc ⟨-1 / 3, 5 / 4⟩)
  exact ⟨htimes, htwice _ _ htimes, hsound, hequal _ _ hsound⟩

end Config

end CyclePatterns

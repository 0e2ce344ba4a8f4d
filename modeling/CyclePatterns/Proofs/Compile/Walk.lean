/-
What compiling does at a node.

`Node.compileAt` tests the depth first and then does one thing for each kind of node.
The equations below say what, so that no later proof has to open the definition, and
`Node.induction` is the induction that goes with them: the children of a pattern node
all at once, the one child of any other node if it has one.

`Compilation.Closed` names the relations between nodes and compilations that everything
compiling does keeps.  Such a relation holds between every node and what it compiles to,
whatever fails in it.  `Score.Closed` is the case where the node does not matter.
-/
import CyclePatterns.Compile.Compilation
import CyclePatterns.Proofs.Outcome

namespace CyclePatterns

/-! ### Induction over a tree -/

/-- A property of all children carries over to a node. -/
theorem Node.induction {motive : Node → Prop}
    (pattern : ∀ alignment children, (∀ child ∈ children, motive child) →
      motive (.pattern alignment children))
    (scalar : ∀ value options location, motive (.scalar value options location))
    (group : ∀ child options location, motive child → motive (.group child options location))
    (stretch : ∀ amount child, (∀ c, child = some c → motive c) → motive (.stretch amount child))
    (scale : ∀ name child, (∀ c, child = some c → motive c) → motive (.scale name child))
    (unknown : ∀ kind children, (∀ child ∈ children, motive child) →
      motive (.unknown kind children)) (n : Node) : motive n := by
  refine Node.rec (motive_1 := motive) (motive_2 := fun ns => ∀ n ∈ ns, motive n)
    (motive_3 := fun n? => ∀ n, n? = some n → motive n) pattern scalar group stretch scale unknown
    ?_ ?_ ?_ ?_ n
  · intro n hn
    exact absurd hn List.not_mem_nil
  · intro n ns hn hns m hm
    rcases List.mem_cons.mp hm with rfl | hm
    · exact hn
    · exact hns m hm
  · intro n hn
    cases hn
  · intro n hn m hm
    exact Option.some.inj hm ▸ hn

/-! ### One equation for each kind of node -/

theorem compileSlots_eq_map (config : Config) (depth : Nat) (children : List Node) :
    compileSlots config depth children
      = children.map fun child =>
          Compilation.slot child.options (child.compileAt config depth) := by
  induction children with
  | nil => rfl
  | cons child rest ih => rw [compileSlots, ih, List.map_cons]

namespace Node

variable {config : Config} {depth : Nat}

theorem compileAt_too_deep (n : Node) (h : config.maxDepth < depth) :
    n.compileAt config depth = .error (.maxDepthExceeded config.maxDepth) := by
  rw [compileAt.eq_def, if_pos h]

/-- What a node that is not too deep does. -/
theorem compileAt_of_le (n : Node) (h : depth ≤ config.maxDepth) :
    n.compileAt config depth = match n with
      | pattern alignment children =>
        .ok (Compilation.combine alignment (compileSlots config (depth + 1) children))
      | scalar value _ location =>
        .ok ⟨if value.isRest then Pattern.silence else Pattern.pure value location, []⟩
      | group child _ _ => child.compileAt config (depth + 1)
      | stretch _ none => .error (.missingChild "stretch")
      | stretch amount (some child) =>
        if amount ≤ 0 then .error (.invalidStretchAmount amount)
        else (child.compileAt config (depth + 1)).map (Compilation.slow amount)
      | scale _ none => .error (.missingChild "scale")
      | scale name (some child) =>
        (child.compileAt config (depth + 1)).map (Compilation.onScale config name)
      | unknown kind _ => .ok ⟨Pattern.silence, [.unknownNodeKind kind]⟩ := by
  rw [compileAt.eq_def]
  exact if_neg (Nat.not_lt.mpr h)

/-- Of two nodes at one depth both are too deep or none is. -/
theorem compileAt_both {n m : Node}
    {P : Except CompileError Compilation → Except CompileError Compilation → Prop}
    (hdeep : ∀ e, P (.error e) (.error e))
    (h : depth ≤ config.maxDepth → P (n.compileAt config depth) (m.compileAt config depth)) :
    P (n.compileAt config depth) (m.compileAt config depth) := by
  rcases Nat.lt_or_ge config.maxDepth depth with hlt | hle
  · rw [compileAt_too_deep n hlt, compileAt_too_deep m hlt]
    exact hdeep _
  · exact h hle

/-- Only a node that is not too deep has a compilation. -/
theorem le_of_compileAt {n : Node} {c : Compilation} (h : n.compileAt config depth = .ok c) :
    depth ≤ config.maxDepth := by
  refine Nat.le_of_not_lt fun hdeep => ?_
  rw [compileAt_too_deep n hdeep] at h
  cases h

theorem compileAt_pattern (alignment : Alignment) (children : List Node)
    (h : depth ≤ config.maxDepth) :
    (pattern alignment children).compileAt config depth
      = .ok (Compilation.combine alignment (children.map fun child =>
          Compilation.slot child.options (child.compileAt config (depth + 1)))) := by
  rw [compileAt_of_le _ h]
  simp only [compileSlots_eq_map]

theorem compileAt_scalar (value : Value) (options : Option Options)
    (location : Option SourceSpan) (h : depth ≤ config.maxDepth) :
    (scalar value options location).compileAt config depth
      = .ok ⟨if value.isRest then Pattern.silence else Pattern.pure value location, []⟩ := by
  rw [compileAt_of_le _ h]

theorem compileAt_group (child : Node) (options : Option Options)
    (location : Option SourceSpan) (h : depth ≤ config.maxDepth) :
    (group child options location).compileAt config depth
      = child.compileAt config (depth + 1) := by
  rw [compileAt_of_le _ h]

theorem compileAt_stretch {amount : Rat} (child : Node) (h : depth ≤ config.maxDepth)
    (hpos : 0 < amount) :
    (stretch amount (some child)).compileAt config depth
      = (child.compileAt config (depth + 1)).map (Compilation.slow amount) := by
  rw [compileAt_of_le _ h]
  exact if_neg (Rat.not_le.mpr hpos)

theorem compileAt_stretch_of_nonpos {amount : Rat} (child : Node) (h : depth ≤ config.maxDepth)
    (hpos : amount ≤ 0) :
    (stretch amount (some child)).compileAt config depth
      = .error (.invalidStretchAmount amount) := by
  rw [compileAt_of_le _ h]
  exact if_pos hpos

theorem compileAt_stretch_none (amount : Rat) (h : depth ≤ config.maxDepth) :
    (stretch amount none).compileAt config depth = .error (.missingChild "stretch") := by
  rw [compileAt_of_le _ h]

theorem compileAt_scale (name : String) (child : Node) (h : depth ≤ config.maxDepth) :
    (scale name (some child)).compileAt config depth
      = (child.compileAt config (depth + 1)).map (Compilation.onScale config name) := by
  rw [compileAt_of_le _ h]

theorem compileAt_scale_none (name : String) (h : depth ≤ config.maxDepth) :
    (scale name none).compileAt config depth = .error (.missingChild "scale") := by
  rw [compileAt_of_le _ h]

theorem compileAt_unknown (kind : String) (children : List Node)
    (h : depth ≤ config.maxDepth) :
    (unknown kind children).compileAt config depth
      = .ok ⟨Pattern.silence, [.unknownNodeKind kind]⟩ := by
  rw [compileAt_of_le _ h]

end Node

/-! ### What options do -/

namespace Score

/-- The stretch operator is the only one that has a meaning. -/
theorem operator?_eq (kind : String) :
    operator? kind = if kind = "stretch" then some stretch else none := by
  by_cases h : kind = "stretch"
  · subst h
    rfl
  · have hne : (kind == "stretch") = false := beq_false_of_ne h
    simp [operator?, operators, List.lookup_cons, hne, h]

/-- Options without a stretch operator leave a score as it is. -/
theorem decorated_of_not_stretch {options : Option Options}
    (h : ∀ o, options.bind (·.operator) = some o → o.kind ≠ "stretch") (score : Score) :
    (decorated score options).map Prod.fst = .ok score := by
  cases options with
  | none => rfl
  | some options =>
      cases hop : options.operator with
      | none =>
          simp only [decorated, hop]
          rfl
      | some o =>
          have hkind : o.kind ≠ "stretch" := h o hop
          simp only [decorated, hop, operator?_eq, if_neg hkind]
          rfl

/-- Options with a stretch operator do what the operator does. -/
theorem decorated_of_stretch {options : Option Options} {o : Operator}
    (h : options.bind (·.operator) = some o) (hkind : o.kind = "stretch") (score : Score) :
    (decorated score options).map Prod.fst = stretch score o := by
  obtain ⟨options, rfl, hop⟩ := Option.bind_eq_some_iff.mp h
  simp only [decorated, hop, operator?_eq, if_pos hkind]
  cases stretch score o with
  | error e => rfl
  | ok stretched => rfl

/-- The report on options that nothing handles. -/
def unhandled (options : Options) : List Diagnostic :=
  let keys := options.keys.filter fun k => !handledKeys.contains k
  if keys.isEmpty then [] else [.unimplementedOptions keys]

/-- What options do to a score does not depend on the score: they fail, they leave it as it
is, or they slow it down. -/
theorem decorated_cases (options : Option Options) :
    (∃ e, ∀ score, decorated score options = .error e) ∨
    (∃ found, ∀ score, decorated score options = .ok (score, found)) ∨
    (∃ amount found, 0 < amount ∧
      ∀ score, decorated score options = .ok (Pattern.slow amount score, found)) := by
  cases options with
  | none => exact Or.inr (Or.inl ⟨[], fun _ => rfl⟩)
  | some options =>
      cases hop : options.operator with
      | none =>
          refine Or.inr (Or.inl ⟨unhandled options, fun score => ?_⟩)
          simp only [decorated, hop]
          rfl
      | some o =>
          by_cases hkind : o.kind = "stretch"
          · cases hamount : o.amount with
            | none =>
                refine Or.inl ⟨.missingArgument o.kind "amount", fun score => ?_⟩
                simp only [decorated, hop, operator?_eq, if_pos hkind, stretch, hamount]
                rfl
            | some amount =>
                by_cases hpos : 0 < amount
                · refine Or.inr (Or.inr ⟨amount, unhandled options, hpos, fun score => ?_⟩)
                  simp only [decorated, hop, operator?_eq, if_pos hkind, stretch, hamount,
                    if_pos hpos]
                  rfl
                · refine Or.inl ⟨.invalidStretchAmount amount, fun score => ?_⟩
                  simp only [decorated, hop, operator?_eq, if_pos hkind, stretch, hamount,
                    if_neg hpos]
                  rfl
          · refine Or.inr (Or.inl
              ⟨.unimplementedOperator o.kind :: unhandled options, fun score => ?_⟩)
            simp only [decorated, hop, operator?_eq, if_neg hkind]
            rfl

end Score

/-! ### Relations that compiling keeps -/

/-- A relation between nodes and compilations that everything compiling does keeps. -/
structure Compilation.Closed (P : Node → Compilation → Prop) : Prop where
  pattern : ∀ alignment children slot, (∀ child ∈ children, P child (slot child)) →
    P (.pattern alignment children) (Compilation.combine alignment (children.map slot))
  rest : ∀ options location, P (.scalar Value.rest options location) ⟨Pattern.silence, []⟩
  scalar : ∀ value options location, value ≠ Value.rest →
    P (.scalar value options location) ⟨Pattern.pure value location, []⟩
  group : ∀ child options location c, P child c → P (.group child options location) c
  stretch : ∀ amount child c, 0 < amount → P child c →
    P (.stretch amount (some child)) (c.slow amount)
  /-- The values become steps of a scale. -/
  scale : ∀ name child c f, P child c →
    P (.scale name (some child)) ⟨c.pattern.mapReporting f, c.diagnostics⟩
  /-- The scale is not known. -/
  unscaled : ∀ name child c, P child c →
    P (.scale name (some child)) ⟨c.pattern, c.diagnostics ++ [.unknownScale name]⟩
  unknown : ∀ kind children,
    P (.unknown kind children) ⟨Pattern.silence, [.unknownNodeKind kind]⟩
  /-- A node fails, or its options do after something was found in it. -/
  failed : ∀ n found e, P n ⟨Pattern.silence, found ++ [.subtreeFailed e]⟩
  /-- Options slow the score down. -/
  slowed : ∀ n c amount, 0 < amount → P n c → P n (c.slow amount)
  /-- Options are reported. -/
  reported : ∀ n c found, P n c → P n ⟨c.pattern, c.diagnostics ++ found⟩

namespace Compilation.Closed

variable {P : Node → Compilation → Prop}

theorem slot (hP : Closed P) (n : Node) {result : Except CompileError Compilation}
    (hresult : ∀ c, result = .ok c → P n c) : P n (Compilation.slot n.options result) := by
  cases result with
  | error e => exact hP.failed n [] e
  | ok c =>
      have hc := hresult c rfl
      simp only [Compilation.slot]
      rcases Score.decorated_cases n.options with ⟨e, h⟩ | ⟨found, h⟩ | ⟨amount, found, hpos, h⟩
      · rw [h]
        exact hP.failed n c.diagnostics e
      · rw [h]
        exact hP.reported n c found hc
      · rw [h]
        exact hP.reported n _ found (hP.slowed n c amount hpos hc)

theorem onScale (hP : Closed P) (config : Config) (name : String) (child : Node)
    {c : Compilation} (hc : P child c) :
    P (.scale name (some child)) (c.onScale config name) := by
  unfold Compilation.onScale
  dsimp only
  split
  · exact hP.scale name child c _ hc
  · exact hP.unscaled name child c hc

/-- **A closed relation holds between every node and its compilation.** -/
theorem compileAt (hP : Closed P) (config : Config) (n : Node) :
    ∀ (depth : Nat) (c : Compilation), n.compileAt config depth = .ok c → P n c := by
  induction n using Node.induction with
  | pattern alignment children ih =>
      intro depth c h
      rw [Node.compileAt_pattern _ _ (Node.le_of_compileAt h)] at h
      obtain rfl := Except.ok.inj h
      refine hP.pattern alignment children _ fun child hchild => ?_
      exact hP.slot child (ih child hchild (depth + 1))
  | scalar value options location =>
      intro depth c h
      rw [Node.compileAt_scalar _ _ _ (Node.le_of_compileAt h)] at h
      obtain rfl := Except.ok.inj h
      by_cases hrest : value = Value.rest
      · rw [if_pos (by simpa [Value.isRest] using hrest), hrest]
        exact hP.rest options location
      · rw [if_neg (by simpa [Value.isRest] using hrest)]
        exact hP.scalar value options location hrest
  | group child options location ih =>
      intro depth c h
      rw [Node.compileAt_group _ _ _ (Node.le_of_compileAt h)] at h
      exact hP.group child options location c (ih (depth + 1) c h)
  | stretch amount child ih =>
      intro depth c h
      have hdepth := Node.le_of_compileAt h
      cases child with
      | none =>
          rw [Node.compileAt_stretch_none _ hdepth] at h
          cases h
      | some child =>
          by_cases hpos : 0 < amount
          · rw [Node.compileAt_stretch child hdepth hpos] at h
            obtain ⟨c, hc, rfl⟩ := ok_of_map_eq_ok h
            exact hP.stretch amount child c hpos (ih child rfl (depth + 1) c hc)
          · rw [Node.compileAt_stretch_of_nonpos child hdepth (Rat.not_lt.mp hpos)] at h
            cases h
  | scale name child ih =>
      intro depth c h
      have hdepth := Node.le_of_compileAt h
      cases child with
      | none =>
          rw [Node.compileAt_scale_none _ hdepth] at h
          cases h
      | some child =>
          rw [Node.compileAt_scale _ _ hdepth] at h
          obtain ⟨c, hc, rfl⟩ := ok_of_map_eq_ok h
          exact hP.onScale config name child (ih child rfl (depth + 1) c hc)
  | unknown kind children ih =>
      intro depth c h
      rw [Node.compileAt_unknown _ _ (Node.le_of_compileAt h)] at h
      obtain rfl := Except.ok.inj h
      exact hP.unknown kind children

/-- **A closed relation holds between every tree and its compilation.** -/
theorem compile (hP : Closed P) (config : Config) (tree : Node) :
    P tree (config.compile tree) := by
  unfold Config.compile Config.tryCompile
  cases h : tree.compileAt config 0 with
  | error e => exact hP.failed tree [] e
  | ok c => exact hP.compileAt config tree 0 c h

end Compilation.Closed

/-! ### Properties of scores -/

/-- A property of scores that everything compiling does to a score keeps. -/
structure Score.Closed (P : Score → Prop) : Prop where
  silence : P Pattern.silence
  pure : ∀ value source, P (Pattern.pure value source)
  stack : ∀ scores, (∀ p ∈ scores, P p) → P (Pattern.stack scores)
  fastcat : ∀ scores, (∀ p ∈ scores, P p) → P (Pattern.fastcat scores)
  slow : ∀ amount p, P p → P (Pattern.slow amount p)
  mapReporting : ∀ f p, P p → P (Pattern.mapReporting f p)

namespace Score.Closed

variable {P : Score → Prop}

theorem ofCompilation (hP : Closed P) : Compilation.Closed fun _ c => P c.pattern where
  pattern := by
    intro alignment children slot hslots
    have hpatterns : ∀ p ∈ (children.map slot).map (·.pattern), P p := by
      simp only [List.forall_mem_map]
      exact hslots
    cases alignment with
    | horizontal => exact hP.fastcat _ hpatterns
    | vertical => exact hP.stack _ hpatterns
  rest := fun _ _ => hP.silence
  scalar := fun value _ location _ => hP.pure value location
  group := fun _ _ _ _ hc => hc
  stretch := fun amount _ _ _ hc => hP.slow amount _ hc
  scale := fun _ _ _ f hc => hP.mapReporting f _ hc
  unscaled := fun _ _ _ hc => hc
  unknown := fun _ _ => hP.silence
  failed := fun _ _ _ => hP.silence
  slowed := fun _ _ amount _ hc => hP.slow amount _ hc
  reported := fun _ _ _ hc => hc

/-- **A closed property holds of the pattern of every tree.** -/
theorem compile (hP : Closed P) (config : Config) (tree : Node) :
    P (config.compile tree).pattern :=
  hP.ofCompilation.compile config tree

end Score.Closed

end CyclePatterns

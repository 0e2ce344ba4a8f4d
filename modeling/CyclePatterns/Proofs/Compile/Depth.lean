/-
The limit on depth.

A node that is too deep silences the slot that it stands in, or the root, and is reported
there.  `Exceeds` says when the walk meets such a node: some place that it gets to is deeper
than the limit.  If it meets none the limit makes no difference at all, and if it does, a
greater limit can only give a silent slot back.  It may silence that slot for another reason,
which the smaller limit hid, but it never takes haps away.
-/
import CyclePatterns.Proofs.Compile.Decoration
import CyclePatterns.Proofs.Compile.Related
import CyclePatterns.Proofs.Pattern.Fewer

namespace CyclePatterns

/-! ### Nodes that are too deep -/

namespace Node

/-- The children that the walk goes on to. -/
def onward : Node → List Node
  | pattern _ children => children
  | group child _ _ => [child]
  | stretch amount child => if amount ≤ 0 then [] else child.toList
  | scale _ child => child.toList
  | scalar _ _ _ | unknown _ _ => []

/-- From a node at a depth the walk gets to a place that is deeper than the limit. -/
def Exceeds (limit depth : Nat) (n : Node) : Prop :=
  ∃ (C : Context) (m : Node), C.fill m = n ∧ C.Visited ∧ limit < depth + C.depth

variable {limit depth : Nat} {n : Node}

/-- Any place the walk gets to is in one of the children that it goes on to. -/
theorem exceeds_of_onward {child : Node} (hchild : child ∈ n.onward)
    (h : child.Exceeds limit (depth + 1)) : n.Exceeds limit depth := by
  obtain ⟨C, m, rfl, hvisited, hdeep⟩ := h
  rw [Nat.add_right_comm] at hdeep
  cases n with
  | pattern alignment children =>
      obtain ⟨before, after, rfl⟩ := List.append_of_mem hchild
      exact ⟨.pattern alignment before C after, m, rfl, hvisited, hdeep⟩
  | scalar value options location => cases hchild
  | group inner options location =>
      obtain rfl := List.mem_singleton.mp hchild
      exact ⟨.group C options location, m, rfl, hvisited, hdeep⟩
  | stretch amount inner =>
      rw [onward] at hchild
      split at hchild
      · cases hchild
      · rename_i hpos
        obtain rfl := Option.mem_toList.mp hchild
        exact ⟨.stretch amount C, m, rfl, ⟨not_le.mp hpos, hvisited⟩, hdeep⟩
  | scale name inner =>
      obtain rfl := Option.mem_toList.mp hchild
      exact ⟨.scale name C, m, rfl, hvisited, hdeep⟩
  | unknown kind children => cases hchild

theorem exceeds_iff :
    n.Exceeds limit depth ↔
      limit < depth ∨ ∃ child ∈ n.onward, child.Exceeds limit (depth + 1) := by
  constructor
  · rintro ⟨C, m, rfl, hvisited, hdeep⟩
    have hbelow {inside : Context} (hvisited : inside.Visited)
        (hdeep : limit < depth + (inside.depth + 1)) :
        (inside.fill m).Exceeds limit (depth + 1) :=
      ⟨inside, m, rfl, hvisited, by omega⟩
    cases C with
    | hole => exact .inl hdeep
    | pattern alignment before inside after =>
        exact .inr ⟨_, List.mem_append_right _ List.mem_cons_self, hbelow hvisited hdeep⟩
    | group inside options location =>
        exact .inr ⟨_, List.mem_singleton_self _, hbelow hvisited hdeep⟩
    | stretch amount inside =>
        refine .inr ⟨inside.fill m, ?_, hbelow hvisited.2 hdeep⟩
        rw [Context.fill, onward, if_neg (not_le.mpr hvisited.1)]
        exact List.mem_singleton_self _
    | scale name inside => exact .inr ⟨_, List.mem_singleton_self _, hbelow hvisited hdeep⟩
    | unknown kind before inside after => exact hvisited.elim
  · rintro (hdeep | ⟨child, hchild, h⟩)
    · exact ⟨.hole, n, rfl, trivial, hdeep⟩
    · exact exceeds_of_onward hchild h

/-- A node that is not too deep itself leaves it to its children. -/
theorem exceeds_iff_onward (h : depth ≤ limit) :
    n.Exceeds limit depth ↔ ∃ child ∈ n.onward, child.Exceeds limit (depth + 1) := by
  rw [exceeds_iff, or_iff_right (Nat.not_lt.mpr h)]

end Node

/-! ### What is reported of them -/

/-- Some sub-tree is reported to be silent because it is too deep. -/
def TooDeepIn (found : List Diagnostic) : Prop :=
  ∃ limit, Diagnostic.subtreeFailed (.maxDepthExceeded limit) ∈ found

theorem tooDeepIn_append {found found' : List Diagnostic} :
    TooDeepIn (found ++ found') ↔ TooDeepIn found ∨ TooDeepIn found' := by
  simp only [TooDeepIn, List.mem_append, exists_or]

theorem tooDeepIn_flatMap {β : Type} {f : β → List Diagnostic} {l : List β} :
    TooDeepIn (l.flatMap f) ↔ ∃ b ∈ l, TooDeepIn (f b) := by
  simp only [TooDeepIn, List.mem_flatMap]
  exact ⟨fun ⟨limit, b, hb, h⟩ => ⟨b, hb, limit, h⟩, fun ⟨b, hb, limit, h⟩ => ⟨limit, b, hb, h⟩⟩

theorem tooDeepIn_of_forall {found : List Diagnostic}
    (h : ∀ d ∈ found, ∀ limit, d ≠ .subtreeFailed (.maxDepthExceeded limit)) : ¬ TooDeepIn found :=
  fun ⟨limit, hmem⟩ => h _ hmem limit rfl

namespace Options

/-- What there is to report on options has nothing to do with depth. -/
theorem not_tooDeepIn_reports (options : Options) : ¬ TooDeepIn options.reports := by
  refine tooDeepIn_of_forall fun d hd limit => ?_
  simp only [reports, List.mem_append] at hd
  rcases hd with hd | hd
  · split at hd
    · cases hd
    · split at hd
      · cases hd
      · rw [List.mem_singleton.mp hd]
        nofun
  · split at hd
    · cases hd
    · rw [List.mem_singleton.mp hd]
      nofun

end Options

namespace Score

theorem not_tooDeepIn_found {options : Option Options} {score score' : Score}
    {found : List Diagnostic} (h : decorated score options = .ok (score', found)) :
    ¬ TooDeepIn found := by
  cases options with
  | none =>
      obtain ⟨-, rfl⟩ := Prod.mk.inj (Except.ok.inj h)
      exact tooDeepIn_of_forall fun d hd => absurd hd List.not_mem_nil
  | some options =>
      rw [found_eq_reports h]
      exact options.not_tooDeepIn_reports

/-- Options fail because of an operator, not because of depth. -/
theorem ne_maxDepthExceeded_of_decorated {options : Option Options} {score : Score}
    {e : CompileError} (h : decorated score options = .error e) (limit : Nat) :
    e ≠ .maxDepthExceeded limit := by
  have hfst : (decorated score options).map Prod.fst = .error e := by
    rw [h]
    rfl
  by_cases hstretch : ∃ o, options.bind (·.operator) = some o ∧ o.kind = "stretch"
  · obtain ⟨o, hop, hkind⟩ := hstretch
    rw [decorated_of_stretch hop hkind, stretch] at hfst
    split at hfst
    · obtain rfl := Except.error.inj hfst
      simp
    · split at hfst
      · cases hfst
      · obtain rfl := Except.error.inj hfst
        simp
  · rw [decorated_of_not_stretch fun o hop hkind => hstretch ⟨o, hop, hkind⟩] at hfst
    cases hfst

end Score

namespace Compilation

/-- In a slot nothing is added or lost of what is too deep. -/
theorem tooDeepIn_slot (options : Option Options) (r : Except CompileError Compilation) :
    TooDeepIn (slot options r).diagnostics ↔ TooDeepIn (orSilenced r).diagnostics := by
  cases r with
  | error e => exact Iff.rfl
  | ok c =>
      cases h : Score.decorated c.pattern options with
      | ok result =>
          simp only [slot, h, orSilenced]
          exact tooDeepIn_append.trans (or_iff_left (Score.not_tooDeepIn_found h))
      | error e =>
          simp only [slot, h, orSilenced]
          refine tooDeepIn_append.trans (or_iff_left (tooDeepIn_of_forall fun d hd limit heq => ?_))
          rw [List.mem_singleton.mp hd] at heq
          exact Score.ne_maxDepthExceeded_of_decorated h limit (Diagnostic.subtreeFailed.inj heq)

theorem tooDeepIn_onScale (config : Config) (name : String) (c : Compilation) :
    TooDeepIn (c.onScale config name).diagnostics ↔ TooDeepIn c.diagnostics := by
  unfold onScale
  dsimp only
  split
  · exact Iff.rfl
  · refine tooDeepIn_append.trans (or_iff_left (tooDeepIn_of_forall fun d hd limit => ?_))
    rw [List.mem_singleton.mp hd]
    nofun

/-- Whatever is done to a compilation, a failure stays as it is. -/
theorem tooDeepIn_orSilenced_map {f : Compilation → Compilation}
    (hf : ∀ c, TooDeepIn (f c).diagnostics ↔ TooDeepIn c.diagnostics)
    (r : Except CompileError Compilation) :
    TooDeepIn (orSilenced (r.map f)).diagnostics ↔ TooDeepIn (orSilenced r).diagnostics := by
  cases r with
  | error e => exact Iff.rfl
  | ok c => exact hf c

end Compilation

namespace Node

variable {config : Config} {depth : Nat}

/-- A node that is not too deep itself adds nothing to what its children have too deep. -/
theorem tooDeepIn_onward (h : depth ≤ config.maxDepth) (n : Node) :
    TooDeepIn (Compilation.orSilenced (n.compileAt config depth)).diagnostics ↔
      ∃ child ∈ n.onward,
        TooDeepIn (Compilation.orSilenced (child.compileAt config (depth + 1))).diagnostics := by
  cases n with
  | pattern alignment children =>
      rw [compileAt_pattern _ _ h]
      simp only [Compilation.orSilenced, Compilation.combine, List.flatMap_map, tooDeepIn_flatMap,
        Compilation.tooDeepIn_slot, onward]
  | scalar value options location =>
      rw [compileAt_scalar _ _ _ h]
      simp [Compilation.orSilenced, TooDeepIn, onward]
  | group child options location =>
      rw [compileAt_group _ _ _ h]
      simp [onward]
  | stretch amount child =>
      cases child with
      | none =>
          rw [compileAt_stretch_none _ h]
          simp [Compilation.orSilenced, Compilation.silenced, TooDeepIn, onward]
      | some child =>
          by_cases hpos : 0 < amount
          · have hslow (c : Compilation) :
                TooDeepIn (c.slow amount).diagnostics ↔ TooDeepIn c.diagnostics := Iff.rfl
            rw [compileAt_stretch _ h hpos, Compilation.tooDeepIn_orSilenced_map hslow]
            simp [onward, hpos]
          · have hpos := Rat.not_lt.mp hpos
            rw [compileAt_stretch_of_nonpos _ h hpos]
            simp [Compilation.orSilenced, Compilation.silenced, TooDeepIn, onward, hpos]
  | scale name child =>
      cases child with
      | none =>
          rw [compileAt_scale_none _ h]
          simp [Compilation.orSilenced, Compilation.silenced, TooDeepIn, onward]
      | some child =>
          rw [compileAt_scale _ _ h,
            Compilation.tooDeepIn_orSilenced_map (Compilation.tooDeepIn_onScale config name)]
          simp [onward]
  | unknown kind children =>
      rw [compileAt_unknown _ _ h]
      simp [Compilation.orSilenced, TooDeepIn, onward]

/-- Induction along the walk: a node has a property if the children that the walk goes on to
have it. -/
theorem onward_induction {motive : Node → Prop}
    (step : ∀ n, (∀ child ∈ n.onward, motive child) → motive n) (n : Node) : motive n := by
  induction n using Node.induction with
  | pattern alignment children ih => exact step _ ih
  | scalar value options location => exact step _ fun child hchild => absurd hchild List.not_mem_nil
  | group child options location ih =>
      exact step _ fun c hc => List.mem_singleton.mp hc ▸ ih
  | stretch amount child ih =>
      refine step _ fun c hc => ?_
      rw [onward] at hc
      split at hc
      · cases hc
      · exact ih c (Option.mem_toList.mp hc)
  | scale name child ih => exact step _ fun c hc => ih c (Option.mem_toList.mp hc)
  | unknown kind children ih => exact step _ fun child hchild => absurd hchild List.not_mem_nil

/-- **A node that is too deep is reported exactly if the walk gets to one.** -/
theorem tooDeepIn_compileAt (n : Node) :
    ∀ depth, TooDeepIn (Compilation.orSilenced (n.compileAt config depth)).diagnostics ↔
      n.Exceeds config.maxDepth depth := by
  induction n using onward_induction with
  | step n ih =>
      intro depth
      rcases Nat.lt_or_ge config.maxDepth depth with hdeep | hdepth
      · rw [compileAt_too_deep n hdeep]
        exact iff_of_true ⟨_, List.mem_singleton_self _⟩ (exceeds_iff.mpr (.inl hdeep))
      · rw [tooDeepIn_onward hdepth, exceeds_iff_onward hdepth]
        exact exists_congr fun child => and_congr_right fun hchild => ih child hchild (depth + 1)

end Node

/-! ### Two limits -/

/-- The same settings with another limit on depth. -/
def Config.limited (config : Config) (limit : Nat) : Config :=
  { config with maxDepth := limit }

theorem Compilation.onScale_limited (config : Config) (limit : Nat) :
    onScale (config.limited limit) = onScale config := by
  funext name c
  simp only [onScale, Config.limited]

/-- A relation between the outcomes of two walks that whatever a node makes of the outcomes of
its children keeps. -/
structure StepCongruence (config : Config)
    (P : Except CompileError Compilation → Except CompileError Compilation → Prop) : Prop where
  refl : ∀ r, P r r
  pattern : ∀ (alignment : Alignment) (children : List Node)
    (f g : Node → Except CompileError Compilation), (∀ child ∈ children, P (f child) (g child)) →
    P (.ok (Compilation.combine alignment
        (children.map fun child => Compilation.slot child.options (f child))))
      (.ok (Compilation.combine alignment
        (children.map fun child => Compilation.slot child.options (g child))))
  slow : ∀ amount r r', P r r' →
    P (r.map (Compilation.slow amount)) (r'.map (Compilation.slow amount))
  onScale : ∀ name r r', P r r' →
    P (r.map (Compilation.onScale config name)) (r'.map (Compilation.onScale config name))

/-- A node that is too deep for neither limit hands on what its children have in common. -/
theorem StepCongruence.compileAt {config : Config}
    {P : Except CompileError Compilation → Except CompileError Compilation → Prop}
    (hP : StepCongruence config P) {limit limit' depth : Nat} {n : Node} (h : depth ≤ limit)
    (h' : depth ≤ limit')
    (hchildren : ∀ child ∈ n.onward, P (child.compileAt (config.limited limit) (depth + 1))
      (child.compileAt (config.limited limit') (depth + 1))) :
    P (n.compileAt (config.limited limit) depth) (n.compileAt (config.limited limit') depth) := by
  cases n with
  | pattern alignment children =>
      rw [Node.compileAt_pattern _ _ h, Node.compileAt_pattern _ _ h']
      exact hP.pattern alignment children _ _ hchildren
  | scalar value options location =>
      rw [Node.compileAt_scalar _ _ _ h, Node.compileAt_scalar _ _ _ h']
      exact hP.refl _
  | group child options location =>
      rw [Node.compileAt_group _ _ _ h, Node.compileAt_group _ _ _ h']
      exact hchildren child (List.mem_singleton_self child)
  | stretch amount child =>
      cases child with
      | none =>
          rw [Node.compileAt_stretch_none _ h, Node.compileAt_stretch_none _ h']
          exact hP.refl _
      | some child =>
          by_cases hpos : 0 < amount
          · rw [Node.compileAt_stretch _ h hpos, Node.compileAt_stretch _ h' hpos]
            refine hP.slow amount _ _ (hchildren child ?_)
            rw [Node.onward, if_neg (not_le.mpr hpos)]
            exact List.mem_singleton_self child
          · have hpos := Rat.not_lt.mp hpos
            rw [Node.compileAt_stretch_of_nonpos _ h hpos,
              Node.compileAt_stretch_of_nonpos _ h' hpos]
            exact hP.refl _
  | scale name child =>
      cases child with
      | none =>
          rw [Node.compileAt_scale_none _ h, Node.compileAt_scale_none _ h']
          exact hP.refl _
      | some child =>
          rw [Node.compileAt_scale _ _ h, Node.compileAt_scale _ _ h',
            Compilation.onScale_limited, Compilation.onScale_limited]
          exact hP.onScale name _ _ (hchildren child (List.mem_singleton_self child))
  | unknown kind children =>
      rw [Node.compileAt_unknown _ _ h, Node.compileAt_unknown _ _ h']
      exact hP.refl _

theorem stepCongruence_eq (config : Config) : StepCongruence config (· = ·) where
  refl _ := rfl
  pattern := by
    intro alignment children f g h
    refine congrArg (fun slots => Except.ok (Compilation.combine alignment slots)) ?_
    exact List.map_congr_left fun child hchild => congrArg _ (h child hchild)
  slow _ _ _ h := congrArg _ h
  onScale _ _ _ h := congrArg _ h

/-- A limit that the walk never meets makes no difference. -/
theorem Node.compileAt_limited_eq {config : Config} {limit limit' : Nat} (hle : limit ≤ limit')
    (n : Node) :
    ∀ {depth}, ¬ n.Exceeds limit depth →
      n.compileAt (config.limited limit) depth = n.compileAt (config.limited limit') depth := by
  induction n using onward_induction with
  | step n ih =>
      intro depth h
      have hdepth : depth ≤ limit := Nat.not_lt.mp fun hdeep => h (exceeds_iff.mpr (.inl hdeep))
      -- A child from which the walk met the limit would let it meet the limit from here.
      refine (stepCongruence_eq config).compileAt hdepth (hdepth.trans hle) fun child hchild => ?_
      exact ih child hchild fun hexceeds => h (exceeds_of_onward hchild hexceeds)

/-! ### More haps within a greater limit -/

/-- What does not fail under the first limit does not fail under the second, and finds no fewer
haps there. -/
def GrownOutcome (r r' : Except CompileError Compilation) : Prop :=
  ∀ c, r = .ok c → ∃ c', r' = .ok c' ∧ c.pattern.Related List.Sublist c'.pattern

namespace GrownOutcome

variable {r r' : Except CompileError Compilation}

theorem map (h : GrownOutcome r r') {f : Compilation → Compilation}
    (hf : ∀ c c' : Compilation, c.pattern.Related List.Sublist c'.pattern →
      (f c).pattern.Related List.Sublist (f c').pattern) :
    GrownOutcome (r.map f) (r'.map f) := by
  intro d hd
  obtain ⟨c, hc, rfl⟩ := ok_of_map_eq_ok hd
  obtain ⟨c', rfl, hgrown⟩ := h c hc
  exact ⟨f c', rfl, hf c c' hgrown⟩

/-- Where the first is silent the second may have anything. -/
theorem slot (h : GrownOutcome r r') (options : Option Options) :
    (Compilation.slot options r).pattern.Related List.Sublist
      (Compilation.slot options r').pattern := by
  cases r with
  | error e => exact fun _ => List.nil_sublist _
  | ok c =>
      obtain ⟨c', rfl, hgrown⟩ := h c rfl
      exact Compilation.related_slot lasting_sublist hgrown options

theorem orSilenced (h : GrownOutcome r r') :
    (Compilation.orSilenced r).pattern.Related List.Sublist
      (Compilation.orSilenced r').pattern := by
  cases r with
  | error e => exact fun _ => List.nil_sublist _
  | ok c =>
      obtain ⟨c', rfl, hgrown⟩ := h c rfl
      exact hgrown

end GrownOutcome

/-- A scale maps all haps and takes none out. -/
theorem Compilation.related_sublist_onScale {c c' : Compilation}
    (h : c.pattern.Related List.Sublist c'.pattern) (config : Config) (name : String) :
    (c.onScale config name).pattern.Related List.Sublist (c'.onScale config name).pattern := by
  unfold onScale
  dsimp only
  split
  · exact fun s => (h s).map _
  · exact h

theorem stepCongruence_grown (config : Config) : StepCongruence config GrownOutcome where
  refl r c hc := ⟨c, hc, fun _ => List.Sublist.refl _⟩
  pattern := by
    intro alignment children f g h c hc
    obtain rfl := Except.ok.inj hc
    refine ⟨_, rfl, Compilation.related_combine lasting_sublist alignment ?_⟩
    rw [List.forall₂_map_left_iff, List.forall₂_map_right_iff, List.forall₂_same]
    exact fun child hchild => (h child hchild).slot child.options
  slow amount _ _ h := h.map fun _ _ hgrown => hgrown.slow lasting_sublist amount
  onScale name _ _ h := h.map fun _ _ hgrown =>
    Compilation.related_sublist_onScale hgrown config name

/-- **A greater limit takes no haps away.** -/
theorem Node.grown_compileAt {config : Config} {limit limit' : Nat} (hle : limit ≤ limit')
    (n : Node) :
    ∀ depth, GrownOutcome (n.compileAt (config.limited limit) depth)
      (n.compileAt (config.limited limit') depth) := by
  induction n using onward_induction with
  | step n ih =>
      intro depth
      rcases Nat.lt_or_ge limit depth with hdeep | hdepth
      · -- Under the first limit the node fails, and then the second may give it anything.
        have hdeep : (config.limited limit).maxDepth < depth := hdeep
        rw [compileAt_too_deep n hdeep]
        exact fun c hc => nomatch hc
      · exact (stepCongruence_grown config).compileAt hdepth (hdepth.trans hle)
          fun child hchild => ih child hchild (depth + 1)

namespace Config

/--
**What a limit on depth does.**  A greater limit takes no haps away and leaves those that there
were in their order.  A limit under which nothing is reported to be too deep is no limit: within
any greater one the compilation is the same, its pattern and all that is reported.  And a
sub-tree is reported to be too deep exactly if the walk gets to a place that is deeper than the
limit.
-/
theorem depth_limited (config : Config) (tree : Node) {limit limit' : Nat} (hle : limit ≤ limit') :
    (∀ q : Query, (q.haps ((config.limited limit).compile tree).pattern).Sublist
      (q.haps ((config.limited limit').compile tree).pattern)) ∧
    ((∀ m, Diagnostic.subtreeFailed (.maxDepthExceeded m)
        ∉ ((config.limited limit).compile tree).diagnostics) →
      (config.limited limit').compile tree = (config.limited limit).compile tree) ∧
    ((∃ m, Diagnostic.subtreeFailed (.maxDepthExceeded m)
        ∈ ((config.limited limit).compile tree).diagnostics) ↔
      ∃ (C : Context) (n : Node), C.fill n = tree ∧ C.Visited ∧ limit < C.depth) := by
  have hreported : TooDeepIn ((config.limited limit).compile tree).diagnostics ↔
      tree.Exceeds limit 0 := tree.tooDeepIn_compileAt 0
  refine ⟨fun q => ?_, fun hnone => ?_, ?_⟩
  · exact q.haps_sublist (tree.grown_compileAt hle 0).orSilenced
  · have hnot : ¬ tree.Exceeds limit 0 := fun h =>
      let ⟨m, hm⟩ := hreported.mpr h
      hnone m hm
    exact (congrArg Compilation.orSilenced (tree.compileAt_limited_eq hle hnot)).symm
  · simpa only [Node.Exceeds, Nat.zero_add, TooDeepIn] using hreported

/-- A leaf in two groups beside another leaf: with a limit of two its slot is silent, with
three it plays, and nine is no different. -/
theorem depth_limited_two_groups :
    let letter (s : String) : Node := .scalar (.text s) none none
    let tree : Node := .sequence [letter "a", .group (.group (letter "b") none none) none none]
    let compiled (limit : Nat) := (default.limited limit).compile tree
    let q := Query.cycle 0
    2 ≤ 3 ∧ (q.haps (compiled 2).pattern).Sublist (q.haps (compiled 3).pattern) ∧
      (∃ (C : Context) (n : Node), C.fill n = tree ∧ C.Visited ∧ 2 < C.depth) ∧
      3 ≤ 9 ∧ (∀ m, Diagnostic.subtreeFailed (.maxDepthExceeded m) ∉ (compiled 3).diagnostics) ∧
      compiled 9 = compiled 3 := by
  intro letter tree compiled q
  obtain ⟨hfewer, -, hreported⟩ := depth_limited default tree (Nat.le_succ 2)
  obtain ⟨-, hsame, -⟩ := depth_limited default tree (by decide : 3 ≤ 9)
  have hfailed : Diagnostic.subtreeFailed (.maxDepthExceeded 2) ∈ (compiled 2).diagnostics :=
    List.mem_singleton_self _
  have hnone : ∀ m, Diagnostic.subtreeFailed (.maxDepthExceeded m) ∉ (compiled 3).diagnostics :=
    fun m => List.not_mem_nil
  exact ⟨by decide, hfewer q, hreported.mp ⟨2, hfailed⟩, by decide, hnone, hsame hnone⟩

end Config

end CyclePatterns

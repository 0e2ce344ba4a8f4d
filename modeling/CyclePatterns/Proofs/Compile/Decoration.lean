/-
What becomes of options.

The walk looks at the options of a node in one place only, where the node stands in a slot of
a pattern.  There nothing is dropped: a stretch is played, and whatever has no meaning is
reported, and what is reported in a slot is reported for the tree.  Where an element is the
root or the one child of another node its options are not looked at.  Nodes that are spelled
as several in the place of one child are put in a pattern, so they have slots.
-/
import CyclePatterns.Proofs.Compile.Slots
import CyclePatterns.Proofs.Tree.WellMade

namespace CyclePatterns

/-! ### What a slot makes of options -/

/-- What there is to report on options whose operator does not fail. -/
def Options.reports (options : Options) : List Diagnostic :=
  let keys := options.keys.filter (· ≠ "operator")
  (match options.operator with
    | none => []
    | some o => if o.kind = "stretch" then [] else [.unimplementedOperator o.kind]) ++
  if keys = [] then [] else [.unimplementedOptions keys]

/-- A slot plays what it holds, slowed down if the options say so, and reports what was found in
it and then what there is to say about the options. -/
structure Compilation.Accounts (options : Options) (c slot : Compilation) : Prop where
  stretched : ∀ o, options.operator = some o → o.kind = "stretch" →
    ∃ amount, o.amount = some amount ∧ slot.pattern = Pattern.slow amount c.pattern
  played : (∀ o, options.operator = some o → o.kind ≠ "stretch") → slot.pattern = c.pattern
  reported : slot.diagnostics = c.diagnostics ++ options.reports

open Compilation (Accounts)

namespace Score

theorem unhandled_eq (options : Options) :
    unhandled options
      = if options.keys.filter (· ≠ "operator") = [] then []
        else [.unimplementedOptions (options.keys.filter (· ≠ "operator"))] := by
  have hkeys : (options.keys.filter fun k => !handledKeys.contains k)
      = options.keys.filter (· ≠ "operator") := by
    refine List.filter_congr fun k _ => ?_
    simp only [handledKeys, List.contains_cons, List.contains_nil, Bool.or_false, ne_eq,
      decide_not]
    rfl
  unfold unhandled
  simp only [hkeys, List.isEmpty_iff]

theorem stretch_eq_ok {score stretched : Score} {o : Operator}
    (h : stretch score o = .ok stretched) :
    ∃ amount, o.amount = some amount ∧ stretched = Pattern.slow amount score := by
  unfold stretch at h
  split at h
  · cases h
  · split at h
    · exact ⟨_, ‹_›, (Except.ok.inj h).symm⟩
    · cases h

/-- What is found in options that do not fail is what there is to report on them. -/
theorem found_eq_reports {options : Options} {score score' : Score} {found : List Diagnostic}
    (h : decorated score (some options) = .ok (score', found)) : found = options.reports := by
  unfold Options.reports
  dsimp only
  rw [← unhandled_eq]
  cases hop : options.operator with
  | none =>
      simp only [decorated, hop] at h
      exact (Prod.mk.inj (Except.ok.inj h)).2.symm
  | some o =>
      by_cases hkind : o.kind = "stretch"
      · simp only [decorated, hop, operator?_eq, if_pos hkind] at h ⊢
        obtain ⟨_, hstretch, h⟩ := ok_of_bind_eq_ok h
        obtain ⟨s, -, rfl⟩ := ok_of_map_eq_ok hstretch
        exact (Prod.mk.inj (Except.ok.inj h)).2.symm
      · simp only [decorated, hop, operator?_eq, if_neg hkind] at h ⊢
        exact (Prod.mk.inj (Except.ok.inj h)).2.symm

/-- Options that do not fail are accounted for. -/
theorem accounts_of_decorated {options : Options} {c : Compilation} {score : Score}
    {found : List Diagnostic} (h : decorated c.pattern (some options) = .ok (score, found)) :
    Accounts options c ⟨score, c.diagnostics ++ found⟩ where
  stretched o hop hkind := by
    have hop : (some options).bind (·.operator) = some o := hop
    have hstretch : stretch c.pattern o = .ok score := by
      rw [← decorated_of_stretch hop hkind, h]
      rfl
    exact stretch_eq_ok hstretch
  played hnot := by
    have hnot : ∀ o, (some options).bind (·.operator) = some o → o.kind ≠ "stretch" := hnot
    have hkept := decorated_of_not_stretch hnot c.pattern
    rw [h] at hkept
    exact Except.ok.inj hkept
  reported := congrArg (c.diagnostics ++ ·) (found_eq_reports h)

end Score

namespace Node

variable {config : Config} {depth : Nat} {child : Node}

/-- A node that does not fail has its options accounted for in its slot. -/
theorem accounts_slotAt {options : Options} (hoptions : child.options = some options)
    (h : ¬ child.Fails config depth) :
    ∃ c, child.compileAt config depth = .ok c ∧
      Accounts options c (child.slotAt config depth) := by
  cases hc : child.compileAt config depth with
  | error e => exact absurd (.inl ⟨e, hc⟩) h
  | ok c =>
      cases hdecorated : Score.decorated c.pattern child.options with
      | error e => exact absurd (.inr ⟨c, e, hc, hdecorated⟩) h
      | ok result =>
          have hslot : child.slotAt config depth = ⟨result.1, c.diagnostics ++ result.2⟩ := by
            simp only [slotAt, Compilation.slot, hc, hdecorated]
          rw [hoptions] at hdecorated
          rw [hslot]
          exact ⟨c, rfl, Score.accounts_of_decorated hdecorated⟩

end Node

theorem Compilation.prefix_onScale (c : Compilation) (config : Config) (name : String) :
    c.diagnostics <+: (c.onScale config name).diagnostics := by
  unfold onScale
  dsimp only
  split
  · exact List.prefix_rfl
  · exact List.prefix_append _ _

namespace Node

variable {config : Config} {depth : Nat} {child : Node}

/-- What is found in a node is the first to be reported in its slot. -/
theorem prefix_slotAt {c : Compilation} (hc : child.compileAt config depth = .ok c) :
    c.diagnostics <+: (child.slotAt config depth).diagnostics := by
  rw [diagnostics_slotAt, slotFindings, hc]
  exact List.prefix_append _ _

/-- What is reported in a slot is reported for the pattern. -/
theorem infix_combine (alignment : Alignment) (before after : List Node) :
    (child.slotAt config depth).diagnostics <:+:
      (Compilation.combine alignment
        ((before ++ child :: after).map (slotAt config depth))).diagnostics := by
  refine List.infix_of_mem_flatten (List.mem_map_of_mem (List.mem_map_of_mem ?_))
  exact List.mem_append_right _ List.mem_cons_self

/-- Above a node that is not too deep no node is. -/
theorem compileAt_below {n : Node} {above : Nat} {c : Compilation}
    (hc : n.compileAt config (depth + (above + 1)) = .ok c) :
    depth ≤ config.maxDepth ∧ n.compileAt config (depth + 1 + above) = .ok c := by
  rw [← Nat.add_assoc, Nat.add_right_comm] at hc
  have hdepth : depth + 1 + above ≤ config.maxDepth := le_of_compileAt hc
  exact ⟨by omega, hc⟩

end Node

/-! ### From a slot to the tree -/

namespace Context

/-- The walk gets to the hole: above it there is no node of an unknown kind, and no stretch
that fails. -/
def Visited : Context → Prop
  | hole => True
  | stretch amount inside => 0 < amount ∧ inside.Visited
  | pattern _ _ inside _ | group inside _ _ | scale _ inside => inside.Visited
  | unknown _ _ _ _ => False

/-- **Nothing that is reported at a place is lost on the way to the root.** -/
theorem Visited.reported {config : Config} {C : Context} (h : C.Visited) {n : Node} :
    ∀ {depth : Nat} {c : Compilation}, n.compileAt config (depth + C.depth) = .ok c →
      ∃ whole, (C.fill n).compileAt config depth = .ok whole ∧
        c.diagnostics <:+: whole.diagnostics := by
  induction C with
  | hole => exact fun hc => ⟨_, hc, List.infix_rfl⟩
  | pattern alignment before inside after ih =>
      intro depth c hc
      obtain ⟨hdepth, hc⟩ := Node.compileAt_below hc
      obtain ⟨below, hbelow, hfound⟩ := ih h hc
      refine ⟨_, Node.compileAt_pattern _ _ hdepth, ?_⟩
      exact (hfound.trans (Node.prefix_slotAt hbelow).isInfix).trans
        (Node.infix_combine alignment before after)
  | group inside options location ih =>
      intro depth c hc
      obtain ⟨hdepth, hc⟩ := Node.compileAt_below hc
      obtain ⟨below, hbelow, hfound⟩ := ih h hc
      exact ⟨below, (Node.compileAt_group _ _ _ hdepth).trans hbelow, hfound⟩
  | stretch amount inside ih =>
      intro depth c hc
      obtain ⟨hdepth, hc⟩ := Node.compileAt_below hc
      obtain ⟨below, hbelow, hfound⟩ := ih h.2 hc
      refine ⟨below.slow amount, ?_, hfound⟩
      rw [fill, Node.compileAt_stretch _ hdepth h.1, hbelow]
      rfl
  | scale name inside ih =>
      intro depth c hc
      obtain ⟨hdepth, hc⟩ := Node.compileAt_below hc
      obtain ⟨below, hbelow, hfound⟩ := ih h hc
      refine ⟨below.onScale config name, ?_, hfound.trans ?_⟩
      · rw [fill, Node.compileAt_scale _ _ hdepth, hbelow]
        rfl
      · exact (Compilation.prefix_onScale below config name).isInfix
  | unknown kind before inside after ih => exact h.elim
end Context

/-! ### Options that are not looked at -/

/-- A node is compiled without a look at its own options. -/
theorem Node.compileAt_withOptions {config : Config} {depth : Nat} (n : Node) (o : Options) :
    (n.withOptions o).compileAt config depth = n.compileAt config depth := by
  cases n with
  | scalar value own location =>
      refine compileAt_both (P := (· = ·)) (fun _ => rfl) fun hdepth => ?_
      rw [withOptions, compileAt_scalar _ _ _ hdepth, compileAt_scalar _ _ _ hdepth]
  | group child own location =>
      refine compileAt_both (P := (· = ·)) (fun _ => rfl) fun hdepth => ?_
      rw [withOptions, compileAt_group _ _ _ hdepth, compileAt_group _ _ _ hdepth]
  | pattern alignment children => rfl
  | stretch amount child => rfl
  | scale name child => rfl
  | unknown kind children => rfl

namespace Context

/-- A hole that is not itself in a context with options leaves the options around it alone. -/
theorem options_fill_of_ne_hole (C : Context) (h : C ≠ hole) (n m : Node) :
    (C.fill n).options = (C.fill m).options := by
  cases C with
  | hole => exact absurd rfl h
  | _ => rfl

/-- The options of a node that is not the child of a pattern make no difference. -/
theorem compileAt_withOptions {config : Config} (C : Context) (h : ¬ C.InPattern) (n : Node)
    (o : Options) :
    ∀ depth, (C.fill (n.withOptions o)).compileAt config depth
      = (C.fill n).compileAt config depth := by
  induction C with
  | hole => exact fun depth => n.compileAt_withOptions o
  | pattern alignment before inside after ih =>
      intro depth
      obtain ⟨hhole, hinside⟩ := not_or.mp h
      refine Node.compileAt_both (P := (· = ·)) (fun _ => rfl) fun hdepth => ?_
      rw [fill, fill, Node.compileAt_pattern _ _ hdepth, Node.compileAt_pattern _ _ hdepth,
        List.map_append, List.map_append, List.map_cons, List.map_cons, ih hinside,
        options_fill_of_ne_hole inside hhole (n.withOptions o) n]
  | group inside options location ih =>
      intro depth
      refine Node.compileAt_both (P := (· = ·)) (fun _ => rfl) fun hdepth => ?_
      rw [fill, fill, Node.compileAt_group _ _ _ hdepth, Node.compileAt_group _ _ _ hdepth, ih h]
  | stretch amount inside ih =>
      intro depth
      refine Node.compileAt_both (P := (· = ·)) (fun _ => rfl) fun hdepth => ?_
      by_cases hpos : 0 < amount
      · rw [fill, fill, Node.compileAt_stretch _ hdepth hpos, Node.compileAt_stretch _ hdepth hpos,
          ih h]
      · rw [fill, fill, Node.compileAt_stretch_of_nonpos _ hdepth (Rat.not_lt.mp hpos),
          Node.compileAt_stretch_of_nonpos _ hdepth (Rat.not_lt.mp hpos)]
  | scale name inside ih =>
      intro depth
      refine Node.compileAt_both (P := (· = ·)) (fun _ => rfl) fun hdepth => ?_
      rw [fill, fill, Node.compileAt_scale _ _ hdepth, Node.compileAt_scale _ _ hdepth, ih h]
  | unknown kind before inside after ih =>
      intro depth
      refine Node.compileAt_both (P := (· = ·)) (fun _ => rfl) fun hdepth => ?_
      rw [fill, fill, Node.compileAt_unknown _ _ hdepth, Node.compileAt_unknown _ _ hdepth]

end Context

/-! ### Several nodes in the place of one -/

namespace Sketch

theorem length_toNodes {ss : List Sketch} {ns : List Node} (h : toNodes ss = .ok ns) :
    ns.length = ss.length := by
  induction ss generalizing ns with
  | nil =>
      obtain rfl := Except.ok.inj h
      rfl
  | cons s rest ih =>
      obtain ⟨n, -, h⟩ := ok_of_bind_eq_ok h
      obtain ⟨tail, htail, h⟩ := ok_of_bind_eq_ok h
      obtain rfl := Except.ok.inj h
      rw [List.length_cons, List.length_cons, ih htail]

theorem onlyChild_of_two_le {children : List Node} (h : 2 ≤ children.length) :
    onlyChild children = some (Node.sequence children) := by
  match children, h with
  | _ :: _ :: _, _ => rfl

/-- Several nodes in the place of one child are played in sequence. -/
theorem toNode_several {kind : String} {arguments : List (String × Json)} {ss : List Sketch}
    {options : Option Options} {location : Option SourceSpan} {n : Node}
    (h : (node kind arguments (.nodes ss) options location).toNode = .ok n)
    (hseveral : 2 ≤ ss.length) (hkind : kind ∈ ["element", "stretch", "scale"]) :
    ∃ children, toNodes ss = .ok children ∧
      (n = .group (Node.sequence children) options location ∨
        (∃ amount, n = .stretch amount (some (Node.sequence children))) ∨
        ∃ name, n = .scale name (some (Node.sequence children))) := by
  rcases toNode_cases h with ⟨-, v, hsource, -⟩ | ⟨children, hchildren, h⟩
  · exact hsource.elim nofun nofun
  · have honly : onlyChild children = some (Node.sequence children) := by
      refine onlyChild_of_two_le ?_
      rwa [length_toNodes hchildren]
    rw [honly] at h
    refine ⟨children, hchildren, ?_⟩
    rcases h with ⟨rfl, -, -⟩ | ⟨-, child, hchild, rfl⟩ | ⟨-, amount, rfl⟩ | ⟨-, rfl⟩ | ⟨hnot, -⟩
    · exact absurd hkind (by decide)
    · exact .inl (by rw [Option.some.inj hchild])
    · exact .inr (.inl ⟨amount, rfl⟩)
    · exact .inr (.inr ⟨_, rfl⟩)
    · exact absurd (List.mem_cons_of_mem "pattern" hkind) hnot

end Sketch

/-! ### All of it together -/

namespace Config

/--
**No options in a slot are dropped.**  Wherever in a tree the walk gets to a pattern node, and
whatever child of it does not fail, the child has a slot of its own in that pattern.  The slot
plays the child, slowed down if its operator is a stretch.  It reports what was found in the
child, then an operator that has no meaning, and then in one diagnostic all keys that are set
apart from the operator, and what it reports is reported for the tree.  Nodes that are spelled
as several in the place of the one child of an element, a stretch or a scale are children of a
pattern.  Wherever else an element stands, its options make no difference to the tree.
-/
theorem options_accounted (config : Config) :
    (∀ (C : Context) (alignment : Alignment) (before : List Node) (child : Node)
        (after : List Node) (options : Options), C.Visited → child.options = some options →
        ¬ child.Fails config (C.depth + 1) →
      ∃ c slot, child.compileAt config (C.depth + 1) = .ok c ∧ Accounts options c slot ∧
        (Node.pattern alignment (before ++ child :: after)).compileAt config C.depth
          = .ok (Compilation.combine alignment (before.map (Node.slotAt config (C.depth + 1)) ++
              slot :: after.map (Node.slotAt config (C.depth + 1)))) ∧
        slot.diagnostics <:+: (config.compile
          (C.fill (.pattern alignment (before ++ child :: after)))).diagnostics) ∧
    (∀ (kind : String) (arguments : List (String × Json)) (ss : List Sketch)
        (options : Option Options) (location : Option SourceSpan) (n : Node),
        (Sketch.node kind arguments (.nodes ss) options location).toNode = .ok n →
        2 ≤ ss.length → kind ∈ ["element", "stretch", "scale"] →
      ∃ children, Sketch.toNodes ss = .ok children ∧
        (n = .group (Node.sequence children) options location ∨
          (∃ amount, n = .stretch amount (some (Node.sequence children))) ∨
          ∃ name, n = .scale name (some (Node.sequence children)))) ∧
    ∀ (C : Context) (n : Node) (options : Options), ¬ C.InPattern →
      config.compile (C.fill (n.withOptions options)) = config.compile (C.fill n) := by
  refine ⟨?_, fun _ _ _ _ _ _ => Sketch.toNode_several, ?_⟩
  · intro C alignment before child after options hvisited hoptions hfails
    obtain ⟨c, hc, haccounts⟩ := Node.accounts_slotAt hoptions hfails
    have hdepth : C.depth ≤ config.maxDepth := (Nat.le_succ _).trans (Node.le_of_compileAt hc)
    have hpattern := Node.compileAt_pattern alignment (before ++ child :: after) hdepth
    refine ⟨c, child.slotAt config (C.depth + 1), hc, haccounts, ?_, ?_⟩
    · rw [hpattern, List.map_append, List.map_cons]
      rfl
    · have hroot : C.depth = 0 + C.depth := (Nat.zero_add _).symm
      rw [hroot] at hpattern
      obtain ⟨whole, hwhole, hfound⟩ := hvisited.reported hpattern
      rw [compile, tryCompile, hwhole]
      refine List.IsInfix.trans ?_ hfound
      rw [← hroot]
      exact Node.infix_combine alignment before after
  · intro C n options hnot
    rw [compile, tryCompile, C.compileAt_withOptions hnot]
    rfl

/-- Options that stretch an element and have a weight besides, in a slot below a scale; two
nodes in the place of one; and the weight of a root. -/
theorem options_accounted_weight :
    let options : Options := { Options.empty with operator := some (.stretch 2), weight := some 3 }
    let child := Node.scalar (.text "c") (some options) none
    let letter (s : String) := Sketch.node "element" [] (.value (.text s)) none none
    (∃ c slot, child.compileAt default 2 = .ok c ∧ Accounts options c slot ∧
      slot.diagnostics <:+: (default.compile
        (.scale "C4 major" (some (.sequence [child])))).diagnostics) ∧
    (∃ n children, (Sketch.node "element" [] (.nodes [letter "a", letter "b"]) none none).toNode
      = .ok n ∧ Sketch.toNodes [letter "a", letter "b"] = .ok children ∧
        (n = .group (Node.sequence children) none none ∨
          (∃ amount, n = .stretch amount (some (Node.sequence children))) ∨
          ∃ name, n = .scale name (some (Node.sequence children)))) ∧
    default.compile child = default.compile (.scalar (.text "c") none none) := by
  intro options child letter
  obtain ⟨hslots, hseveral, helsewhere⟩ := options_accounted default
  refine ⟨?_, ?_, ?_⟩
  · have hnot : ¬ child.Fails default 2 := by
      rintro (⟨e, he⟩ | ⟨c, e, hc, he⟩)
      · cases he
      · cases hc
        cases he
    obtain ⟨c, slot, hc, haccounts, -, hfound⟩ :=
      hslots (.scale "C4 major" .hole) .horizontal [] child [] options trivial rfl hnot
    exact ⟨c, slot, hc, haccounts, hfound⟩
  · obtain ⟨children, hchildren, hn⟩ := hseveral "element" [] [letter "a", letter "b"] none none _
      rfl (by decide) (by decide)
    exact ⟨_, children, rfl, hchildren, hn⟩
  · exact helsewhere .hole (.scalar (.text "c") none none) options id

/-- Four trees whose one weighted element is no child of a pattern: the root, the one child of
a stretch, of a scale and of an element.  The walk gets to every node of them, and nothing is
reported. -/
theorem options_unreported :
    let element :=
      "\x7b\"type_\":\"element\",\"source_\":\"c\",\"options_\":\x7b\"weight\":3\x7d\x7d"
    ∀ text ∈ [element,
        "\x7b\"type_\":\"stretch\",\"arguments_\":\x7b\"amount\":\"2\"\x7d,\"source_\":"
          ++ element ++ "\x7d",
        "\x7b\"type_\":\"scale\",\"arguments_\":\x7b\"scale\":\"C4 major\"\x7d,\"source_\":"
          ++ element ++ "\x7d",
        "\x7b\"type_\":\"element\",\"source_\":[" ++ element ++ "]\x7d"],
      ∃ tree, Node.ofText text = .ok tree ∧
        (tree.nodes.filterMap Node.options).map Options.keys = [["weight"]] ∧
        (∀ n ∈ tree.nodes, (n.compileAt default 1).isOk) ∧
        (default.compile tree).diagnostics = [] := by
  intro element text htext
  refine exists_ok_of_any ?_
  revert text
  decide +kernel

end Config

end CyclePatterns

/-
Trees that are written as JSON and read again.

Whatever is written of a tree is read as a sketch that means the tree, whichever spelling is
chosen for a child without siblings.  This goes by induction over the tree: the
sketches of the children make up a source, and a node is read entry by entry.  What must not
be taken for anything else is asked of single nodes: a pattern has a child, a number is
finite, and a kind without a meaning is none of the kinds that have one.
-/
import CyclePatterns.Proofs.Tree.Nodes
import CyclePatterns.Proofs.Tree.WellMade
import CyclePatterns.Proofs.Tree.WrittenOptions

namespace CyclePatterns

open Json

/-! ### Nodes and sources -/

namespace Sketch

/-- The names of the entries of a node. -/
def keys : List String :=
  ["type_", "arguments_", "source_", "options_", "location_"]

/-- What is written of a source is read as this one. -/
inductive ReadsSource : Option Json → Source → Prop
  | absent : ReadsSource none .absent
  | present {j : Json} {source : Source} (h : readSource none (Draft.ofJson j) = .ok source) :
      ReadsSource (some j) source

variable {kind : String} {arguments : List (String × Json)} {written : Option Json}
  {source : Source} {options : Option Options} {location : Option SourceSpan}

theorem nodup_entries : ((Node.entries kind arguments written options location).map
    Prod.fst).Nodup := by
  have hkeys : keys.Nodup := by decide
  refine hkeys.sublist ?_
  simp only [Node.entries, List.map_cons, List.map_append]
  exact (((keys_optional_sublist _ _ _).append
    ((keys_optional_sublist _ _ _).append (keys_optional_sublist _ _ _))).cons_cons _).cons_cons _

/-- The entries of a written node, if its parts are read as what they are. -/
theorem walk_entries (kind : String)
    (harguments : readArguments none (Draft.ofJson (.object arguments)) = .ok arguments)
    (hsource : ReadsSource written source)
    (hoptions : ∀ o, options = some o → o.InMemory ∧ o.Unambiguous)
    (hlocation : ∀ l, location = some l → l.Fits) :
    (Fields.ofJson (Node.entries kind arguments written options location)).walk
        (stepOf fields passing none) .empty
      = .ok ⟨some kind, some arguments, written.map fun _ => source, options.map some,
          location.map some⟩ := by
  have hkind : stepOf fields passing none .empty "type_" (Draft.ofJson (.string kind))
      = .ok ⟨some kind, none, none, none, none⟩ :=
    stepOf_field rfl rfl
  have harguments : stepOf fields passing none ⟨some kind, none, none, none, none⟩ "arguments_"
      (Draft.ofJson (.object arguments)) = .ok ⟨some kind, some arguments, none, none, none⟩ :=
    (stepOf_later (by decide)).trans (stepOf_field harguments rfl)
  refine (walk_entry hkind _).trans ((walk_entry harguments _).trans ?_)
  refine (walk_optional ⟨some kind, some arguments, written.map fun _ => source, none, none⟩
    ?_ ?_ _).trans ?_
  · rintro rfl
    rfl
  · rintro j rfl
    refine (stepOf_later (by decide)).trans ((stepOf_later (by decide)).trans ?_)
    obtain _ | hj := hsource
    exact stepOf_field hj rfl
  refine (walk_optional ⟨some kind, some arguments, written.map fun _ => source,
    options.map some, none⟩ ?_ ?_ _).trans ?_
  · rintro rfl
    rfl
  · rintro o rfl
    obtain ⟨hmemory, hunambiguous⟩ := hoptions o rfl
    refine (stepOf_later (by decide)).trans ((stepOf_later (by decide)).trans
      ((stepOf_later (by decide)).trans ?_))
    exact stepOf_field (readOptional_eq_ok (o.read_toJson hmemory hunambiguous) nofun) rfl
  rw [← List.append_nil (Option.toList _)]
  refine (walk_optional ⟨some kind, some arguments, written.map fun _ => source,
    options.map some, location.map some⟩ ?_ ?_ []).trans rfl
  · rintro rfl
    rfl
  · rintro l rfl
    refine (stepOf_later (by decide)).trans ((stepOf_later (by decide)).trans
      ((stepOf_later (by decide)).trans ((stepOf_later (by decide)).trans ?_)))
    exact stepOf_field (readOptional_eq_ok (readLocation_toJson (hlocation l rfl)) nofun) rfl

/-- A written node is read as what it is, if its parts are. -/
theorem read_spelled
    (harguments : readArguments none (Draft.ofJson (.object arguments)) = .ok arguments)
    (hsource : ReadsSource written source)
    (hoptions : ∀ o, options = some o → o.InMemory ∧ o.Unambiguous)
    (hlocation : ∀ l, location = some l → l.Fits) :
    read none (Draft.ofJson (Node.spelled kind arguments written options location))
      = .ok (.node kind arguments source options location) := by
  have hkept : (written.map fun _ => source).getD .absent = source := by
    cases hsource <;> rfl
  have hwalk := (indifferent_passing fields_commute none).walk_ofList nodup_entries
    (walk_entries kind harguments hsource hoptions hlocation)
  refine ok_of_toOption ?_
  rw [Node.spelled, Draft.ofJson, toOption_read_object rfl, readFields_eq_walk, hwalk]
  show some (Sketch.node kind arguments ((written.map fun _ => source).getD .absent)
    (options.map some).join (location.map some).join) = _
  rw [hkept, join_map_some, join_map_some]

theorem readNodes_written {js : List Json} {ss : List Sketch}
    (h : List.Forall₂ (fun j s => read none (Draft.ofJson j) = .ok s) js ss) :
    readNodes (Items.ofJson js) = .ok ss := by
  induction h with
  | nil => rfl
  | cons hj _ ih =>
      rw [Items.ofJson, readNodes, hj, ih]
      rfl

theorem readSource_array {js : List Json} {ss : List Sketch}
    (h : List.Forall₂ (fun j s => read none (Draft.ofJson j) = .ok s) js ss) :
    readSource none (Draft.ofJson (.array js)) = .ok (.nodes ss) := by
  obtain ⟨j, hj⟩ := exists_toJson (.array js)
  refine ok_of_toOption ?_
  rw [Draft.ofJson] at hj ⊢
  rw [toOption_readSource_array hj, readNodes_written h]
  rfl

theorem readSource_object {es : List (String × Json)} {s : Sketch}
    (h : read none (Draft.ofJson (.object es)) = .ok s) :
    readSource none (Draft.ofJson (.object es)) = .ok (.one s) := by
  obtain ⟨j, hj⟩ := exists_toJson (.object es)
  have hread := toOption_read_object (rfl : Room.enter none = .ok none) (Fields.ofJson es)
  refine ok_of_toOption ?_
  rw [Draft.ofJson] at hj h ⊢
  rw [toOption_readSource_object hj, ← hread, h]
  rfl

end Sketch

/-- Sketches as a source, in a list unless there is one that stands alone. -/
def Source.ofSketches (spelling : ChildSpelling) : List Sketch → Source
  | [s] => if spelling = .listed then .nodes [s] else .one s
  | ss => .nodes ss

namespace Sketch

theorem sourceChildren_ofSketches (spelling : ChildSpelling) (ss : List Sketch) :
    sourceChildren (.ofSketches spelling ss) = toNodes ss := by
  match ss with
  | [] => rfl
  | [s] =>
      cases spelling with
      | listed => rfl
      | alone | bare =>
          rw [toNodes, toNodes]
          rfl
  | _ :: _ :: _ => rfl

/-- Children that are written as a source are read as their sketches. -/
theorem readSource_inSource (spelling : ChildSpelling) {js : List Json} {ss : List Sketch}
    (hobject : ∀ j ∈ js, ∃ es, j = .object es)
    (h : List.Forall₂ (fun j s => read none (Draft.ofJson j) = .ok s) js ss) :
    readSource none (Draft.ofJson (Node.inSource spelling js)) = .ok (.ofSketches spelling ss) := by
  cases h with
  | nil => rfl
  | cons hj hjs =>
      cases hjs with
      | cons hj' hjs => exact readSource_array (.cons hj (.cons hj' hjs))
      | nil =>
          cases spelling with
          | listed => exact readSource_array (.cons hj .nil)
          | alone | bare =>
              obtain ⟨es, rfl⟩ := hobject _ List.mem_cons_self
              exact readSource_object hj

/-! ### What written nodes mean -/

theorem alignment_written (a : Alignment) : alignment [("alignment", .string a.word)] = a := by
  cases a <;> rfl

theorem amount_written (x : Rat) : amount [("amount", ofFraction x)] = .ok x := by
  have hentry : Entries.get? "amount" [("amount", ofFraction x)] = some (ofFraction x) := rfl
  simp only [amount, hentry, readFraction_ofFraction]

variable {arguments : List (String × Json)} {source : Source} {options : Option Options}
  {location : Option SourceSpan} {children : List Node}

theorem toNode_pattern (hchildren : sourceChildren source = .ok children)
    (hempty : children ≠ []) :
    (Sketch.node "pattern" arguments source options location).toNode
      = .ok (.pattern (alignment arguments) children) := by
  have hfalse : children.isEmpty = false := by
    rwa [List.isEmpty_eq_false_iff]
  rw [toNode.eq_def]
  simp only [if_true, hchildren, bind, Except.bind, hfalse]
  rfl

theorem toNode_group {child : Node} (spelling : ChildSpelling) {s : Sketch}
    (h : s.toNode = .ok child) :
    (Sketch.node "element" arguments (.ofSketches spelling [s]) options location).toNode
      = .ok (.group child options location) := by
  rw [toNode.eq_def]
  cases spelling with
  | listed =>
      simp only [String.reduceEq, if_false, if_true, Source.ofSketches, toNodes, h]
      rfl
  | alone | bare =>
      simp only [String.reduceEq, if_false, if_true, Source.ofSketches, reduceCtorEq, h]
      rfl

theorem toNode_stretch {x : Rat} (hamount : amount arguments = .ok x)
    (hchildren : sourceChildren source = .ok children) :
    (Sketch.node "stretch" arguments source options location).toNode
      = .ok (.stretch x (onlyChild children)) := by
  rw [toNode.eq_def]
  simp only [String.reduceEq, if_false, if_true, hamount, hchildren]
  rfl

theorem toNode_scale (hchildren : sourceChildren source = .ok children) :
    (Sketch.node "scale" arguments source options location).toNode
      = .ok (.scale (scaleName arguments) (onlyChild children)) := by
  rw [toNode.eq_def]
  simp only [String.reduceEq, if_false, if_true, hchildren]
  rfl

theorem toNode_unknown {kind : String} (hkind : kind ∉ knownKinds)
    (hchildren : sourceChildren source = .ok children) :
    (Sketch.node kind arguments source options location).toNode = .ok (.unknown kind children) := by
  simp only [knownKinds, List.mem_cons, List.not_mem_nil, or_false, not_or] at hkind
  obtain ⟨hpattern, helement, hstretch, hscale⟩ := hkind
  rw [toNode.eq_def]
  simp only [hpattern, helement, hstretch, hscale, if_false, hchildren]
  rfl

end Sketch

/-! ### Trees -/

/-- The value can be written as it is. -/
def Value.Finite : Value → Prop
  | number x => x.isFinite = true
  | text _ => True

/-- Such a value is read as what it is where a source may stand. -/
theorem Value.Finite.readSource_toJson {v : Value} (h : v.Finite) :
    Sketch.readSource none (Draft.ofJson v.toJson) = .ok (.value v) := by
  cases v with
  | number x =>
      have hfinite : x.isFinite = true := h
      rw [toJson, if_pos hfinite]
      rfl
  | text s => rfl

namespace Node

/-- What holds of every node in memory, as far as it has options and a place. -/
def InMemory : Node → Prop
  | scalar _ options location | group _ options location =>
    (∀ o, options = some o → o.InMemory) ∧ ∀ l, location = some l → l.Fits
  | _ => True

/-- What is written of the node cannot be taken for anything else. -/
def Unambiguous : Node → Prop
  | pattern _ children => children ≠ []
  | scalar value options _ => value.Finite ∧ ∀ o, options = some o → o.Unambiguous
  | group _ options _ => ∀ o, options = some o → o.Unambiguous
  | unknown kind _ => kind ∉ Sketch.knownKinds
  | stretch _ _ | scale _ _ => True

variable {spelling : Node → ChildSpelling}

theorem toJson_eq_object (n : Node) : ∃ es, n.toJson spelling = .object es := by
  cases n <;> exact ⟨_, rfl⟩

/-- Where the node is written a sketch is read, and the node is what it means. -/
def HasSketch (spelling : Node → ChildSpelling) (n : Node) : Prop :=
  ∃ s, Sketch.read none (Draft.ofJson (n.toJson spelling)) = .ok s ∧ s.toNode = .ok n

/-- Children that have sketches. -/
theorem exists_sketches {children : List Node} (h : ∀ child ∈ children, child.HasSketch spelling) :
    ∃ ss, List.Forall₂ (fun j s => Sketch.read none (Draft.ofJson j) = .ok s)
      (listToJson spelling children) ss ∧ Sketch.toNodes ss = .ok children := by
  induction children with
  | nil => exact ⟨[], .nil, rfl⟩
  | cons n ns ih =>
      obtain ⟨⟨s, hs, hn⟩, hns⟩ := List.forall_mem_cons.mp h
      obtain ⟨ss, hss, hmeans⟩ := ih hns
      refine ⟨s :: ss, .cons hs hss, ?_⟩
      rw [Sketch.toNodes, hn, hmeans]
      rfl

/-- Children that have sketches can be written as a source. -/
theorem exists_source (choice : ChildSpelling) {children : List Node}
    (hsketch : ∀ child ∈ children, child.HasSketch spelling)
    (h : ∀ child ∈ children, child.Unambiguous) :
    ∃ source, Sketch.ReadsSource
        (some (inPlainSource choice children (listToJson spelling children))) source ∧
      Sketch.sourceChildren source = .ok children := by
  unfold inPlainSource
  -- A bare value is no sketch of its own: what it means is the child that it stands for.
  split
  · rename_i value
    obtain ⟨hfinite, -⟩ : (scalar value none none).Unambiguous := h _ List.mem_cons_self
    exact ⟨.value value, .present hfinite.readSource_toJson, rfl⟩
  · obtain ⟨ss, hss, hmeans⟩ := exists_sketches hsketch
    have hobject : ∀ j ∈ listToJson spelling children, ∃ es, j = .object es := by
      intro j hj
      rw [listToJson_eq_map] at hj
      obtain ⟨n, -, rfl⟩ := List.mem_map.mp hj
      exact toJson_eq_object n
    exact ⟨.ofSketches choice ss, .present (Sketch.readSource_inSource choice hobject hss),
      (Sketch.sourceChildren_ofSketches choice ss).trans hmeans⟩

/-- So can one child, and where there is none no source is needed. -/
theorem exists_source_toList (choice : ChildSpelling) {child : Option Node}
    (hsketch : ∀ c, child = some c → c.HasSketch spelling)
    (h : ∀ c, child = some c → c.Unambiguous) :
    ∃ source, Sketch.ReadsSource
        ((childToJson spelling child).map fun j => inPlainSource choice child.toList [j]) source ∧
      Sketch.sourceChildren source = .ok child.toList := by
  cases child with
  | none => exact ⟨.absent, .absent, rfl⟩
  | some c =>
      exact exists_source choice (List.forall_mem_singleton.mpr (hsketch c rfl))
        (List.forall_mem_singleton.mpr (h c rfl))

theorem onlyChild_toList (child : Option Node) : Sketch.onlyChild child.toList = child := by
  cases child <;> rfl

/-- What holds of all nodes below holds of the nodes of each child. -/
theorem forall_nodes_of_mem {P : Node → Prop} {children : List Node}
    (h : ∀ n ∈ children.flatMap nodes, P n) :
    ∀ child ∈ children, ∀ n ∈ child.nodes, P n :=
  fun child hchild n hn => h n (List.mem_flatMap.mpr ⟨child, hchild, hn⟩)

/-- Every node of a good tree has a sketch. -/
theorem hasSketch (spelling : Node → ChildSpelling) (tree : Node)
    (h : ∀ n ∈ tree.nodes, n.InMemory ∧ n.Unambiguous) : tree.HasSketch spelling := by
  induction tree using Node.induction with
  | pattern alignment children ih =>
      rw [nodes_pattern] at h
      obtain ⟨⟨-, hempty⟩, hbelow⟩ := List.forall_mem_cons.mp h
      have hnodes := forall_nodes_of_mem hbelow
      obtain ⟨source, hsource, hmeans⟩ := exists_source (spelling (.pattern alignment children))
        (fun child hchild => ih child hchild (hnodes child hchild))
        fun child hchild => (hnodes child hchild child child.mem_nodes_self).2
      refine ⟨_, Sketch.read_spelled rfl hsource nofun nofun, ?_⟩
      rw [Sketch.toNode_pattern hmeans hempty, Sketch.alignment_written]
  | scalar value options location =>
      obtain ⟨⟨hoptions, hlocation⟩, hfinite, hextra⟩ := h _ (mem_nodes_self _)
      exact ⟨_, Sketch.read_spelled rfl (.present hfinite.readSource_toJson)
        (fun o ho => ⟨hoptions o ho, hextra o ho⟩) hlocation, rfl⟩
  | group child options location ih =>
      obtain ⟨⟨⟨hoptions, hlocation⟩, hextra⟩, hbelow⟩ := List.forall_mem_cons.mp h
      obtain ⟨s, hs, hmeans⟩ := ih hbelow
      have hsource := Sketch.readSource_inSource (spelling (.group child options location))
        (List.forall_mem_singleton.mpr (toJson_eq_object child)) (.cons hs .nil)
      exact ⟨_, Sketch.read_spelled rfl (.present hsource)
        (fun o ho => ⟨hoptions o ho, hextra o ho⟩) hlocation, Sketch.toNode_group _ hmeans⟩
  | stretch amount child ih =>
      have hnodes : ∀ c, child = some c → ∀ n ∈ c.nodes, n.InMemory ∧ n.Unambiguous := by
        rintro c rfl
        exact (List.forall_mem_cons.mp h).2
      obtain ⟨source, hsource, hmeans⟩ := exists_source_toList (spelling (.stretch amount child))
        (fun c hc => ih c hc (hnodes c hc)) fun c hc => (hnodes c hc c c.mem_nodes_self).2
      refine ⟨_, Sketch.read_spelled rfl hsource nofun nofun, ?_⟩
      rw [Sketch.toNode_stretch (Sketch.amount_written amount) hmeans, onlyChild_toList]
  | scale name child ih =>
      have hnodes : ∀ c, child = some c → ∀ n ∈ c.nodes, n.InMemory ∧ n.Unambiguous := by
        rintro c rfl
        exact (List.forall_mem_cons.mp h).2
      obtain ⟨source, hsource, hmeans⟩ := exists_source_toList (spelling (.scale name child))
        (fun c hc => ih c hc (hnodes c hc)) fun c hc => (hnodes c hc c c.mem_nodes_self).2
      refine ⟨_, Sketch.read_spelled rfl hsource nofun nofun, ?_⟩
      rw [Sketch.toNode_scale hmeans, onlyChild_toList]
      rfl
  | unknown kind children ih =>
      rw [nodes_unknown] at h
      obtain ⟨⟨-, hkind⟩, hbelow⟩ := List.forall_mem_cons.mp h
      have hnodes := forall_nodes_of_mem hbelow
      obtain ⟨source, hsource, hmeans⟩ := exists_source (spelling (.unknown kind children))
        (fun child hchild => ih child hchild (hnodes child hchild))
        fun child hchild => (hnodes child hchild child child.mem_nodes_self).2
      exact ⟨_, Sketch.read_spelled rfl hsource nofun nofun, Sketch.toNode_unknown hkind hmeans⟩

/--
**A written tree is read as what it is.**  This holds whichever spelling is chosen for children
without siblings, if every pattern has a child, all numbers are finite, no kind without a
meaning is one that has a meaning, and no other entry of options has the name of a known one.
What is written of options alone is read as those options.
-/
theorem ofJson_toJson :
    (∀ (spelling : Node → ChildSpelling) (tree : Node),
        (∀ n ∈ tree.nodes, n.InMemory ∧ n.Unambiguous) →
          ofJson (tree.toJson spelling) = .ok tree) ∧
      ∀ o : Options, o.InMemory → o.Unambiguous →
        Options.read none (Draft.ofJson o.toJson) = .ok o := by
  refine ⟨fun spelling tree h => ?_, fun o hmemory h => o.read_toJson hmemory h⟩
  obtain ⟨s, hs, hmeans⟩ := hasSketch spelling tree h
  rw [ofJson, hs]
  exact hmeans

/-- A tree with a decorated element and with nodes that lack a child. -/
theorem ofJson_toJson_decorated :
    let options : Options := ⟨some ⟨"fast", some (3 / 2)⟩, some 2, some 3, some ⟨3, 8, none⟩,
      [("colour", .array [.null]), ("tone", .string "soft")]⟩
    let tree := pattern .vertical [scalar (.text "c") (some options) (some ⟨0, 1⟩),
      stretch (1 / 3) none, unknown "polymeter" [scale "C4 major"
        (some (scalar (.number (.finite 2)) none none))], unknown "" []]
    (∀ n ∈ tree.nodes, n.InMemory ∧ n.Unambiguous) ∧
      ofJson (tree.toJson fun _ => .bare) = .ok tree ∧
      options.InMemory ∧ options.Unambiguous ∧
      Options.read none (Draft.ofJson options.toJson) = .ok options := by
  intro options tree
  have hmemory : options.InMemory := by
    refine ⟨by decide, List.forall_mem_cons.mpr ⟨?_, List.forall_mem_singleton.mpr ?_⟩⟩
    · exact .array (List.forall_mem_singleton.mpr .null)
    · exact .string "soft"
  have hoptions : options.Unambiguous := by
    refine List.forall_mem_cons.mpr ⟨?_, List.forall_mem_singleton.mpr ?_⟩ <;> decide
  have hscalar : (scalar (.text "c") (some options) (some ⟨0, 1⟩)).InMemory ∧
      (scalar (.text "c") (some options) (some ⟨0, 1⟩)).Unambiguous := by
    refine ⟨⟨fun o ho => Option.some.inj ho ▸ hmemory, fun l hl => ?_⟩, trivial,
      fun o ho => Option.some.inj ho ▸ hoptions⟩
    exact Option.some.inj hl ▸ ⟨by decide, by decide⟩
  have hnumber : (scalar (.number (.finite 2)) none none).InMemory ∧
      (scalar (.number (.finite 2)) none none).Unambiguous := by
    refine ⟨⟨?_, ?_⟩, rfl, ?_⟩ <;> exact fun _ h => absurd h (Option.some_ne_none _).symm
  have hpolymeter : "polymeter" ∉ Sketch.knownKinds := by decide
  have hempty : "" ∉ Sketch.knownKinds := by decide
  have hnodes : ∀ n ∈ tree.nodes, n.InMemory ∧ n.Unambiguous := by
    simp only [tree, nodes, nodesOfAll, List.cons_append, List.nil_append, List.append_nil,
      List.forall_mem_cons]
    exact ⟨⟨trivial, List.cons_ne_nil _ _⟩, hscalar, ⟨trivial, trivial⟩, ⟨trivial, hpolymeter⟩,
      ⟨trivial, trivial⟩, hnumber, ⟨trivial, hempty⟩, List.forall_mem_nil _⟩
  exact ⟨hnodes, ofJson_toJson.1 _ tree hnodes, hmemory, hoptions,
    ofJson_toJson.2 options hmemory hoptions⟩

end Node

end CyclePatterns

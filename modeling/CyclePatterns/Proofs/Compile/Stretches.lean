/-
Ways to ask for a stretch.

An operator of an element and a node of its own ask for the same stretch.  They go different
ways, and where the stretch cannot be done they fail at different moments and say different
things; either way there is silence in the slot.  In notation there is a mark for the one and
a call for the other, and what they play is the same, at places as far apart as their texts
put the body.
-/
import CyclePatterns.Proofs.Compile.Alike
import CyclePatterns.Proofs.Compile.Slots
import CyclePatterns.Proofs.Notation.Spellings

namespace CyclePatterns

variable {config : Config} {depth : Nat}

/-! ### The same compilation at the same place -/

/-- What stands in a context decides on the options of the whole only where it is the whole. -/
theorem Context.options_fill {n m : Node} (h : n.options = m.options) (C : Context) :
    (C.fill n).options = (C.fill m).options := by
  cases C with
  | hole => exact h
  | _ => rfl

/-- Children that are the same in their slots are the same to a pattern node. -/
theorem Node.compileAt_pattern_congr {n m : Node} (alignment : Alignment) (before after : List Node)
    (h : n.slotAt config (depth + 1) = m.slotAt config (depth + 1)) :
    (pattern alignment (before ++ n :: after)).compileAt config depth
      = (pattern alignment (before ++ m :: after)).compileAt config depth := by
  unfold slotAt at h
  rw [compileAt, compileAt, compileSlots_eq_map, compileSlots_eq_map]
  simp only [List.map_append, List.map_cons, h]

/-- **Nodes with one compilation have one in every context.** -/
theorem Context.compileAt_fill_congr {n m : Node} (C : Context)
    (h : n.compileAt config (depth + C.depth) = m.compileAt config (depth + C.depth))
    (hoptions : n.options = m.options) :
    (C.fill n).compileAt config depth = (C.fill m).compileAt config depth := by
  induction C generalizing depth with
  | hole => exact h
  | pattern alignment before inside after ih =>
      have hinside := @ih (depth + 1) (by rwa [Nat.add_right_comm])
      refine Node.compileAt_pattern_congr alignment before after ?_
      rw [Node.slotAt, Node.slotAt, hinside, inside.options_fill hoptions]
  | group inside options location ih =>
      have hinside := @ih (depth + 1) (by rwa [Nat.add_right_comm])
      rw [fill, fill, Node.compileAt, Node.compileAt, hinside]
  | stretch amount inside ih =>
      have hinside := @ih (depth + 1) (by rwa [Nat.add_right_comm])
      rw [fill, fill, Node.compileAt, Node.compileAt, hinside]
  | scale name inside ih =>
      have hinside := @ih (depth + 1) (by rwa [Nat.add_right_comm])
      rw [fill, fill, Node.compileAt, Node.compileAt, hinside]
  | unknown kind before inside after ih =>
      rw [fill, fill, Node.compileAt, Node.compileAt]

/-! ### An operator and a node -/

namespace Node

/-- An element around a tree, with the operator of a stretch. -/
def stretched (amount : Rat) (location : Option SourceSpan) (n : Node) : Node :=
  group n (some { Options.empty with operator := some (.stretch amount) }) location

end Node

/-- The operator of a stretch does what it says, if that can be done, and leaves nothing to
report. -/
theorem Score.decorated_operator_stretch (amount : Rat) (score : Score) :
    decorated score (some { Options.empty with operator := some (.stretch amount) })
      = if 0 < amount then .ok (Pattern.slow amount score, [])
        else .error (.invalidStretchAmount amount) := by
  have hstretch : stretch score (.stretch amount)
      = if 0 < amount then .ok (Pattern.slow amount score)
        else .error (.invalidStretchAmount amount) := rfl
  show ((stretch score (.stretch amount)).map (fun s => (s, [])) >>=
    fun r => pure (r.1, r.2 ++ [])) = _
  rw [hstretch]
  by_cases hpos : 0 < amount
  · rw [if_pos hpos, if_pos hpos]
    rfl
  · rw [if_neg hpos, if_neg hpos]
    rfl

namespace Node

variable {amount : Rat} {location : Option SourceSpan} {n : Node}

/-- Where the stretch can be done, both are the same in a slot. -/
theorem slotAt_stretched (hpos : 0 < amount) :
    (n.stretched amount location).slotAt config depth
      = (stretch amount (some n)).slotAt config depth := by
  rcases Nat.lt_or_ge config.maxDepth depth with hdeep | hdepth
  · rw [slotAt, slotAt, compileAt_too_deep _ hdeep, compileAt_too_deep _ hdeep]
    rfl
  · rw [slotAt, slotAt, stretched, compileAt_group _ _ _ hdepth, compileAt_stretch _ hdepth hpos]
    cases n.compileAt config (depth + 1) with
    | error e => rfl
    | ok c =>
        simp only [options, Compilation.slot, Score.decorated_operator_stretch, if_pos hpos]
        rfl

/-- Where the stretch cannot be done, the operator fails, if nothing did before. -/
theorem fails_stretched (h : amount ≤ 0) : (n.stretched amount location).Fails config depth := by
  rcases Nat.lt_or_ge config.maxDepth depth with hdeep | hdepth
  · exact .inl ⟨_, compileAt_too_deep _ hdeep⟩
  · rw [Fails, stretched, compileAt_group _ _ _ hdepth]
    cases n.compileAt config (depth + 1) with
    | error e => exact .inl ⟨e, rfl⟩
    | ok c =>
        refine .inr ⟨c, .invalidStretchAmount amount, rfl, ?_⟩
        rw [options, Score.decorated_operator_stretch, if_neg (Rat.not_lt.mpr h)]

/-- Where the stretch cannot be done, the node fails. -/
theorem fails_stretch (h : amount ≤ 0) : (stretch amount (some n)).Fails config depth := by
  rcases Nat.lt_or_ge config.maxDepth depth with hdeep | hdepth
  · exact .inl ⟨_, compileAt_too_deep _ hdeep⟩
  · exact .inl ⟨_, compileAt_stretch_of_nonpos n hdepth h⟩

variable (C : Context) (alignment : Alignment) (before after : List Node)

theorem compile_stretched (hpos : 0 < amount) :
    config.compile (C.fill (.pattern alignment (before ++ n.stretched amount location :: after)))
      = config.compile
          (C.fill (.pattern alignment (before ++ .stretch amount (some n) :: after))) := by
  have hslot : (n.stretched amount location).slotAt config (0 + C.depth + 1)
      = (stretch amount (some n)).slotAt config (0 + C.depth + 1) := slotAt_stretched hpos
  have hpattern := compileAt_pattern_congr alignment before after hslot
  unfold Config.compile Config.tryCompile
  rw [C.compileAt_fill_congr hpattern rfl]

theorem haps_compile_stretched (q : Query) :
    q.haps (config.compile (C.fill
        (.pattern alignment (before ++ n.stretched amount location :: after)))).pattern
      = q.haps (config.compile (C.fill
          (.pattern alignment (before ++ .stretch amount (some n) :: after)))).pattern := by
  by_cases hpos : 0 < amount
  · rw [compile_stretched C alignment before after hpos]
  · have hsilent : ∀ m : Node, m.Fails config (0 + C.depth + 1) →
        (m.slotAt config (0 + C.depth + 1)).pattern = Pattern.silence :=
      fun m hm => hm.slotAt_pattern
    have hslots : KeptAt (fun _ => true) config (0 + C.depth)
        (.pattern alignment (before ++ .stretch amount (some n) :: after))
        (.pattern alignment (before ++ n.stretched amount location :: after)) := by
      refine keptAt_pattern (fun _ _ => rfl) (fun _ _ => rfl) ?_
      rw [hsilent _ (fails_stretched (Rat.not_lt.mp hpos)),
        hsilent _ (fails_stretch (Rat.not_lt.mp hpos))]
      exact Pattern.kept_silence
    rw [(C.keptAt_fill (fun _ _ => rfl) hslots).haps_compile q, List.filter_true]

end Node

/-! ### The same tree at other places -/

/-- The same event from another place. -/
def Hap.located {α : Type} (g : SourceSpan → SourceSpan) (h : Hap α) : Hap α :=
  { h with source := h.source.map g }

theorem Hap.located_id {α : Type} (h : Hap α) : h.located id = h := by
  rw [located, Option.map_id_fun, id]

/-- A tree is put together as it is at other places. -/
theorem Node.alike_located (g : SourceSpan → SourceSpan) (n : Node) :
    n.Alike (fun v place v' place' => v' = v ∧ place' = place.map g) Eq (n.located g) := by
  induction n using Node.induction with
  | pattern alignment children ih =>
      rw [located, locatedAll_eq_map]
      exact .pattern (List.forall₂_map_right_iff.mpr (List.forall₂_same.mpr ih))
  | scalar value options location =>
      by_cases hrest : value = Value.rest
      · rw [hrest]
        exact .rest rfl
      · exact .scalar hrest hrest ⟨rfl, rfl⟩ rfl
  | group child options location ih => exact .group ih rfl
  | stretch amount child ih =>
      cases child with
      | none => exact .emptyStretch
      | some child => exact .stretch (ih child rfl)
  | scale name child ih =>
      cases child with
      | none => exact .emptyScale
      | some child => exact .scale rfl (ih child rfl)
  | unknown kind children ih => exact .unknown

/-- **A tree at other places plays the same from other places.** -/
theorem Node.haps_compile_located (config : Config) (g : SourceSpan → SourceSpan) (n : Node)
    (q : Query) :
    q.haps (config.compile (n.located g)).pattern
      = (q.haps (config.compile n).pattern).map (Hap.located g) := by
  have hscale : Scale.Respect config (fun v place v' place' => v' = v ∧ place' = place.map g)
      Eq := by
    rintro name _ rfl v place _ _ ⟨rfl, rfl⟩
    exact ⟨rfl, rfl⟩
  have halike := (n.alike_located g).haps_compile hscale q
  have hequal : List.Forall₂ (fun h k => Hap.located g h = k) (q.haps (config.compile n).pattern)
      (q.haps (config.compile (n.located g)).pattern) := by
    refine halike.imp fun h k hhk => ?_
    obtain ⟨whole, part, value, source⟩ := k
    obtain ⟨hwhole, hpart, hvalue, hsource⟩ := hhk
    dsimp only at hwhole hpart hvalue hsource
    rw [Hap.located, hwhole, hpart, hvalue, hsource]
  have hmapped := List.forall₂_map_left_iff.mpr hequal
  rw [List.forall₂_eq_eq_eq] at hmapped
  exact hmapped.symm

/-! ### A mark and a call -/

open Notation (IsBody SameStretch inBrackets behindCall callShift layersToNodes changed placeFrom)
open Notation.Written (Gap Mark Call Decimal)

namespace Config

/-- Both texts are read, the one as bare notation, and the other plays the same from places that
are `distance` bytes further on. -/
def PlaysFurtherOn (config : Config) (distance : Nat) (bare full : String) : Prop :=
  ∃ tree tree', Node.ofMini bare = .ok tree ∧ Node.ofNotation full = .ok tree' ∧
    ∀ q : Query, q.haps (config.compile tree').pattern
      = (q.haps (config.compile tree).pattern).map (Hap.located (SourceSpan.moved distance))

/-- Counted from behind the bracket, the places in brackets are those of the body. -/
theorem changed_moved (d : Nat) : changed (SourceSpan.moved d) d = id := by
  funext place
  simp [changed, placeFrom, SourceSpan.moved]

/-- A body plays the same in brackets with a mark and in quotes with a call. -/
theorem playsFurtherOn_of_sameStretch (config : Config) {m : Mark} {c : Call} {amount : Rat}
    {g : Gap} {body : List Char} {ls : List (List Notation.Step)} {ns : List Node}
    (hsame : SameStretch m c amount) (hbody : IsBody body (Notation.Written.bodyOffset 0 g) ls)
    (hns : layersToNodes 0 ls = .ok ns) {bare full : String}
    (hbare : bare.toList = inBrackets g body m) (hfull : full.toList = behindCall c g body)
    (hahead : Notation.Reader.Stops Notation.Reader.isSpace (behindCall c g body)) :
    config.PlaysFurtherOn (callShift c) bare full := by
  refine ⟨_, _, Notation.ofMini_inBrackets hsame hbody hns hbare,
    Notation.ofNotation_behindCall hsame hbody hns hfull hahead, fun q => ?_⟩
  let plain : Node := .sequence [.stretch amount (some (Notation.ofLayers ns))]
  -- The element with a mark stands for a node in its place, and that is `plain` where it stands.
  have hmarked : q.haps (config.compile (.sequence [((Notation.ofLayers ns).located
        (changed (SourceSpan.moved 1) 1)).stretched amount
          (some (Notation.placeOf 0 (Notation.Written.bracketed g body .empty)))])).pattern
      = q.haps (config.compile (plain.located (changed (SourceSpan.moved 1) 1))).pattern :=
    Node.haps_compile_stretched .hole .horizontal [] [] q
  have hcalled := plain.haps_compile_located config (SourceSpan.moved (callShift c)) q
  rw [Node.haps_compile_located, changed_moved, List.map_congr_left fun h _ => h.located_id,
    List.map_id'] at hmarked
  exact hcalled.trans (congrArg (List.map _) hmarked.symm)

/--
**A stretch may be asked for in three ways.**  In a slot of a pattern node, wherever in a tree
it stands, an element with the operator of a stretch and a node of its own play the same; where
the amount is positive, they also report the same, then and later.  And whatever can be read as
bare notation plays the same in brackets with a mark behind it and in quotes with a call in
front, except that its places are further on there by as much as the body is.
-/
theorem stretches_agree (config : Config) :
    (∀ (C : Context) (alignment : Alignment) (before after : List Node) (amount : Rat)
        (location : Option SourceSpan) (n : Node),
      let withOperator :=
        C.fill (.pattern alignment (before ++ n.stretched amount location :: after))
      let withNode :=
        C.fill (.pattern alignment (before ++ .stretch amount (some n) :: after))
      (∀ q : Query, q.haps (config.compile withOperator).pattern
        = q.haps (config.compile withNode).pattern) ∧
      (0 < amount → config.compile withOperator = config.compile withNode)) ∧
    (∀ (body : String) (tree : Node), Node.ofMini body = .ok tree → ∀ n : Decimal,
      let number := String.ofList n.chars
      let distance := 8 + Notation.bytes n.chars
      config.PlaysFurtherOn distance ("[" ++ body ++ "]/" ++ number)
        ("slow " ++ number ++ " $ \"" ++ body ++ "\"") ∧
      config.PlaysFurtherOn distance ("[" ++ body ++ "]*" ++ number)
        ("fast " ++ number ++ " $ \"" ++ body ++ "\"")) := by
  constructor
  · intro C alignment before after amount location n
    exact ⟨fun q => Node.haps_compile_stretched C alignment before after q,
      fun hpos => Node.compile_stretched C alignment before after hpos⟩
  · intro body tree htree n number distance
    obtain ⟨g, cs, ls, ns, htext, hbody, hns⟩ := Notation.exists_body_of_ofMini htree
    constructor
    · have hdistance : callShift (.slow Notation.blank n) = Notation.bytes n.chars + 8 := rfl
      rw [show distance = callShift (.slow Notation.blank n) by omega]
      refine playsFurtherOn_of_sameStretch config (Notation.sameStretch_slow n) hbody hns ?_ ?_ ?_
      · simp [number, htext, Notation.inBrackets_eq, Mark.chars]
      · simp [number, htext, Notation.behindCall_eq, Call.chars, Notation.blank]
      · exact Notation.Reader.stops_cons rfl _
    · have hdistance : callShift (.fast Notation.blank n) = Notation.bytes n.chars + 8 := rfl
      rw [show distance = callShift (.fast Notation.blank n) by omega]
      refine playsFurtherOn_of_sameStretch config (Notation.sameStretch_fast n) hbody hns ?_ ?_ ?_
      · simp [number, htext, Notation.inBrackets_eq, Mark.chars]
      · simp [number, htext, Notation.behindCall_eq, Call.chars, Notation.blank]
      · exact Notation.Reader.stops_cons rfl _

/-- A stretch below a scale, beside another step, and a body without white space between its
steps. -/
theorem stretches_agree_unspaced :
    let C : Context := .scale "C:major" .hole
    let letter (s : String) : Node := .scalar (.text s) none none
    (0 : Rat) < 3 / 2 ∧
      Config.default.compile (C.fill (.pattern .vertical
          ([letter "1"] ++ (letter "2").stretched (3 / 2) (some ⟨0, 4⟩) :: [])))
        = Config.default.compile (C.fill (.pattern .vertical
            ([letter "1"] ++ .stretch (3 / 2) (some (letter "2")) :: []))) ∧
      Node.ofMini "c[d]" = .ok (.sequence [.scalar (.text "c") none (some ⟨0, 1⟩),
        .group (.sequence [.scalar (.text "d") none (some ⟨2, 3⟩)]) none (some ⟨1, 4⟩)]) ∧
      Config.default.PlaysFurtherOn 12 "[c[d]]/-2.5" "slow -2.5 $ \"c[d]\"" ∧
      Config.default.PlaysFurtherOn 12 "[c[d]]*-2.5" "fast -2.5 $ \"c[d]\"" := by
  intro C letter
  let n : Decimal := ⟨true, .single '2' rfl, some (.single '5' rfl)⟩
  have hpos : (0 : Rat) < 3 / 2 := by norm_num
  have hread : Node.ofMini "c[d]" = .ok (.sequence [.scalar (.text "c") none (some ⟨0, 1⟩),
      .group (.sequence [.scalar (.text "d") none (some ⟨2, 3⟩)]) none (some ⟨1, 4⟩)]) := rfl
  obtain ⟨hslot, htexts⟩ := stretches_agree Config.default
  exact ⟨hpos, (hslot C .vertical _ [] _ _ (letter "2")).2 hpos, hread, (htexts "c[d]" _ hread n).1,
    (htexts "c[d]" _ hread n).2⟩

end Config

end CyclePatterns

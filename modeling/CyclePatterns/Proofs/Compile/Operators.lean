/-
Operators one behind the other.

An element holds one operator, so behind a word with several each one but the last is put
into a group of its own, two levels above the one before.  None of this can be heard: the
groups hold one element each, and speeds that are asked for one after another come to their
product.  The induction is over the marks, from the innermost operator outwards; what it
carries is that the element built so far has one compilation at every depth at which it has
room.
-/
import CyclePatterns.Proofs.Compile.Stretches
import CyclePatterns.Proofs.Pattern.Speed

namespace CyclePatterns

open Notation (placeOf bytes)
open Notation.Written (Mark Word Decimal IsHead marksChars marksCounts decorate)

/-! ### What marks ask for -/

namespace Notation.Written.Mark

/-- The number behind a star. -/
def times? : Mark → Option Rat
  | fast n => some n.value
  | _ => none

/-- The number behind a slash. -/
def over? : Mark → Option Rat
  | slow n => some n.value
  | _ => none

/-- The speed that marks ask for together. -/
def speed (marks : List Mark) : Rat :=
  (marks.filterMap times?).prod / (marks.filterMap over?).prod

/-- A number behind a star or a slash is positive. -/
def Possible (m : Mark) : Prop :=
  ∀ r, m.times? = some r ∨ m.over? = some r → 0 < r

/-- What there is to say about an operator: a stretch that cannot be done fails in its slot,
and an operator that is no stretch is not implemented. -/
def findings : Mark → List Diagnostic
  | fast n => if 0 < n.value then [] else [.subtreeFailed (.invalidStretchAmount (1 / n.value))]
  | slow n => if 0 < n.value then [] else [.subtreeFailed (.invalidStretchAmount n.value)]
  | fixedStep _ => [.unimplementedOperator "fixed-step"]
  | degrade _ => [.unimplementedOperator "degrade"]
  | weight _ | replicate _ | euclid _ _ _ => []

/-- The speed that one mark asks for. -/
def rate : Mark → Rat
  | fast n => n.value
  | slow n => n.value⁻¹
  | fixedStep _ | degrade _ | weight _ | replicate _ | euclid _ _ _ => 1

theorem speed_nil : speed [] = 1 :=
  div_one 1

theorem speed_cons (m : Mark) (marks : List Mark) :
    speed (m :: marks) = m.rate * speed marks := by
  cases m with
  | fast n => exact mul_div_assoc _ _ _
  | slow n =>
      have hover : (slow n :: marks).filterMap over? = n.value :: marks.filterMap over? := rfl
      rw [speed, hover, List.prod_cons, mul_comm, div_mul_eq_div_div, div_eq_inv_mul]
      rfl
  | fixedStep _ | degrade _ | weight _ | replicate _ | euclid _ _ _ => exact (one_mul _).symm

/-- A mark can be done if the speed that it asks for can be. -/
theorem possible_iff (m : Mark) : m.Possible ↔ 0 < m.rate := by
  cases m with
  | fast n => exact ⟨fun h => h _ (.inl rfl), fun h r hr => by simp_all [times?, over?, rate]⟩
  | slow n =>
      rw [rate, inv_pos]
      exact ⟨fun h => h _ (.inr rfl), fun h r hr => by simp_all [times?, over?]⟩
  | fixedStep _ | degrade _ | weight _ | replicate _ | euclid _ _ _ =>
      exact ⟨fun _ => zero_lt_one, fun _ r hr => by simp [times?, over?] at hr⟩

theorem speed_pos {marks : List Mark} (h : ∀ m ∈ marks, m.Possible) : 0 < speed marks := by
  induction marks with
  | nil => exact speed_nil ▸ zero_lt_one
  | cons m marks ih =>
      rw [List.forall_mem_cons] at h
      rw [speed_cons]
      exact mul_pos (m.possible_iff.mp h.1) (ih h.2)

end Notation.Written.Mark

/-! ### An operator in its slot -/

namespace Compilation

/-- A compilation in a slot, with an operator. -/
def operated (c : Compilation) (o : Operator) : Compilation :=
  slot (some { Options.empty with operator := some o }) (.ok c)

theorem operated_stretch (c : Compilation) (amount : Rat) :
    c.operated (.stretch amount) = ⟨c.pattern.slow amount, c.diagnostics ++
      if 0 < amount then [] else [.subtreeFailed (.invalidStretchAmount amount)]⟩ := by
  rw [operated, slot, Score.decorated_operator_stretch]
  by_cases hpos : 0 < amount
  · rw [if_pos hpos, if_pos hpos]
  · have hsilent : c.pattern.slow amount = Pattern.silence := by
      rw [Pattern.slow_eq_fast, Pattern.fast_of_nonpos (inv_nonpos.mpr (Rat.not_lt.mp hpos))]
    rw [if_neg hpos, if_neg hpos, hsilent]

theorem operated_of_ne_stretch (c : Compilation) {o : Operator} (h : o.kind ≠ "stretch") :
    c.operated o = ⟨c.pattern, c.diagnostics ++ [.unimplementedOperator o.kind]⟩ := by
  have hunknown : Score.operator? o.kind = none := by
    rw [Score.operator?_eq, if_neg h]
  have hdecorated : Score.decorated c.pattern (some { Options.empty with operator := some o })
      = .ok (c.pattern, [.unimplementedOperator o.kind]) := by
    simp only [Score.decorated, hunknown]
    rfl
  rw [operated, slot, hdecorated]

/-- A compilation with what a mark asks for, and with what there is to say about that last. -/
def asked (c : Compilation) (m : Mark) : Compilation :=
  ⟨c.pattern.fast m.rate, c.diagnostics ++ m.findings⟩

/-- A slot does what the mark of its operator asks for. -/
theorem operated_of_mark (c : Compilation) {m : Mark} {o : Operator} (h : m.operator? = some o) :
    c.operated o = c.asked m := by
  cases m with
  | fast n =>
      cases h
      rw [operated_stretch, Pattern.slow_eq_fast, one_div, inv_inv, asked, Mark.rate, Mark.findings,
        one_div]
      simp only [inv_pos]
  | slow n =>
      cases h
      rw [operated_stretch, Pattern.slow_eq_fast]
      rfl
  | fixedStep n =>
      have hkind : "fixed-step" ≠ "stretch" := by decide
      cases h
      rw [operated_of_ne_stretch c hkind, asked, Mark.rate, Pattern.fast_one]
      rfl
  | degrade n =>
      have hkind : "degrade" ≠ "stretch" := by decide
      cases h
      rw [operated_of_ne_stretch c hkind, asked, Mark.rate, Pattern.fast_one]
      rfl
  | weight _ | replicate _ | euclid _ _ _ => cases h

theorem diagnostics_foldl_asked (c : Compilation) (marks : List Mark) :
    (marks.foldl asked c).diagnostics = c.diagnostics ++ marks.flatMap Mark.findings := by
  induction marks generalizing c with
  | nil => exact (List.append_nil _).symm
  | cons m marks ih => rw [List.foldl_cons, ih, asked, List.flatMap_cons, List.append_assoc]

theorem pattern_foldl_asked (c : Compilation) {marks : List Mark}
    (h : ∀ m ∈ marks, m.Possible) :
    (marks.foldl asked c).pattern = c.pattern.fast (Mark.speed marks) := by
  induction marks generalizing c with
  | nil => rw [Mark.speed_nil, Pattern.fast_one, List.foldl_nil]
  | cons m marks ih =>
      rw [List.forall_mem_cons] at h
      have hm : 0 < m.rate := m.possible_iff.mp h.1
      rw [List.foldl_cons, ih _ h.2, asked, Mark.speed_cons,
        Pattern.fast_fast hm (Mark.speed_pos h.2)]

/-- Nothing is heard of what cannot be done, and nothing is heard again behind it. -/
theorem pattern_foldl_asked_silent (c : Compilation) {marks : List Mark}
    (h : c.pattern = Pattern.silence ∨ ∃ m ∈ marks, ¬ m.Possible) :
    (marks.foldl asked c).pattern = Pattern.silence := by
  induction marks generalizing c with
  | nil => exact h.resolve_right fun ⟨m, hm, _⟩ => List.not_mem_nil hm
  | cons m marks ih =>
      rw [List.foldl_cons]
      refine ih _ ?_
      rcases h with hc | ⟨m', hm', hnot⟩
      · exact .inl (by rw [asked, hc, Pattern.fast_silence])
      · rcases List.mem_cons.mp hm' with rfl | hm'
        · rw [Mark.possible_iff, not_lt] at hnot
          exact .inl (Pattern.fast_of_nonpos hnot _)
        · exact .inr ⟨m', hm', hnot⟩

end Compilation

/-! ### Elements with operators -/

namespace Node

variable {config : Config}

/-- An element with an operator behind it, in a group of its own. -/
theorem compileAt_wrapped {element : Node} {o : Operator} {c : Compilation} {depth : Nat}
    (options : Option Options) (location : Option SourceSpan)
    (hoptions : element.options = some { Options.empty with operator := some o })
    (hroom : depth + 1 ≤ config.maxDepth) (hc : element.compileAt config (depth + 2) = .ok c) :
    (group (sequence [element]) options location).compileAt config depth = .ok (c.operated o) := by
  have hslot : Compilation.slot element.options (element.compileAt config (depth + 2))
      = c.operated o := by rw [hoptions, hc, Compilation.operated]
  rw [compileAt_group _ _ _ (by omega), sequence, compileAt_pattern _ _ hroom, List.map_singleton,
    hslot]
  simp [Compilation.combine, Pattern.fastcat]

/-- What an element plays with operators behind it, where there is room for all of them. -/
theorem slotAt_decorate {place : SourceSpan} {marks : List Mark} {room : Nat}
    {head : Option Options → Node} {c : Compilation} {m : Mark} {o : Operator} (depth : Nat)
    (hhead : IsHead place head)
    (hc : ∀ options depth, depth + room ≤ config.maxDepth →
      (head options).compileAt config depth = .ok c)
    (hm : m.operator? = some o) (hmarks : ∀ m ∈ marks, m.operator?.isSome)
    (hroom : depth + room + 2 * marks.length ≤ config.maxDepth) :
    (decorate place head (some { Options.empty with operator := some o }) marks).slotAt config depth
      = (m :: marks).foldl Compilation.asked c := by
  induction marks generalizing room head c m o with
  | nil =>
      rw [decorate, slotAt, hhead.options, hc _ _ (by omega)]
      exact c.operated_of_mark hm
  | cons m' marks ih =>
      rw [List.forall_mem_cons] at hmarks
      obtain ⟨o', ho'⟩ := Option.isSome_iff_exists.mp hmarks.1
      have hwrapped : ∀ options depth, depth + (room + 2) ≤ config.maxDepth →
          (group (sequence [head (some { Options.empty with operator := some o })]) options
            (some place)).compileAt config depth = .ok (c.asked m) := by
        intro options depth hdepth
        rw [compileAt_wrapped options _ (hhead.options _) (by omega) (hc _ _ (by omega)),
          c.operated_of_mark hm]
      rw [List.length_cons] at hroom
      rw [decorate, ho', List.foldl_cons]
      exact ih (Notation.Written.isHead_group _ place) hwrapped ho' hmarks.2 (by omega)

theorem compile_sequence_one (config : Config) (element : Node) :
    config.compile (sequence [element]) = element.slotAt config 1 := by
  rw [Config.compile, Config.tryCompile, sequence, compileAt_pattern _ _ (Nat.zero_le _)]
  simp [Compilation.orSilenced, Compilation.combine, Pattern.fastcat, slotAt]

end Node

/-! ### A word with operators -/

namespace Notation.Written

/-- A mark that is an operator has no counts. -/
theorem Mark.counts_of_operator {m : Mark} (h : m.operator?.isSome) (off : Nat) :
    m.counts off = [] := by
  cases m with
  | fast _ | slow _ | fixedStep _ | degrade _ => rfl
  | weight _ | replicate _ | euclid _ _ _ => cases h

theorem marksCounts_of_operators {marks : List Mark} (h : ∀ m ∈ marks, m.operator?.isSome)
    (off : Nat) : marksCounts off marks = [] := by
  induction marks generalizing off with
  | nil => rfl
  | cons m marks ih =>
      rw [List.forall_mem_cons] at h
      rw [marksCounts, m.counts_of_operator h.1, ih h.2, List.append_nil]

end Notation.Written

/-- A word with marks is read as one element. -/
theorem Node.ofMini_word (word : Word) {marks : List Mark} (h : ∀ m ∈ marks, m.operator?.isSome) :
    ofMini (String.ofList (word.chars ++ marksChars marks))
      = .ok (sequence [decorate (placeOf 0 word.chars)
          (fun options =>
            .scalar (.text (String.ofList word.chars)) options (some (placeOf 0 word.chars)))
          none marks]) := by
  let written : Notation.Written.Layers := .one (.one (.word word marks))
  have hcounts : ∀ c ∈ written.counts 0, c.2.value ≤ word32Max := by
    have hnone : written.counts 0 = [] := Notation.Written.marksCounts_of_operators h _
    simp [hnone]
  have hread := ofMini_written written .empty .empty trivial hcounts
  rw [Notation.Written.Gap.empty, List.nil_append, List.append_nil] at hread
  exact hread

/--
**Operators one behind the other come to one speed.**  A word with operators behind it is read
as one element, and where each number behind a star or a slash is positive, it plays the word
at the product of the numbers behind stars over the product of those behind slashes.  With any
other such number it is silent.  Each operator is accounted for in the order of the text.
-/
theorem Config.compile_operators (config : Config) {word : Word} {marks : List Mark}
    (hword : word.chars ≠ ['~']) (hne : marks ≠ []) (hmarks : ∀ m ∈ marks, m.operator?.isSome)
    (hdepth : 2 * marks.length - 1 ≤ config.maxDepth) :
    ∃ tree, Node.ofMini (String.ofList (word.chars ++ marksChars marks)) = .ok tree ∧
      ((∀ m ∈ marks, m.Possible) → (config.compile tree).pattern
        = (Pattern.pure (.text (String.ofList word.chars)) (some (placeOf 0 word.chars))).fast
            (Mark.speed marks)) ∧
      ((∃ m ∈ marks, ¬ m.Possible) → (config.compile tree).pattern = Pattern.silence) ∧
      (config.compile tree).diagnostics = marks.flatMap Mark.findings := by
  refine ⟨_, Node.ofMini_word word hmarks, ?_⟩
  let value := Value.text (String.ofList word.chars)
  let place := placeOf 0 word.chars
  have hrest : value.isRest = false := by
    refine decide_eq_false fun hvalue => hword ?_
    exact String.ofList_inj.mp (Value.text.inj hvalue)
  have hscalar : ∀ options depth, depth + 0 ≤ config.maxDepth →
      (Node.scalar value options (some place)).compileAt config depth
        = .ok ⟨Pattern.pure value (some place), []⟩ := by
    intro options depth (hroom : depth ≤ config.maxDepth)
    rw [Node.compileAt_scalar _ _ _ hroom, hrest]
    rfl
  obtain ⟨m, marks, rfl⟩ := List.exists_cons_of_ne_nil hne
  obtain ⟨hm, hrestMarks⟩ := List.forall_mem_cons.mp hmarks
  obtain ⟨o, ho⟩ := Option.isSome_iff_exists.mp hm
  rw [List.length_cons] at hdepth
  have hslot := Node.slotAt_decorate 1 (Notation.Written.isHead_scalar value place)
    hscalar ho hrestMarks (by omega)
  rw [decorate, ho]
  dsimp only [Option.bind_none, Option.getD_none]
  rw [Node.compile_sequence_one, hslot]
  refine ⟨fun h => ?_, fun h => ?_, ?_⟩
  · exact Compilation.pattern_foldl_asked _ h
  · exact Compilation.pattern_foldl_asked_silent _ (.inr h)
  · exact Compilation.diagnostics_foldl_asked _ _

open Notation.Written in
/-- Four operators, two of which are no stretches, and two stretches that cannot be done. -/
theorem Config.compile_operators_twice :
    let word : Word := ⟨['b', 'd'], List.cons_ne_nil _ _, List.all_eq_true.mp rfl⟩
    let digit (c : Char) (h : c.isDigit = true) : Decimal := ⟨false, .single c h, none⟩
    let marks : List Mark := [.fast (digit '2' rfl), .degrade none, .slow (digit '3' rfl),
      .fixedStep (digit '4' rfl)]
    let impossible : List Mark := [.slow ⟨true, .single '1' rfl, none⟩, .fast (digit '0' rfl)]
    word.chars ≠ ['~'] ∧ (marks ≠ [] ∧ impossible ≠ []) ∧
      ((∀ m ∈ marks, m.operator?.isSome) ∧ ∀ m ∈ impossible, m.operator?.isSome) ∧
      (2 * marks.length - 1 ≤ default.maxDepth ∧ 2 * impossible.length - 1 ≤ default.maxDepth) ∧
      (∃ tree, Node.ofMini "bd*2?/3%4" = .ok tree ∧
        (default.compile tree).pattern
          = (Pattern.pure (.text "bd") (some ⟨0, 2⟩)).fast (2 / 3) ∧
        (default.compile tree).diagnostics
          = [.unimplementedOperator "degrade", .unimplementedOperator "fixed-step"]) ∧
      (∃ tree, Node.ofMini "bd/-1*0" = .ok tree ∧
        (default.compile tree).pattern = Pattern.silence ∧
        (default.compile tree).diagnostics
          = [.subtreeFailed (.invalidStretchAmount (-1)),
            .subtreeFailed (.invalidStretchAmount 0)]) := by
  intro word digit marks impossible
  have hword : word.chars ≠ ['~'] := by decide
  have hmarks : ∀ m ∈ marks, m.operator?.isSome := by simp [marks, Mark.operator?]
  have himpossible : ∀ m ∈ impossible, m.operator?.isSome := by simp [impossible, Mark.operator?]
  have hdepth : 2 * marks.length - 1 ≤ default.maxDepth := by decide
  have hdepth' : 2 * impossible.length - 1 ≤ default.maxDepth := by decide
  have hvalues : (digit '2' rfl).value = 2 ∧ (digit '3' rfl).value = 3 ∧ (digit '0' rfl).value = 0 ∧
      (⟨true, .single '1' rfl, none⟩ : Decimal).value = -1 := by decide +kernel
  obtain ⟨htwo, hthree, hzero, hminus⟩ := hvalues
  obtain ⟨tree, hread, hplays, -, hfound⟩ :=
    default.compile_operators hword (List.cons_ne_nil _ _) hmarks hdepth
  obtain ⟨tree', hread', -, hsilent, hfound'⟩ :=
    default.compile_operators hword (List.cons_ne_nil _ _) himpossible hdepth'
  have hpossible : ∀ m ∈ marks, m.Possible := by
    simp [marks, Mark.possible_iff, Mark.rate, htwo, hthree]
  have hnot : ∃ m ∈ impossible, ¬ m.Possible :=
    ⟨_, List.mem_cons_self, by rw [Mark.possible_iff, Mark.rate, hminus]; norm_num⟩
  have hspeed : Mark.speed marks = 2 / 3 := by
    simp only [marks, Mark.speed_cons, Mark.speed_nil, Mark.rate, htwo, hthree]
    norm_num
  refine ⟨hword, ⟨List.cons_ne_nil _ _, List.cons_ne_nil _ _⟩, ⟨hmarks, himpossible⟩,
    ⟨hdepth, hdepth'⟩, ⟨tree, hread, ?_, ?_⟩, tree', hread', hsilent hnot, ?_⟩
  · rw [hplays hpossible, hspeed]
    rfl
  · rw [hfound]
    simp [Mark.findings, htwo, hthree]
  · rw [hfound']
    norm_num [Mark.findings, hzero, hminus]

end CyclePatterns

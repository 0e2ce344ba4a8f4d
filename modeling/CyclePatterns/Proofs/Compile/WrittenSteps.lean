/-
Steps in texts and in numbers.

An integer stands in a text as digits with one sign at most, and zeros may be in front of the
digits and white space around it all.  Below two to the power of 53 its double is the integer
itself, whichever way it came: as a number, or read from such a text.  Only a zero with a minus
becomes another double, and that one stands for zero too.  A scale looks at nothing but the
integer, so it makes the same of both.
-/
import CyclePatterns.Proofs.Binary64.Shortest
import CyclePatterns.Proofs.Compile.Scales
import CyclePatterns.Proofs.Text.Fractions
import CyclePatterns.Proofs.Theory.Steps

namespace CyclePatterns

open Notation.Written (Digits Sign isDigit_not_blank)
open Text (Blank isBlank)

/-! ### Integers in texts -/

/-- An integer as it may stand in a text: one sign at most, and digits, with white space around
them. -/
structure WrittenInt where
  before : List Char
  sign : Sign
  digits : Digits
  after : List Char
  hbefore : Blank before
  hafter : Blank after

namespace WrittenInt

/-- The text of a written integer. -/
def text (w : WrittenInt) : String :=
  String.ofList (w.before ++ (w.sign.chars ++ w.digits.chars) ++ w.after)

/-- The integer that is meant. -/
def value (w : WrittenInt) : Int :=
  if w.sign = .minus then -(w.digits.value : Int) else w.digits.value

/-- The double that is read. -/
def double (w : WrittenInt) : Binary64 :=
  if w.sign = .minus then (Binary64.finite w.digits.value).neg else .finite w.digits.value

/-- An integer as it is written where nothing is put in that might be left out. -/
def ofInt (k : Int) : WrittenInt :=
  ⟨[], if k < 0 then .minus else .unsigned, .ofNat k.natAbs, [], Text.blank_nil, Text.blank_nil⟩

variable {k : Int} {w : WrittenInt}

theorem natAbs_value (w : WrittenInt) : w.value.natAbs = w.digits.value := by
  rw [value]
  split <;> omega

theorem text_ofInt (k : Int) : (ofInt k).text = Text.integer k := by
  refine String.toList_inj.mp ?_
  rw [text, Text.integer, ofInt, String.toList_ofList, List.nil_append, List.append_nil]
  split
  · rw [String.toList_append, Text.toList_natural]
    rfl
  · rw [Text.toList_natural]
    rfl

theorem value_ofInt (k : Int) : (ofInt k).value = k := by
  simp only [value, ofInt, Digits.value_ofNat]
  by_cases hneg : k < 0
  · rw [if_pos hneg, if_pos rfl]
    omega
  · rw [if_neg hneg, if_neg (by decide)]
    omega

theorem value?_double (w : WrittenInt) : w.double.value? = some (w.value : Rat) := by
  rw [double, value]
  split
  · rw [Binary64.neg]
    split
    next hzero =>
      rw [Int.cast_neg, Int.cast_natCast, hzero]
      rfl
    next =>
      rw [Int.cast_neg, Int.cast_natCast]
      rfl
  · rfl

theorem double_ofInt (h : k.natAbs < 2 ^ 53) : (ofInt k).double = Binary64.ofInt k := by
  rw [Binary64.ofInt_of_natAbs_lt h]
  have hvalue := value?_double (ofInt k)
  rw [value_ofInt] at hvalue
  simp only [double, ofInt, Digits.value_ofNat] at hvalue ⊢
  by_cases hneg : k < 0
  · have hne : ((k.natAbs : Nat) : Rat) ≠ 0 := by
      rw [Nat.cast_ne_zero]
      omega
    rw [if_pos hneg, if_pos rfl, Binary64.neg, if_neg hne] at hvalue ⊢
    exact congrArg Binary64.finite (Option.some.inj hvalue)
  · rw [if_neg hneg, if_neg (by decide)] at hvalue ⊢
    exact congrArg Binary64.finite (Option.some.inj hvalue)

theorem not_blank_of_mem (w : WrittenInt) :
    ∀ c ∈ w.sign.chars ++ w.digits.chars, isBlank c = false := by
  intro c hc
  rcases List.mem_append.mp hc with hc | hc
  · cases hsign : w.sign <;> rw [hsign] at hc
    · exact absurd hc List.not_mem_nil
    all_goals
      rw [List.mem_singleton.mp hc]
      rfl
  · exact isDigit_not_blank (w.digits.digits c hc)

/-- **A written integer names its double**, with any white space around it. -/
theorem asNumber?_text (h : w.value.natAbs < 2 ^ 53) :
    (Value.text w.text).asNumber? = some w.double := by
  rw [natAbs_value] at h
  have hfinite : w.double.isFinite = true := by
    rw [Binary64.isFinite, value?_double]
    rfl
  rw [Value.asNumber?, text, String.toList_ofList, Text.trim_surrounded w.hbefore w.hafter,
    Text.trim_eq_self w.not_blank_of_mem, Binary64.ofChars?_signed _ _ h]
  exact Option.filter_some_pos hfinite

end WrittenInt

/-- On both sides of the bound an integer is shown with its digits. -/
theorem Value.display_ofInt {k : Int} (h : k.natAbs < 2 ^ 53) :
    (number (Binary64.ofInt k)).display = Text.integer k := by
  have hplain := Binary64.text_plain_ofInt h
  rw [Binary64.ofInt_of_natAbs_lt h] at hplain ⊢
  rw [display, Binary64.value?]
  simp only
  split
  · rw [Rat.num_intCast]
  · exact hplain

/-! ### Steps -/

namespace Scale

variable {k : Int} {v v' : Value} {step step' : Binary64}

/-- What a scale makes of a value that names a number. -/
theorem mapValue_of_asNumber? (tonic : Pitch) (intervals : List Interval)
    (h : v.asNumber? = some step) :
    mapValue tonic intervals v
      = match stepToPitch tonic intervals step with
        | some p => (.text p.name, [])
        | none => (v, [.scaleStepOutOfRange v.display]) := by
  cases hp : stepToPitch tonic intervals step with
  | some p => simp only [mapValue, h, hp]
  | none => simp only [mapValue, h, hp]

/-- Doubles that stand for one integer are one step. -/
theorem stepToPitch_congr (tonic : Pitch) (intervals : List Interval)
    (h : step.value? = some (k : Rat)) (h' : step'.value? = some (k : Rat)) :
    stepToPitch tonic intervals step = stepToPitch tonic intervals step' := by
  rw [stepToPitch, stepToPitch, h, h', Binary64.toInt64_of_value? h, Binary64.toInt64_of_value? h']

theorem pitch?_congr (config : Config) (name : String) (hv : v.asNumber? = some step)
    (hv' : v'.asNumber? = some step') (h : step.value? = some (k : Rat))
    (h' : step'.value? = some (k : Rat)) :
    pitch? config name v = pitch? config name v' := by
  simp only [pitch?, hv, hv', Option.bind_eq_bind, Option.bind_some]
  exact congrArg _ (funext fun intervals => stepToPitch_congr _ intervals h h')

/-- A scale makes the text of a pitch of a value that names one, and leaves the others. -/
theorem valueOn_eq (config : Config) (name : String) (v : Value) :
    valueOn config name v = ((pitch? config name v).map fun p => .text p.name).getD v := by
  unfold valueOn
  cases hintervals : Scale.intervals (Scale.tokenize name).2 with
  | ok intervals =>
      simp only [mapValue_eq_seen hintervals, Origin.seen, Origin.heard, Origin.pitch?,
        Option.bind_some]
      cases pitch? config name v <;> rfl
  | error e =>
      rw [pitch?, hintervals]
      rfl

end Scale

/-- The trees differ at most in leaves that carry one value here and another one there, in places,
and in options other than a stretch. -/
def Node.SameBut (v v' : Value) : Node → Node → Prop :=
  Node.Alike (fun u _ u' _ => u = u' ∨ u = v ∧ u' = v') fun name name' => name = name'

/-- Under a scale on which two values are the same pitch, trees that are the same but for these
values sound the same. -/
theorem Node.SameBut.haps_scale {config : Config} {v v' : Value}
    (hpitch : ∀ name, Scale.pitch? config name v = Scale.pitch? config name v') {name : String}
    (hsome : (Scale.pitch? config name v).isSome = true) {tree tree' : Node}
    (h : tree.SameBut v v' tree') (q : Query) :
    List.Forall₂ (fun h h' => h.whole = h'.whole ∧ h.part = h'.part ∧ h.value = h'.value)
      (q.haps (config.compile (.scale name (some tree))).pattern)
      (q.haps (config.compile (.scale name (some tree'))).pattern) := by
  -- Another scale further down may know no pitch for either value, and leaves them as they are.
  have hscale : Scale.Respect config (fun u _ u' _ => u = u' ∨ u = v ∧ u' = v')
      fun name name' => name = name' := by
    rintro inner _ rfl u _ u' _ (rfl | ⟨rfl, rfl⟩)
    · exact .inl rfl
    · rw [Scale.valueOn_eq, Scale.valueOn_eq, hpitch inner]
      cases Scale.pitch? config inner u' with
      | some p => exact .inl rfl
      | none => exact .inr ⟨rfl, rfl⟩
  have hvalue : ∀ u (place : Option SourceSpan) u' (place' : Option SourceSpan),
      (u = u' ∨ u = v ∧ u' = v') →
        Scale.valueOn config name u = Scale.valueOn config name u' := by
    rintro u - u' - (rfl | ⟨rfl, rfl⟩)
    · rfl
    · obtain ⟨p, hp⟩ := Option.isSome_iff_exists.mp hsome
      simp only [Scale.valueOn_eq, ← hpitch name, hp, Option.map_some, Option.getD_some]
  have hhaps := Node.Alike.haps_scale (S := fun u _ u' _ => u = u') hscale h hvalue q
  exact hhaps.imp fun _ _ halike => ⟨halike.whole, halike.part, halike.carried⟩

namespace Scale

/--
**Steps in texts and in numbers agree.**  Below two to the power of 53 a scale takes an integer
for the same step whether it is given as a number or as a text: it makes the same pitch of both,
or leaves both as they are and says that they are out of range.  What a number shows of an
integer is its digits, and they name it again.  So trees in which a step that has a pitch is
written instead of given as a number sound the same under the scale.
-/
theorem steps_agree {k : Int} (hk : k.natAbs < 2 ^ 53) {w : WrittenInt} (hw : w.value = k) :
    let number := Value.number (Binary64.ofInt k)
    let text := Value.text w.text
    (∀ (tonic : Pitch) (intervals : List Interval),
      (∃ p, stepToPitch tonic intervals (Binary64.ofInt k) = some p ∧
        mapValue tonic intervals number = (.text p.name, []) ∧
        mapValue tonic intervals text = (.text p.name, [])) ∨
      (stepToPitch tonic intervals (Binary64.ofInt k) = none ∧
        mapValue tonic intervals number = (number, [.scaleStepOutOfRange number.display]) ∧
        mapValue tonic intervals text = (text, [.scaleStepOutOfRange text.display]))) ∧
    number.display = Text.integer k ∧
    (Value.text number.display).asNumber? = some (Binary64.ofInt k) ∧
    (Binary64.ofInt k).value? = some (k : Rat) ∧
    ∀ (config : Config) (name : String) (tree tree' : Node),
      (pitch? config name number).isSome = true → tree.SameBut number text tree' → ∀ q : Query,
      List.Forall₂ (fun h h' => h.whole = h'.whole ∧ h.part = h'.part ∧ h.value = h'.value)
        (q.haps (config.compile (.scale name (some tree))).pattern)
        (q.haps (config.compile (.scale name (some tree'))).pattern) := by
  intro number text
  have hvalue : (Binary64.ofInt k).value? = some (k : Rat) := by
    rw [Binary64.ofInt_of_natAbs_lt hk, Binary64.value?]
  have hnumber : number.asNumber? = some (Binary64.ofInt k) := rfl
  have htext : text.asNumber? = some w.double := WrittenInt.asNumber?_text (hw.symm ▸ hk)
  have hdouble : w.double.value? = some (k : Rat) := hw ▸ w.value?_double
  have hdisplay : number.display = Text.integer k := Value.display_ofInt hk
  refine ⟨fun tonic intervals => ?_, hdisplay, ?_, hvalue, ?_⟩
  · rw [mapValue_of_asNumber? tonic intervals hnumber, mapValue_of_asNumber? tonic intervals htext,
      stepToPitch_congr tonic intervals hdouble hvalue]
    cases stepToPitch tonic intervals (Binary64.ofInt k) with
    | some p => exact .inl ⟨p, rfl, rfl, rfl⟩
    | none => exact .inr ⟨rfl, rfl, rfl⟩
  · rw [hdisplay, ← WrittenInt.text_ofInt, WrittenInt.asNumber?_text, WrittenInt.double_ofInt hk]
    rwa [WrittenInt.value_ofInt]
  · intro config name tree tree' hsome hsame q
    exact hsame.haps_scale
      (fun name => pitch?_congr config name hnumber htext hvalue hdouble) hsome q

/-- The ninth step down from C4 in C major, in a sequence with another step. -/
theorem steps_agree_below_zero :
    let digits : Digits := ⟨['0', '9'], List.cons_ne_nil _ _, List.all_eq_true.mp rfl⟩
    let w : WrittenInt :=
      ⟨[' '], .minus, digits, ['\t'], List.all_eq_true.mp rfl, List.all_eq_true.mp rfl⟩
    let number := Value.number (Binary64.ofInt (-9))
    let text := Value.text w.text
    let major : List Interval := [⟨0, 0⟩, ⟨1, 2⟩, ⟨2, 4⟩, ⟨3, 5⟩, ⟨4, 7⟩, ⟨5, 9⟩, ⟨6, 11⟩]
    let tree (v : Value) : Node := .sequence [.scalar v none none, .scalar (.text "2") none none]
    let answer (n : Node) := (Query.arc ⟨0, 1⟩).haps (Config.default.compile n).pattern
    (-9 : Int).natAbs < 2 ^ 53 ∧ w.value = -9 ∧ w.text = " -09\t" ∧
      mapValue Pitch.c4 major number = (.text "A2", []) ∧
      mapValue Pitch.c4 major text = (.text "A2", []) ∧
      (Value.text number.display).asNumber? = some (Binary64.ofInt (-9)) ∧
      (pitch? Config.default "C4 major" number).isSome = true ∧
      (tree number).SameBut number text (tree text) ∧
      List.Forall₂ (fun h h' => h.whole = h'.whole ∧ h.part = h'.part ∧ h.value = h'.value)
        (answer (.scale "C4 major" (some (tree number))))
        (answer (.scale "C4 major" (some (tree text)))) := by
  intro digits w number text major tree answer
  have hk : (-9 : Int).natAbs < 2 ^ 53 := by decide
  have hw : w.value = -9 := by decide
  have hstep : stepToPitch Pitch.c4 major (Binary64.ofInt (-9)) = some ⟨.a, 0, some 2⟩ := by
    decide +kernel
  have hsome : (pitch? Config.default "C4 major" number).isSome = true := by decide +kernel
  have hsame : (tree number).SameBut number text (tree text) := by
    refine .pattern (.cons (.scalar ?_ ?_ (.inr ⟨rfl, rfl⟩) rfl)
      (.cons (.scalar ?_ ?_ (.inl rfl) rfl) .nil))
    all_goals decide
  obtain ⟨hmap, -, hshown, -, htrees⟩ := steps_agree hk hw
  obtain ⟨p, hp, hnumber, htext⟩ | ⟨hnone, -⟩ := hmap Pitch.c4 major
  · obtain rfl := Option.some.inj (hp.symm.trans hstep)
    have hname : Pitch.name ⟨.a, 0, some 2⟩ = "A2" := by decide
    rw [hname] at hnumber htext
    exact ⟨hk, hw, rfl, hnumber, htext, hshown, hsome, hsame,
      htrees _ _ _ _ hsome hsame (.arc ⟨0, 1⟩)⟩
  · rw [hstep] at hnone
    cases hnone

end Scale

end CyclePatterns

/-
What is read is what matches.

Each reader of the grammar follows the rule of the same name, and the counts that the rule keeps
are those of the value.  So a text is read if and only if it matches, and its counts are found
in the order of the text.
-/
import CyclePatterns.Proofs.Notation.Following

namespace CyclePatterns.Notation

open Reader

/-! ### Counts -/

/-- The counts of a suffix. -/
def Suffix.counts : Suffix → List Numeral
  | replicate n => n.toList
  | euclid pulses steps rotation => pulses :: steps :: rotation.toList
  | fast _ | slow _ | fixedStep _ | degrade _ | weight _ => []

mutual
/-- The counts of a step, in the order of the text. -/
def Step.counts : Step → List Numeral
  | .word _ _ suffixes => suffixes.flatMap Suffix.counts
  | .bracket layers _ suffixes => layersCounts layers ++ suffixes.flatMap Suffix.counts
termination_by structural s => s

/-- The counts of the steps of a layer. -/
def stepsCounts : List Step → List Numeral
  | [] => []
  | s :: rest => s.counts ++ stepsCounts rest
termination_by structural ss => ss

/-- The counts of layers. -/
def layersCounts : List (List Step) → List Numeral
  | [] => []
  | steps :: rest => stepsCounts steps ++ layersCounts rest
termination_by structural ls => ls
end

/-- The counts of an expression. -/
def Expression.counts : Expression → List Numeral
  | quoted layers => layersCounts layers
  | application _ operand => operand.counts

theorem stepsCounts_eq (ss : List Step) : stepsCounts ss = ss.flatMap Step.counts := by
  induction ss with
  | nil => rw [stepsCounts, List.flatMap_nil]
  | cons s rest ih => rw [stepsCounts, ih, List.flatMap_cons]

theorem layersCounts_eq (ls : List (List Step)) : layersCounts ls = ls.flatMap stepsCounts := by
  induction ls with
  | nil => rw [layersCounts, List.flatMap_nil]
  | cons s rest ih => rw [layersCounts, ih, List.flatMap_cons]

/-! ### Inside quotes -/

section

variable {P : Char → Prop} (hP : ∀ d, d ≠ '"' → P d) {n : Nat}
include hP

theorem follows_digits : Follows P n (run1 Char.isDigit) Rules.digits Keepless :=
  follows_run1 (of_quoteless hP rfl)

theorem follows_number : Follows P n number Rules.number Keepless := by
  have hsign : Follows P n (optional (exactly '-')) (.opt (.exactly '-')) Keepless :=
    (follows_exactly (hP _ (by decide))).optional (fun _ _ hts => hts) rfl
  have hdecimals : Follows P n decimals (.seq (.exactly '.') Rules.digits) Keepless :=
    (follows_exactly (hP _ (by decide))).bind fun _ _ hts =>
      (follows_digits hP).bind_pure _ fun _ us hus => by
        rw [hts, hus]
        rfl
  have hplaces : Follows P n (optional decimals) (.opt (.seq (.exactly '.') Rules.digits))
      Keepless := hdecimals.optional (fun _ _ hts => hts) rfl
  exact (hsign.bind fun _ _ hts => (follows_digits hP).bind fun _ _ hus =>
    hplaces.bind_pure _ fun _ _ hvs => by
      rw [hts, hus, hvs]
      rfl).placed.rule

theorem follows_count : Follows P n count Rules.count fun k ts => ts = [k] := by
  have hdigits : Follows P n count Rules.digits Keepless := (follows_digits hP).placed.rule
  refine ⟨fun hn hnone => .kept_fails (hdigits.fails hn hnone), fun {c k last} hn hk => ?_,
    hdigits.looks⟩
  obtain ⟨ts, hts, -, hpass⟩ := hdigits.takes hn hk
  obtain ⟨cs, hrest, hoffset, w, rfl, rfl⟩ := takesOnly_count _ _ _ _ hk
  exact ⟨_, .kept hts ⟨hrest, hoffset⟩, rfl, hpass⟩

/-! ### Suffixes -/

theorem follows_signed {sign : Char} (hsign : P sign) {make : Numeral → Suffix}
    (hmake : ∀ k, (make k).counts = []) :
    Follows P n (signed sign make) (.seq (.exactly sign) Rules.number) fun a ts => ts = a.counts :=
  Follows.rule ((follows_exactly hsign).bind fun _ _ hts => (follows_number hP).bind_pure _
    fun _ us hus => by
      rw [hts, hus, hmake]
      rfl)

omit hP in
theorem follows_signedOptional {sign : Char} (hsign : P sign) {p : Reader Numeral} {g : Peg}
    {S : Numeral → List Numeral → Prop} (hp : Follows P n p g S) {make : Option Numeral → Suffix}
    (hsome : ∀ k ts, S k ts → ts = (make (some k)).counts) (hnone : (make none).counts = []) :
    Follows P n (signedOptional sign p make) (.seq (.exactly sign) (.opt g))
      fun a ts => ts = a.counts := by
  have hoptional : Follows P n (optional p) (.opt g) fun k ts => ts = (make k).counts :=
    hp.optional hsome hnone.symm
  exact Follows.rule ((follows_exactly hsign).bind fun _ _ hts => hoptional.bind_pure _
    fun _ us hus => by
      rw [hts, hus]
      rfl)

theorem follows_commaCount : Follows P n commaCount Rules.commaCount fun k ts => ts = [k] :=
  (follows_exactly (hP _ (by decide))).spaced hP fun _ _ hts => (follows_count hP).imp
    fun _ us hus => by
      rw [hts, hus]
      rfl

theorem follows_euclid : Follows P n euclid Rules.euclid fun a ts => ts = a.counts := by
  have hrotation : Follows P n (optional commaCount) (.opt Rules.commaCount)
      fun k ts => ts = k.toList :=
    (follows_commaCount hP).optional (fun _ _ hts => hts) rfl
  exact Follows.rule ((follows_exactly (hP _ (by decide))).spaced hP fun _ _ hts =>
    (follows_count hP).spaced hP fun _ _ hus => (follows_commaCount hP).spaced hP fun _ _ hvs =>
      hrotation.spaced hP fun _ _ hws => (follows_exactly (hP _ (by decide))).bind_pure _
        fun _ xs hxs => by
          rw [hts, hus, hvs, hws, hxs]
          simp [Suffix.counts])

theorem follows_suffix : Follows P n suffix Rules.suffix fun a ts => ts = a.counts := by
  have hsigns : ∀ d ∈ ['*', '/', '%', '?', '@', '!'], P d :=
    fun d hd => hP d (by rintro rfl; revert hd; decide)
  simp only [List.forall_mem_cons] at hsigns
  obtain ⟨hfast, hslow, hfixed, hdegrade, hweight, hreplicate, -⟩ := hsigns
  have hoptional : Follows P n (signedOptional '?' number .degrade)
      (.seq (.exactly '?') (.opt Rules.number)) fun a ts => ts = a.counts :=
    follows_signedOptional hdegrade (follows_number hP) (fun _ _ hts => hts) rfl
  have hcount : Follows P n (signedOptional '!' count .replicate)
      (.seq (.exactly '!') (.opt Rules.count)) fun a ts => ts = a.counts :=
    follows_signedOptional hreplicate (follows_count hP) (fun _ _ hts => hts) rfl
  exact (follows_signed hP hfast fun _ => rfl).orElse <|
    (follows_signed hP hslow fun _ => rfl).orElse <|
    (follows_signed hP hfixed fun _ => rfl).orElse <|
    hoptional.orElse <| (follows_signed hP hweight fun _ => rfl).orElse <|
    hcount.orElse (follows_euclid hP)

/-! ### Steps and layers -/

theorem follows_wordHead : Follows P n wordHead (.plus (.char isStepChar)) fun head ts =>
    ∀ suffixes, ts ++ suffixes.flatMap Suffix.counts = (head suffixes).counts :=
  Follows.rule (.position fun _ => ((follows_run1 (of_quoteless hP rfl)).bind fun _ _ hts =>
    .position fun _ => follows_pure fun suffixes => by
      rw [hts, Step.counts]
      rfl).congr Derives.of_seq_empty)

variable {body : Reader (List (List Step))}

theorem follows_bracketHead
    (hbody : Follows P n body (.ref .layers) fun ls ts => ts = layersCounts ls) :
    Follows P (n + 1) (bracketHead body) Rules.bracket fun head ts =>
      ∀ suffixes, ts ++ suffixes.flatMap Suffix.counts = (head suffixes).counts := by
  have hopen : P '[' := hP _ (by decide)
  have hclose : P ']' := hP _ (by decide)
  refine Follows.rule (.position fun start => (follows_exactly hopen).spaced_of_consumes hP rfl
    fun _ _ hts => hbody.spaced hP fun ls _ hus =>
      ((follows_exactly hclose).bind fun _ _ hvs => .position fun stop =>
        follows_pure fun suffixes => ?_).congr Derives.of_seq_empty)
  rw [hts, hus, hvs, Step.counts]
  simp

theorem follows_step
    (hbody : Follows P n body (.ref .layers) fun ls ts => ts = layersCounts ls) :
    Follows P (n + 1) (step body) Rules.step fun s ts => ts = s.counts :=
  Follows.rule (((follows_wordHead hP).orElse (follows_bracketHead hP hbody)).bind fun _ _ hts =>
    ((follows_suffix hP).many rfl).bind_pure _ fun _ _ hus => by
      rw [hus]
      exact hts _)

theorem follows_layer
    (hbody : Follows P n body (.ref .layers) fun ls ts => ts = layersCounts ls) :
    Follows P (n + 1) (layer body) Rules.layer fun ss ts => ts = stepsCounts ss :=
  Follows.rule ((follows_step hP hbody).spaced hP fun _ _ hts =>
    ((follows_step hP hbody).manySpaced hP rfl).bind_pure _ fun _ us hus => by
      rw [hts, hus, stepsCounts_eq, List.flatMap_cons])

theorem follows_commaLayer
    (hbody : Follows P n body (.ref .layers) fun ls ts => ts = layersCounts ls) :
    Follows P (n + 1) (commaLayer body) Rules.commaLayer fun ss ts => ts = stepsCounts ss :=
  (follows_exactly (hP _ (by decide))).spaced hP fun _ _ hts => (follows_layer hP hbody).imp
    fun _ us hus => by
      rw [hts, hus]
      rfl

theorem follows_layers (n : Nat) :
    Follows P n (layers n) (.ref .layers) fun ls ts => ts = layersCounts ls := by
  induction n with
  | zero => exact follows_zero
  | succ n ih =>
      exact Follows.ref (Follows.rule ((follows_layer hP ih).spaced hP fun _ _ hts =>
        ((follows_commaLayer hP ih).manySpaced hP rfl).bind_pure _ fun _ us hus => by
          rw [hts, hus, layersCounts_eq, List.flatMap_cons]))

/-! ### Calls and expressions -/

theorem follows_name : Follows P n name Rules.name Keepless :=
  Follows.rule ((follows_char (of_quoteless hP rfl)).bind fun _ _ hts =>
    (follows_run (of_quoteless hP rfl)).bind_pure _ fun _ _ hus => by
      rw [hts, hus]
      rfl)

theorem follows_quoted {depth : Nat} (hquote : P '"') (h : n ≤ depth) :
    Follows P n (quoted depth) Rules.quoted fun e ts => ts = e.counts :=
  Follows.rule ((follows_exactly hquote).spaced hP fun _ _ hts =>
    ((follows_layers hP depth).of_le h).spaced hP fun _ _ hus =>
      (follows_exactly hquote).bind_pure _ fun _ _ hvs => by
        rw [hts, hus, hvs, Expression.counts]
        exact List.append_nil _)

end

/-- Any character may be passed. -/
abbrev Anything (_ : Char) : Prop :=
  True

section

variable {n : Nat}

theorem follows_quotedText : Follows Anything n quotedText Rules.quotedText Keepless :=
  Follows.rule ((follows_exactly trivial).bind fun _ _ hts =>
    (follows_run fun _ _ => trivial).bind fun _ _ hus =>
      (follows_exactly trivial).bind_pure _ fun _ _ hvs => by
        rw [hts, hus, hvs]
        rfl)

theorem follows_numberCall (w : String) (make : Numeral → Call) :
    Follows Anything n (numberCall w make) (Rules.numberCall w) Keepless :=
  Follows.rule ((follows_word fun _ _ => trivial).spaced (fun _ _ => trivial) fun _ _ hts =>
    (follows_number fun _ _ => trivial).bind_pure _ fun _ _ hus => by
      rw [hts, hus]
      rfl)

theorem follows_scaleCall : Follows Anything n scaleCall Rules.scaleCall Keepless :=
  Follows.rule ((follows_word fun _ _ => trivial).spaced (fun _ _ => trivial) fun _ _ hts =>
    follows_quotedText.bind_pure _ fun _ _ hus => by
      rw [hts, hus]
      rfl)

theorem follows_argument : Follows Anything n argument Rules.argument Keepless :=
  ((follows_number fun _ _ => trivial).bind_pure (fun _ => ()) fun _ _ hts => hts).orElse <|
    (follows_quotedText.bind_pure (fun _ => ()) fun _ _ hts => hts).orElse <|
      (follows_name fun _ _ => trivial).bind_pure (fun _ => ()) fun _ _ hts => hts

theorem follows_namedCall : Follows Anything n namedCall Rules.namedCall Keepless := by
  have hargument : Follows Anything n argument Rules.argument fun _ ts => ts = [] :=
    follows_argument
  have harguments := Follows.manySpaced (f := fun _ => []) (fun _ _ => trivial) hargument rfl
  exact Follows.rule ((follows_name fun _ _ => trivial).spaced (fun _ _ => trivial) fun _ _ hts =>
    harguments.bind_pure _ fun as us hus => by
      rw [hts, hus]
      exact List.flatMap_eq_nil_iff.mpr fun _ _ => rfl)

theorem follows_call : Follows Anything n call Rules.call Keepless :=
  (follows_numberCall _ _).orElse <| (follows_numberCall _ _).orElse <|
    follows_scaleCall.orElse follows_namedCall

theorem follows_expression {depth : Nat} (h : n ≤ depth) :
    Follows Anything n (expression depth n) (.ref .expression) fun e ts => ts = e.counts := by
  induction n with
  | zero => exact follows_zero
  | succ n ih =>
      refine Follows.ref (Follows.orElse (Follows.rule (follows_call.spaced (fun _ _ => trivial)
        fun f _ hts => (follows_exactly trivial).spaced_of_consumes (fun _ _ => trivial) rfl
          fun _ _ hus => (ih (Nat.le_of_succ_le h)).bind_pure _ fun _ _ hvs => ?_))
        (follows_quoted (fun _ _ => trivial) trivial h))
      rw [hts, hus, hvs]
      rfl

theorem follows_program :
    Follows Anything n (program n n) Rules.program fun e ts => ts = e.counts :=
  Follows.rule (Follows.space_bind (fun _ _ => trivial)
    ((follows_expression (Nat.le_refl n)).spaced (fun _ _ => trivial) fun _ _ hts =>
      follows_atEnd.rule.bind_pure _ fun _ _ hus => by
        rw [hts, hus]
        exact List.append_nil _))

end

/-! ### Whole texts -/

section

variable {text : List Char} {counts : List Numeral}

/-- A text is read with room for all its characters. -/
theorem follows_text (text : List Char) :
    Follows Anything (text.length + 1) (program (text.length + 1) (text.length + 1)) Rules.program
      fun e ts => ts = e.counts :=
  follows_program

theorem rest_length_lt (text : List Char) : (Cursor.mk 0 text).rest.length < text.length + 1 :=
  Nat.lt_succ_self _

theorem matches_of_parse {e : Expression} (h : parse text = .ok e) : Matches text e.counts := by
  rw [parse] at h
  split at h
  · next found last hresult =>
      obtain rfl := Except.ok.inj h
      obtain ⟨ts, hts, rfl, -⟩ := (follows_text text).takes (rest_length_lt text) hresult
      exact ⟨last, hts⟩
  · cases h

/-- **A text is read if and only if it matches**, and the counts of what is read are those of
the text. -/
theorem exists_parse_iff_matches :
    (∃ e, parse text = .ok e ∧ e.counts = counts) ↔ Matches text counts := by
  constructor
  · rintro ⟨e, h, rfl⟩
    exact matches_of_parse h
  · rintro ⟨last, h⟩
    cases hparse : parse text with
    | ok e =>
        obtain ⟨last', h'⟩ := matches_of_parse hparse
        obtain ⟨-, rfl⟩ := Prod.mk.inj (Option.some.inj (h'.unique h))
        exact ⟨e, rfl, rfl⟩
    | error offset =>
        rw [parse] at hparse
        split at hparse
        · cases hparse
        · next hresult =>
            cases h.unique ((follows_text text).fails (rest_length_lt text) hresult)

/-- What the rule for numbers takes is a number. -/
theorem exists_decimal_of_derives {c last : Cursor} {ts : List Numeral} {cs : List Char}
    (h : Derives Rules.number c (some (last, ts))) (hcs : Between c last cs) :
    ∃ n : Written.Decimal, cs = n.chars := by
  have hfollows : Follows Anything (c.rest.length + 1) number Rules.number Keepless :=
    follows_number fun _ _ => trivial
  cases hresult : (number c).result with
  | none => cases h.unique (hfollows.fails (Nat.lt_succ_self _) hresult)
  | some found =>
      obtain ⟨us, hus, -, -⟩ := hfollows.takes (Nat.lt_succ_self _) hresult
      obtain ⟨rfl, -⟩ := Prod.mk.inj (Option.some.inj (h.unique hus))
      obtain ⟨ds, hds, -, n, rfl, -⟩ := takesOnly_number _ _ _ _ hresult
      exact ⟨n, List.append_cancel_right (hcs.rest_eq.symm.trans hds)⟩

/-! ### Where reading fails -/

/-- A text that is not read fails at a place in it. -/
theorem exists_of_parse_error {offset : Nat} (h : parse text = .error offset) :
    ∃ front back, text = front ++ back ∧ offset = bytes front := by
  rw [parse] at h
  split at h
  · cases h
  · obtain rfl := Except.error.inj h
    rcases (follows_text text).looks (rest_length_lt text) with hzero | ⟨last, ⟨cs, hcs, -⟩, hlast⟩
    · exact ⟨[], text, rfl, hzero⟩
    · exact ⟨cs, last.rest, hcs.rest_eq, by rw [hlast, hcs.offset_eq, Nat.zero_add]⟩

end

end CyclePatterns.Notation

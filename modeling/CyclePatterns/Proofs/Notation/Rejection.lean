/-
Where a text is rejected, and why.

A text that does not match the grammar is rejected at a place in it.  This is so as well where
quotes are put around it: nothing inside them is read past the second one, and behind that only
the end of the text is asked for.  A text that matches is rejected only for a count that does not
fit into 32 bits, and at the first of these.
-/
import CyclePatterns.Proofs.Notation.Matching
import CyclePatterns.Proofs.Notation.Places

namespace CyclePatterns.Notation

open Reader

/-! ### Where reading in quotes fails -/

/-- The offset is that of a place in the text, and not of its end. -/
def BeforeEnd (text : List Char) (offset : Nat) : Prop :=
  ∃ front back, text = front ++ back ∧ back ≠ [] ∧ offset = bytes front

theorem BeforeEnd.unquoted {text : List Char} {offset : Nat}
    (h : BeforeEnd ('"' :: text ++ ['"']) offset) :
    ∃ front back, text = front ++ back ∧ offset - 1 = bytes front := by
  obtain ⟨front, back, htext, hback, rfl⟩ := h
  obtain ⟨more, d, rfl⟩ := (List.eq_nil_or_concat' back).resolve_left hback
  rw [← List.append_assoc] at htext
  have hmore : '"' :: text = front ++ more := (List.append_inj' htext rfl).1
  cases front with
  | nil => exact ⟨[], text, rfl, rfl⟩
  | cons c front =>
      obtain ⟨rfl, rfl⟩ := List.cons.inj hmore
      have hsize : ('"').utf8Size = 1 := rfl
      exact ⟨front, more, rfl, by rw [bytes_cons, hsize, Nat.add_sub_cancel_left]⟩

/-- No call begins with a quote. -/
theorem call_quote (rest : List Char) : call ⟨0, '"' :: rest⟩ = ⟨none, 0⟩ := rfl

section

variable {text : List Char}

theorem beforeEnd_zero (text : List Char) : BeforeEnd ('"' :: text ++ ['"']) 0 :=
  ⟨[], _, rfl, List.cons_ne_nil _ _, rfl⟩

/-- Without passing a quote the end is not reached. -/
theorem beforeEnd_of_looksAt {offset : Nat}
    (h : LooksAt (· ≠ '"') ⟨1, text ++ ['"']⟩ offset) :
    BeforeEnd ('"' :: text ++ ['"']) offset := by
  rcases h with rfl | ⟨last, ⟨cs, hcs, hquote⟩, rfl⟩
  · exact beforeEnd_zero text
  · refine ⟨'"' :: cs, last.rest, congrArg _ hcs.rest_eq, fun hend => ?_, ?_⟩
    · have htext := hcs.rest_eq
      rw [hend, List.append_nil] at htext
      exact hquote '"' (htext ▸ List.mem_append_right _ List.mem_cons_self) rfl
    · have hsize : ('"').utf8Size = 1 := rfl
      rw [hcs.offset_eq, bytes_cons, hsize]

theorem beforeEnd_farthest_space (c : Cursor) :
    BeforeEnd ('"' :: text ++ ['"']) (space c).farthest := by
  rw [farthest_space]
  exact beforeEnd_zero text

theorem beforeEnd_farthest_exactly (d : Char) (c : Cursor) :
    BeforeEnd ('"' :: text ++ ['"']) (exactly d c).farthest := by
  refine farthest_bind ?_ fun _ _ _ => beforeEnd_zero text
  rw [farthest_char]
  exact beforeEnd_zero text

/-- What stands in quotes is looked at as far as the second quote. -/
theorem beforeEnd_farthest_quoted {depth : Nat} (h : (text ++ ['"']).length < depth) :
    BeforeEnd ('"' :: text ++ ['"']) (quoted depth ⟨0, '"' :: text ++ ['"']⟩).farthest := by
  have hquote : (exactly '"' ⟨0, '"' :: text ++ ['"']⟩).result
      = some ((), ⟨1, text ++ ['"']⟩) := rfl
  refine farthest_rule (farthest_bind (beforeEnd_farthest_exactly _ _) fun _ mid hmid => ?_)
    fun _ => beforeEnd_zero text
  obtain ⟨-, rfl⟩ := Prod.mk.inj (Option.some.inj (hquote.symm.trans hmid))
  refine farthest_bind (beforeEnd_farthest_space _) fun _ inner hinner => ?_
  obtain ⟨ts, hts, -, hpass⟩ := (follows_space (P := (· ≠ '"')) fun _ hd => hd).takes h hinner
  have hlayers : Follows (· ≠ '"') depth (layers depth) (.ref .layers)
      fun ls ts => ts = layersCounts ls := follows_layers (fun _ hd => hd) depth
  have hlooks := hlayers.looks (Nat.lt_of_le_of_lt hts.length_le h)
  refine farthest_bind (beforeEnd_of_looksAt (hpass.looksAt hlooks)) fun _ _ _ => ?_
  refine farthest_bind (beforeEnd_farthest_space _) fun _ _ _ => ?_
  exact farthest_bind (beforeEnd_farthest_exactly _ _) fun _ _ _ => beforeEnd_zero text

/-- A text in quotes that is not read fails at a place before its end: behind the second quote
nothing more is asked for. -/
theorem beforeEnd_of_parse_error {offset : Nat} (h : parse ('"' :: text ++ ['"']) = .error offset) :
    BeforeEnd ('"' :: text ++ ['"']) offset := by
  have hzero := beforeEnd_zero text
  rw [parse] at h
  split at h
  · cases h
  obtain rfl := Except.error.inj h
  have hspace : (space ⟨0, '"' :: text ++ ['"']⟩).result
      = some ((), ⟨0, '"' :: text ++ ['"']⟩) := result_space _
  refine farthest_rule (farthest_bind (beforeEnd_farthest_space _) fun _ mid hmid => ?_)
    fun _ => hzero
  obtain ⟨-, rfl⟩ := Prod.mk.inj (Option.some.inj (hspace.symm.trans hmid))
  refine farthest_bind ?_ fun e mid hmid => ?_
  · refine farthest_orElse (farthest_rule (farthest_bind ?_ fun f mid hmid => ?_) fun _ => hzero)
      fun _ => beforeEnd_farthest_quoted ?_
    · rw [List.cons_append, call_quote]
      exact hzero
    · rw [List.cons_append, call_quote] at hmid
      cases hmid
    · rw [List.cons_append, List.length_cons]
      omega
  · obtain ⟨cs, htext, hoffset, -⟩ := takesOnly_expression _ _ _ _ _ _ hmid
    refine farthest_bind (beforeEnd_farthest_space _) fun _ last hlast => ?_
    obtain ⟨ds, hds, hoffset', -⟩ := takesOnly_space _ _ _ hlast
    refine farthest_bind (farthest_rule ?_ fun hnone => ?_) fun _ _ _ => hzero
    · rw [farthest_atEnd]
      exact hzero
    · refine ⟨cs ++ ds, last.rest, ?_, ?_, ?_⟩
      · rw [htext, hds, List.append_assoc]
      · intro hend
        rw [atEnd, hend] at hnone
        cases hnone
      · rw [hoffset', hoffset, bytes_append, Nat.zero_add]

end

/-! ### The first count that does not fit -/

/-- The number that digits name. -/
def Numeral.value (n : Numeral) : Nat :=
  Nat.ofDigitChars 10 n.text 0

namespace Written

/-- A count with its place in a text that has `lead` bytes more in front. -/
def counted (lead : Nat) (c : Nat × Digits) : Numeral :=
  c.2.phrase (c.1 + lead)

section

variable (lead : Nat)

theorem padded_offset_add (off : Nat) (n : Padded) :
    n.offset (off + lead) = n.offset off + lead := by
  rw [Padded.offset, Padded.offset, Nat.add_right_comm]

theorem counts_mark (off : Nat) (m : Mark) :
    (m.phrase (off + lead)).counts = (m.counts off).map (counted lead) := by
  cases m with
  | replicate n =>
      cases n with
      | none => rfl
      | some n =>
          rw [Mark.phrase, Nat.add_right_comm]
          rfl
  | euclid pulses steps rotation =>
      rw [Mark.phrase, Nat.add_right_comm, stepsOffset_add, rotationOffset_add, Suffix.counts,
        Mark.counts]
      simp only [Padded.phrase, padded_offset_add]
      cases rotation with
      | none => rfl
      | some r =>
          simp only [Option.map_some, Option.toList_some, Padded.phrase, padded_offset_add]
          rfl
  | fast n => rfl
  | slow n => rfl
  | fixedStep n => rfl
  | degrade n => rfl
  | weight n => rfl

theorem counts_marks (off : Nat) (marks : List Mark) :
    (marksPhrase (off + lead) marks).flatMap Suffix.counts
      = (marksCounts off marks).map (counted lead) := by
  induction marks generalizing off with
  | nil => rfl
  | cons m rest ih =>
      rw [marksPhrase, List.flatMap_cons, counts_mark, Nat.add_right_comm, ih, marksCounts,
        List.map_append]

mutual
/-- The counts of what a step says are the counts that are written in it. -/
theorem counts_step (off : Nat) (s : Step) :
    (s.phrase (off + lead)).counts = (s.counts off).map (counted lead) := by
  cases s with
  | word text marks =>
      rw [Step.phrase, Notation.Step.counts, Nat.add_right_comm, counts_marks, Step.counts]
  | bracket before body after marks =>
      rw [Step.phrase, Notation.Step.counts, bodyOffset_add, counts_layers, Nat.add_right_comm,
        counts_marks, Step.counts, List.map_append]

theorem counts_steps (off : Nat) (ss : Steps) :
    stepsCounts (ss.phrase (off + lead)) = (ss.counts off).map (counted lead) := by
  cases ss with
  | one first =>
      rw [Steps.phrase, stepsCounts, counts_step, stepsCounts, List.append_nil, Steps.counts]
  | more first gap rest =>
      rw [Steps.phrase, stepsCounts, counts_step, restOffset_add, counts_steps, Steps.counts,
        List.map_append]

theorem counts_layers (off : Nat) (ls : Layers) :
    layersCounts (ls.phrase (off + lead)) = (ls.counts off).map (counted lead) := by
  cases ls with
  | one first =>
      rw [Layers.phrase, layersCounts, counts_steps, layersCounts, List.append_nil, Layers.counts]
  | more first before after rest =>
      rw [Layers.phrase, layersCounts, counts_steps, nextOffset_add, counts_layers, Layers.counts,
        List.map_append]
end

theorem counts_expression (off : Nat) (e : Expression) :
    (e.phrase (off + lead)).counts = (e.counts off).map (counted lead) := by
  induction e generalizing off with
  | quoted before body after =>
      rw [Expression.phrase, bodyOffset_add, Notation.Expression.counts, counts_layers]
      rfl
  | application call before after operand ih =>
      rw [Expression.phrase, Notation.Expression.counts, operandOffset_add, ih]
      rfl

end

/-- Where something is wrong with counts it is the first that does not fit. -/
theorem exists_first_of_within {α : Type} (lead : Nat) {counts : List (Nat × Digits)} {v : α}
    {e : NotationError} (h : within counts v = .error e) :
    ∃ before n after, counts.map (counted lead) = before ++ n :: after ∧
      (∀ m ∈ before, m.value ≤ word32Max) ∧ word32Max < n.value ∧
        n.text ≠ [] ∧ (∀ d ∈ n.text, d.isDigit = true) ∧ e = .count (placeFrom lead n.place) := by
  rw [within, overflow?] at h
  cases hfind : counts.find? fun c => word32Max < c.2.value with
  | none =>
      rw [hfind] at h
      cases h
  | some c =>
      rw [hfind] at h
      obtain ⟨hc, before, after, rfl, hbefore⟩ := List.find?_eq_some_iff_append.mp hfind
      refine ⟨before.map (counted lead), counted lead c, after.map (counted lead), ?_, ?_, ?_,
        c.2.nonempty, c.2.digits, ?_⟩
      · rw [List.map_append, List.map_cons]
      · rw [List.forall_mem_map]
        intro m hm
        have hfits : m.2.value ≤ word32Max := by simpa using hbefore m hm
        exact hfits
      · exact of_decide_eq_true hc
      · rw [counted, Digits.phrase, placeFrom_placeOf]
        exact (Except.error.inj h).symm

end Written

/-- What is no quote stands inside the quotes of a text. -/
theorem exists_of_append_eq_quoted {front cs back text : List Char}
    (h : front ++ (cs ++ back) = '"' :: text ++ ['"']) (hempty : cs ≠ [])
    (hquote : ∀ d ∈ cs, d ≠ '"') :
    ∃ front' back', front = '"' :: front' ∧ text = front' ++ (cs ++ back') := by
  cases front with
  | nil =>
      obtain ⟨d, rest, rfl⟩ := List.exists_cons_of_ne_nil hempty
      exact absurd (List.cons.inj h).1 (hquote d List.mem_cons_self)
  | cons c front =>
      simp only [List.cons_append, List.cons.injEq] at h
      obtain ⟨rfl, htail⟩ := h
      rcases List.eq_nil_or_concat' back with rfl | ⟨back, d, rfl⟩
      · obtain ⟨more, d, rfl⟩ := (List.eq_nil_or_concat' cs).resolve_left hempty
        rw [List.append_nil, ← List.append_assoc] at htail
        have hd := (List.cons.inj (List.append_inj' htail rfl).2).1
        exact absurd hd (hquote d (List.mem_append_right _ List.mem_cons_self))
      · rw [← List.append_assoc, ← List.append_assoc] at htail
        exact ⟨front, back, rfl, by rw [← (List.append_inj' htail rfl).1, List.append_assoc]⟩

end CyclePatterns.Notation

namespace CyclePatterns

open Notation (NotationError Numeral Matches Derives Between parse treeFrom placeFrom bytes)
open Notation.Written (Decimal counted)

/-- A place in a text, between characters. -/
structure InText (text : String) (place : SourceSpan) : Prop where
  start_le_stop : place.start ≤ place.stop
  stop_le : place.stop ≤ text.utf8ByteSize
  isValid_start : String.Pos.Raw.IsValid text ⟨place.start⟩
  isValid_stop : String.Pos.Raw.IsValid text ⟨place.stop⟩

theorem Covers.inText {text : String} {place : SourceSpan} {cs : List Char}
    (h : Covers text place cs) : InText text place :=
  ⟨Nat.le_of_lt h.start_lt_stop, h.stop_le, h.isValid_start, h.isValid_stop⟩

theorem inText_bytes {text : String} {front back : List Char} (h : text.toList = front ++ back) :
    InText text ⟨bytes front, bytes front⟩ where
  start_le_stop := Nat.le_refl _
  stop_le := by
    rw [← String.utf8Len_toList, h, String.utf8Len_append]
    exact Nat.le_add_right _ _
  isValid_start := isValid_bytes h
  isValid_stop := isValid_bytes h

/-- What an error says of a text for which `read` was read, with `lead` bytes in front of it. -/
structure Explains (text : String) (lead : Nat) (read : List Char) (e : NotationError) : Prop where
  /-- The error is at a place of the text. -/
  inText : InText text e.span
  /-- The grammar is to blame where the text does not match. -/
  grammar_iff : (∃ offset, e = .grammar offset) ↔ ¬ ∃ counts, Matches read counts
  /-- Otherwise it is the first count that does not fit, and nothing else. -/
  count_of_matches : ∀ counts, Matches read counts → ∃ n ∈ counts, word32Max < n.value ∧
    (∀ m ∈ counts, word32Max < m.value → n.place.start ≤ m.place.start) ∧
      e = .count (placeFrom lead n.place) ∧ Covers text e.span n.text ∧
        ∀ d ∈ n.text, d.isDigit = true

section

variable {text : String} {lead : Nat} {read : List Char} {e : NotationError}

/-- A text that matches is rejected at its first count that does not fit. -/
theorem explains_count {before after : List Numeral} {n : Numeral}
    (hmatch : Matches read (before ++ n :: after)) (hbefore : ∀ m ∈ before, m.value ≤ word32Max)
    (hn : word32Max < n.value) (hdigits : ∀ d ∈ n.text, d.isDigit = true)
    (hcovers : Covers text (placeFrom lead n.place) n.text) :
    Explains text lead read (.count (placeFrom lead n.place)) where
  inText := hcovers.inText
  grammar_iff := by
    constructor
    · rintro ⟨offset, h⟩
      cases h
    · exact fun hno => absurd ⟨_, hmatch⟩ hno
  count_of_matches counts hcounts := by
    obtain rfl := hcounts.unique hmatch
    refine ⟨n, List.mem_append_right _ List.mem_cons_self, hn, fun m hm hbeyond => ?_, rfl, hcovers,
      hdigits⟩
    rcases List.mem_append.mp hm with hm | hm
    · exact absurd (hbefore m hm) (Nat.not_le.mpr hbeyond)
    rcases List.mem_cons.mp hm with rfl | hm
    · exact Nat.le_refl _
    · exact hmatch.start_le hm

/-- A text that does not match is rejected at a place in it. -/
theorem explains_grammar {offset : Nat} (hparse : parse read = .error offset)
    {front back : List Char} (htext : text.toList = front ++ back)
    (hoffset : offset - lead = bytes front) :
    Explains text lead read (.grammar (offset - lead)) := by
  have hno : ¬ ∃ counts, Matches read counts := by
    rintro ⟨counts, hmatch⟩
    obtain ⟨a, ha, -⟩ := Notation.exists_parse_iff_matches.mpr hmatch
    cases hparse.symm.trans ha
  refine ⟨?_, ⟨fun _ => hno, fun _ => ⟨_, rfl⟩⟩, fun counts hmatch => absurd ⟨counts, hmatch⟩ hno⟩
  rw [NotationError.span, hoffset]
  exact inText_bytes htext

/-- What an error says is found by what is read: how far a text that is not read is read, and
what the counts are of one that is. -/
theorem explains_of_treeFrom (h : treeFrom lead read = .error e)
    (hgrammar : ∀ offset, parse read = .error offset →
      ∃ front back, text.toList = front ++ back ∧ offset - lead = bytes front)
    (hcounts : ∀ a, parse read = .ok a → ∃ counts v, a.counts = counts.map (counted lead) ∧
      a.toNode lead = Notation.Written.within counts v)
    (hcovers : ∀ front cs back, read = front ++ (cs ++ back) → cs ≠ [] →
      (∀ d ∈ cs, d.isDigit = true) →
        Covers text (placeFrom lead (Notation.placeOf (bytes front) cs)) cs) :
    Explains text lead read e := by
  rw [treeFrom] at h
  split at h
  · next a hparse =>
      obtain ⟨counts, v, ha, hnode⟩ := hcounts a hparse
      rw [hnode, Notation.Written.within_map] at h
      obtain ⟨before, n, after, hsplit, hbefore, hn, hempty, hdigits, rfl⟩ :=
        Notation.Written.exists_first_of_within lead h
      have hmatch : Matches read (before ++ n :: after) :=
        hsplit ▸ ha ▸ Notation.matches_of_parse hparse
      obtain ⟨front, back, hread, hplace⟩ :=
        hmatch.exists_front (List.mem_append_right _ List.mem_cons_self)
      have hcover := hcovers front n.text back hread hempty hdigits
      rw [← hplace] at hcover
      exact explains_count hmatch hbefore hn hdigits hcover
  · next offset hparse =>
      obtain rfl := Except.error.inj h
      obtain ⟨front, back, htext, hoffset⟩ := hgrammar offset hparse
      exact explains_grammar hparse htext hoffset

namespace Node

theorem explains_ofNotation (h : ofNotation text = .error e) : Explains text 0 text.toList e := by
  refine explains_of_treeFrom h (fun offset hparse => Notation.exists_of_parse_error hparse)
    (fun a hparse => ?_) fun front cs back htext hempty _ => covers_placeOf htext hempty
  obtain ⟨before, w, after, -, rfl⟩ := Notation.parse_sound hparse
  exact ⟨w.counts (bytes before.chars), _, Notation.Written.counts_expression 0 _ w,
    Notation.Written.toNode_expression 0 _ w⟩

theorem explains_ofMini (h : ofMini text = .error e) :
    Explains text 1 ('"' :: text.toList ++ ['"']) e := by
  refine explains_of_treeFrom h
    (fun offset hparse => (Notation.beforeEnd_of_parse_error hparse).unquoted)
    (fun a hparse => ?_) fun front cs back htext hempty hdigits => ?_
  · obtain ⟨gap, w, gap', htext, rfl⟩ := Notation.parse_sound hparse
    obtain ⟨hgap, before, body, after, rfl, -⟩ := Notation.exists_of_quoted htext
    have hoffset : Notation.Written.bodyOffset (bytes gap.chars) before
        = bytes before.chars + 1 := by
      rw [Notation.Written.bodyOffset, hgap, Notation.bytes_nil, Nat.add_comm, Nat.zero_add]
    rw [Notation.Written.Expression.phrase, hoffset, Notation.Expression.counts]
    exact ⟨body.counts (bytes before.chars), _, Notation.Written.counts_layers 1 _ body,
      Notation.Written.toNode_quoted 1 _ body⟩
  · have hquote : ∀ d ∈ cs, d ≠ '"' := fun d hd => Notation.Written.isDigit_ne (hdigits d hd) rfl
    obtain ⟨front, back, rfl, hinner⟩ :=
      Notation.exists_of_append_eq_quoted htext.symm hempty hquote
    have hsize : ('"').utf8Size = 1 := rfl
    rw [Notation.bytes_cons, hsize, Nat.add_comm, Notation.Written.placeFrom_placeOf]
    exact covers_placeOf hinner hempty

/-- **Where errors are.**  Whenever a text is rejected, as it is or as if quotes stood around it,
the error is at a place between characters of the text as it is given.  It is the grammar that
is to blame where what is read does not match, and only there.  Where it does, some count is too
great for 32 bits, and the error is at the digits of the first of these.  Nothing else can be
wrong: what the grammar takes for a number is read exactly. -/
theorem errors_located (text : String) :
    (∀ e, ofNotation text = .error e → Explains text 0 text.toList e) ∧
    (∀ e, ofMini text = .error e → Explains text 1 ('"' :: text.toList ++ ['"']) e) ∧
    ∀ c last counts cs, Derives Notation.Rules.number c (some (last, counts)) → Between c last cs →
      ∃ n : Decimal, cs = n.chars ∧ Fraction.ofChars? cs = some n.value := by
  refine ⟨fun _ => explains_ofNotation, fun _ => explains_ofMini, fun c last counts cs h hcs => ?_⟩
  obtain ⟨n, rfl⟩ := Notation.exists_decimal_of_derives h hcs
  exact ⟨n, rfl, n.ofChars?_chars⟩

open Notation.Written in
/-- A count that does not fit behind one that does, a bracket that was never opened, and a
number. -/
theorem errors_located_three :
    let great := "c!3 d!4294967296"
    let closed := "c d]"
    let cs := ['-', '1', '.', '5']
    ofMini great = .error (.count ⟨6, 16⟩) ∧ ofMini closed = .error (.grammar 3) ∧
      Explains great 1 ('"' :: great.toList ++ ['"']) (.count ⟨6, 16⟩) ∧
      Explains closed 1 ('"' :: closed.toList ++ ['"']) (.grammar 3) ∧
      ∃ n : Decimal, cs = n.chars ∧ Fraction.ofChars? cs = some n.value := by
  intro great closed cs
  let blank : Gap := ⟨[' '], List.forall_mem_singleton.mpr rfl⟩
  let three := Digits.single '3' rfl
  let beyond : Digits := ⟨"4294967296".toList, by decide, List.all_eq_true.mp rfl⟩
  let w : Layers := .one (.more (.single 'c' rfl [.replicate (some three)]) blank
    (.one (.single 'd' rfl [.replicate (some beyond)])))
  have hgreat : ofMini great = .error (.count ⟨6, 16⟩) := by
    have hspaced : w.Spaced := by
      simp [w, blank, Layers.Spaced, Steps.Spaced, Step.single, Step.Spaced]
    have hread := ofMini_eq_within w .empty .empty hspaced
    have htext : String.ofList (Gap.empty.chars ++ (w.chars ++ Gap.empty.chars)) = great := by
      decide
    have hcounts : w.counts (bytes Gap.empty.chars) = [(2, three), (6, beyond)] := rfl
    rw [htext, hcounts, within_cons, if_pos (by decide), within_cons, if_neg (by decide)] at hread
    exact hread
  have hclosed : ofMini "c d]" = .error (.grammar 3) := by rfl
  have hnumber : (Notation.number ⟨0, cs⟩).result = some (⟨cs, ⟨0, 4⟩⟩, ⟨4, []⟩) := rfl
  have hfollows : Notation.Follows Notation.Anything 5 Notation.number Notation.Rules.number
      Notation.Keepless := Notation.follows_number fun _ _ => trivial
  obtain ⟨ts, hts, -, -⟩ := hfollows.takes (by decide) hnumber
  have hlocated := errors_located great
  exact ⟨hgreat, hclosed, hlocated.2.1 _ hgreat, (errors_located closed).2.1 _ hclosed,
    hlocated.2.2 _ _ _ cs hts ⟨rfl, rfl⟩⟩

end Node

end

end CyclePatterns

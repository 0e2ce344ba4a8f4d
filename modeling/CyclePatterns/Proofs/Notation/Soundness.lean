/-
Whatever is read is written.

Each reader of the grammar takes nothing but texts of the part it is for, and gives what
they say.  So a text that is read is the text of some expression, with white space around
it, and every place that reading finds is a place in that text.
-/
import CyclePatterns.Proofs.Notation.Denoted
import CyclePatterns.Proofs.Notation.Spacing

namespace CyclePatterns.Notation

open Reader
open Written (Digits Decimal Gap Padded Mark Word Name Quotable marksChars marksPhrase bracketed)

section

variable (off : Nat)

/-! ### Numbers -/

theorem takesOnly_digits :
    TakesOnly (run1 Char.isDigit) off fun cs text => text = cs ∧ ∃ n : Digits, cs = n.chars :=
  takesOnly_run1.mono fun _ _ ⟨htext, hempty, hdigits⟩ => ⟨htext, ⟨_, hempty, hdigits⟩, rfl⟩

theorem takesOnly_count :
    TakesOnly count off fun cs k => ∃ n : Digits, cs = n.chars ∧ k = n.phrase off :=
  (takesOnly_digits off).placed.rule.mono fun _ _ ⟨hk, n, hcs⟩ => ⟨n, hcs, by rw [hk, hcs]; rfl⟩

theorem takesOnly_number :
    TakesOnly number off fun cs k => ∃ n : Decimal, cs = n.chars ∧ k = n.phrase off := by
  have hsign : TakesOnly (optional (exactly '-')) off fun cs m =>
      cs = if m.isSome then ['-'] else [] :=
    TakesOnly.optional (takesOnly_exactly.mono fun _ _ hcs => hcs) rfl
  have hplaces : ∀ off, TakesOnly (optional decimals) off fun cs f =>
      f.getD [] = cs ∧ ∃ d : Option Digits, cs = d.elim [] fun d => '.' :: d.chars := by
    refine fun off => TakesOnly.optional (TakesOnly.exactly_bind rfl ?_) ⟨rfl, none, rfl⟩
    refine TakesOnly.bind (takesOnly_digits _) fun cs text ⟨htext, d, hcs⟩ => takesOnly_pure ?_
    rw [List.append_nil]
    exact ⟨congrArg _ htext, some d, congrArg _ hcs⟩
  refine (TakesOnly.placed (Q := fun cs => ∃ n : Decimal, cs = n.chars) ?_).rule.mono
    fun _ _ ⟨hk, n, hcs⟩ => ⟨n, hcs, by rw [hk, hcs]; rfl⟩
  refine TakesOnly.bind hsign fun cs m hcs => TakesOnly.bind (takesOnly_digits _)
    fun ds whole ⟨hwhole, n, hds⟩ => TakesOnly.bind (hplaces _)
      fun es fraction ⟨hfraction, f, hes⟩ => takesOnly_pure ?_
  rw [List.append_nil]
  refine ⟨?_, ⟨m.isSome, n, f⟩, ?_⟩
  · rw [hwhole, hfraction, ← hcs, List.append_assoc]
  · rw [hcs, hds, hes]
    rfl

/-! ### Marks -/

theorem takesOnly_signed {sign : Char} (hsize : sign.utf8Size = 1) (make : Numeral → Suffix) :
    TakesOnly (signed sign make) off fun cs a =>
      ∃ n : Decimal, cs = sign :: n.chars ∧ a = make (n.phrase (off + 1)) := by
  refine (TakesOnly.exactly_bind hsize ?_).rule
  refine TakesOnly.bind (takesOnly_number _) fun cs k ⟨n, hcs, hk⟩ => takesOnly_pure ⟨n, ?_, ?_⟩
  · rw [hcs, List.append_nil]
  · rw [hk]

theorem takesOnly_signedOptional {sign : Char} (hsize : sign.utf8Size = 1) {p : Reader Numeral}
    {ω : Type} {chars : ω → List Char} {phrase : Nat → ω → Numeral}
    (hp : ∀ off, TakesOnly p off fun cs k => ∃ n, cs = chars n ∧ k = phrase off n)
    (make : Option Numeral → Suffix) :
    TakesOnly (signedOptional sign p make) off fun cs a =>
      ∃ n : Option ω, cs = sign :: n.elim [] chars ∧ a = make (n.map (phrase (off + 1))) := by
  have hoptional : TakesOnly (optional p) (off + 1) fun cs k =>
      ∃ n : Option ω, cs = n.elim [] chars ∧ k = n.map (phrase (off + 1)) := by
    refine TakesOnly.optional ((hp _).mono fun cs k ⟨n, hcs, hk⟩ => ⟨some n, hcs, ?_⟩)
      ⟨none, rfl, rfl⟩
    rw [hk, Option.map_some]
  refine (TakesOnly.exactly_bind hsize ?_).rule
  refine TakesOnly.bind hoptional fun cs k ⟨n, hcs, hk⟩ => takesOnly_pure ⟨n, ?_, ?_⟩
  · rw [hcs, List.append_nil]
  · rw [hk]

theorem takesOnly_commaCount :
    TakesOnly commaCount off fun cs k => ∃ (g : Gap) (n : Digits),
      cs = ',' :: (g.chars ++ n.chars) ∧ k = n.phrase (off + 1 + bytes g.chars) :=
  TakesOnly.exactly_bind rfl (TakesOnly.space_bind fun g =>
    (takesOnly_count _).mono fun _ _ ⟨n, hcs, hk⟩ => ⟨g, n, by rw [hcs], hk⟩)

theorem takesOnly_euclid :
    TakesOnly euclid off fun cs a => ∃ (pulses steps : Padded) (rotation : Option Padded),
      cs = (Mark.euclid pulses steps rotation).chars ∧
        a = (Mark.euclid pulses steps rotation).phrase off := by
  have hrotation : ∀ off, TakesOnly (optional commaCount) off fun cs k =>
      ∃ r : Option (Gap × Digits), cs = r.elim [] (fun r => ',' :: (r.1.chars ++ r.2.chars)) ∧
        k = r.map fun r => r.2.phrase (off + 1 + bytes r.1.chars) := by
    refine fun off => TakesOnly.optional ((takesOnly_commaCount off).mono
      fun cs k ⟨g, n, hcs, hk⟩ => ⟨some (g, n), hcs, ?_⟩) ⟨none, rfl, rfl⟩
    rw [hk, Option.map_some]
  refine (TakesOnly.exactly_bind rfl ?_).rule
  refine TakesOnly.space_bind fun g₁ => TakesOnly.bind (takesOnly_count _)
    fun cs₁ k₁ ⟨p, hcs₁, hk₁⟩ => TakesOnly.space_bind fun g₂ =>
    TakesOnly.bind (takesOnly_commaCount _) fun cs₂ k₂ ⟨g₃, s, hcs₂, hk₂⟩ =>
    TakesOnly.space_bind fun g₄ => TakesOnly.bind (hrotation _)
    fun cs₃ k₃ ⟨r, hcs₃, hk₃⟩ => TakesOnly.space_bind fun g₅ =>
    TakesOnly.exactly_bind rfl (takesOnly_pure ?_)
  have hsize : (',').utf8Size = 1 := rfl
  subst hcs₁ hk₁ hcs₂ hk₂ hcs₃ hk₃
  -- White space behind the second comma's count is also read where there is no third one.
  cases r with
  | none =>
      refine ⟨⟨g₁, p, g₂⟩, ⟨g₃, s, g₄.append g₅⟩, none, ?_, ?_⟩
      · simp [Mark.chars, Padded.chars, Gap.append]
      · simp only [Mark.phrase, Mark.stepsOffset, Padded.phrase, Padded.offset, Padded.chars,
          bytes_append, Option.map_none, Nat.add_assoc]
  | some r =>
      refine ⟨⟨g₁, p, g₂⟩, ⟨g₃, s, g₄⟩, some ⟨r.1, r.2, g₅⟩, ?_, ?_⟩
      · simp [Mark.chars, Padded.chars]
      · simp only [Mark.phrase, Mark.stepsOffset, Mark.rotationOffset, Padded.phrase,
          Padded.offset, Padded.chars, bytes_append, bytes_cons, hsize, Option.map_some,
          Nat.add_assoc]

theorem takesOnly_suffix :
    TakesOnly suffix off fun cs a => ∃ m : Mark, cs = m.chars ∧ a = m.phrase off := by
  refine TakesOnly.firstOf ?_
  simp only [List.forall_mem_cons, List.not_mem_nil, IsEmpty.forall_iff, implies_true, and_true]
  refine ⟨?_, ?_, ?_, ?_, ?_, ?_, ?_⟩
  · exact (takesOnly_signed off rfl _).mono fun _ _ ⟨n, h⟩ => ⟨.fast n, h⟩
  · exact (takesOnly_signed off rfl _).mono fun _ _ ⟨n, h⟩ => ⟨.slow n, h⟩
  · exact (takesOnly_signed off rfl _).mono fun _ _ ⟨n, h⟩ => ⟨.fixedStep n, h⟩
  · exact (takesOnly_signedOptional off rfl takesOnly_number _).mono
      fun _ _ ⟨n, h⟩ => ⟨.degrade n, h⟩
  · exact (takesOnly_signed off rfl _).mono fun _ _ ⟨n, h⟩ => ⟨.weight n, h⟩
  · exact (takesOnly_signedOptional off rfl takesOnly_count _).mono
      fun _ _ ⟨n, h⟩ => ⟨.replicate n, h⟩
  · exact (takesOnly_euclid off).mono fun _ _ ⟨p, s, r, h⟩ => ⟨.euclid p s r, h⟩

theorem takesOnly_suffixes :
    TakesOnly (many suffix) off fun cs as =>
      ∃ marks : List Mark, cs = marksChars marks ∧ as = marksPhrase off marks := by
  refine (takesOnly_many takesOnly_suffix off).mono fun cs as h => ?_
  induction h with
  | nil off => exact ⟨[], rfl, rfl⟩
  | cons h _ ih =>
      obtain ⟨m, rfl, rfl⟩ := h
      obtain ⟨marks, rfl, rfl⟩ := ih
      exact ⟨m :: marks, rfl, rfl⟩

/-! ### Steps -/

theorem takesOnly_wordHead :
    TakesOnly wordHead off fun cs head => ∃ w : Word, cs = w.chars ∧
      head = .word w.chars (placeOf off w.chars) := by
  refine (TakesOnly.position (TakesOnly.bind takesOnly_run1 fun cs text ⟨htext, hempty, hchars⟩ =>
    TakesOnly.position (takesOnly_pure ?_))).rule
  rw [List.append_nil, htext]
  exact ⟨⟨cs, hempty, hchars⟩, rfl, rfl⟩

variable {off} {body : Reader (List (List Step))}

/-- What layers are read from, with white space behind. -/
abbrev FromLayers (off : Nat) (cs : List Char) (a : List (List Step)) : Prop :=
  ∃ (ls : Written.Layers) (g : Gap), cs = ls.chars ++ g.chars ∧ a = ls.phrase off

theorem takesOnly_bracketHead (hbody : ∀ off, TakesOnly body off (FromLayers off)) (off : Nat) :
    TakesOnly (bracketHead body) off fun cs head =>
      ∃ (before : Gap) (inner : Written.Layers) (after : Gap),
        cs = bracketed before inner.chars after ∧
          head = .bracket (inner.phrase (Written.bodyOffset off before))
            (placeOf off (bracketed before inner.chars after)) := by
  refine (TakesOnly.position (TakesOnly.exactly_bind rfl (TakesOnly.space_bind fun before =>
    TakesOnly.bind (hbody _) fun cs ls ⟨inner, g, hcs, hls⟩ => TakesOnly.space_bind fun g' =>
    TakesOnly.exactly_bind rfl (TakesOnly.position (takesOnly_pure ?_))))).rule
  have hopen : ('[').utf8Size = 1 := rfl
  have hclose : (']').utf8Size = 1 := rfl
  refine ⟨before, inner, g.append g', ?_, ?_⟩
  · simp [bracketed, Gap.append, hcs]
  · rw [hls, hcs]
    simp only [Written.bodyOffset, placeOf, bracketed, Gap.append, bytes_append, bytes_cons,
      bytes_nil, hopen, hclose, Nat.add_assoc, Nat.add_zero]

theorem takesOnly_step (hbody : ∀ off, TakesOnly body off (FromLayers off)) (off : Nat) :
    TakesOnly (step body) off fun cs a => ∃ s : Written.Step, cs = s.chars ∧ a = s.phrase off := by
  refine (TakesOnly.bind (R := fun cs head => ∀ marks, ∃ s : Written.Step,
    cs ++ marksChars marks = s.chars ∧
      head (marksPhrase (off + bytes cs) marks) = s.phrase off) ?_ ?_).rule
  · refine TakesOnly.orElse ((takesOnly_wordHead off).mono ?_)
      ((takesOnly_bracketHead hbody off).mono ?_)
    · rintro cs head ⟨w, rfl, rfl⟩ marks
      exact ⟨.word w marks, by rw [Written.Step.chars], by rw [Written.Step.phrase]⟩
    · rintro cs head ⟨before, inner, after, rfl, rfl⟩ marks
      exact ⟨.bracket before inner after marks, by rw [Written.Step.chars],
        by rw [Written.Step.phrase]⟩
  · refine fun cs head hhead => TakesOnly.bind (takesOnly_suffixes _)
      fun ds as hmarks => takesOnly_pure ?_
    obtain ⟨marks, hds, has⟩ := hmarks
    obtain ⟨s, hchars, hphrase⟩ := hhead marks
    rw [List.append_nil, hds, has]
    exact ⟨s, hchars, hphrase⟩

/-! ### Layers -/

/-- What a step is read from. -/
abbrev FromStep (off : Nat) (cs : List Char) (a : Step) : Prop :=
  ∃ s : Written.Step, cs = s.chars ∧ a = s.phrase off

/-- What a layer is read from, with white space behind. -/
abbrev FromSteps (off : Nat) (cs : List Char) (a : List Step) : Prop :=
  ∃ (ss : Written.Steps) (g : Gap), cs = ss.chars ++ g.chars ∧ a = ss.phrase off

/-- What a further layer is read from, with white space behind. -/
abbrev FromComma (off : Nat) (cs : List Char) (a : List Step) : Prop :=
  ∃ (after : Gap) (ds : List Char),
    cs = ',' :: (after.chars ++ ds) ∧ FromSteps (off + 1 + bytes after.chars) ds a

/-- Steps that are read one after another, behind a first one, are written steps. -/
theorem exists_steps {start : Nat} {es : List Char} {as : List Step}
    (h : Listed (Behind FromStep) start es as) :
    ∀ (off : Nat) (first : Written.Step) (gap : Gap),
      start = off + bytes (first.chars ++ gap.chars) →
      FromSteps off (first.chars ++ (gap.chars ++ es)) (first.phrase off :: as) := by
  induction h with
  | nil start =>
      intro off first gap _
      exact ⟨.one first, gap, by rw [Written.Steps.chars, List.append_nil],
        by rw [Written.Steps.phrase]⟩
  | @cons start _ ds _ as h _ ih =>
      rintro off first gap rfl
      obtain ⟨g, _, rfl, s, rfl, rfl⟩ := h
      obtain ⟨ss, behind, hchars, hphrase⟩ :=
        ih (off + bytes (first.chars ++ gap.chars) + bytes g.chars) s .empty (by
          simp only [Gap.empty, List.append_nil, bytes_append, Nat.add_assoc])
      refine ⟨.more first (gap.append g) ss, behind, ?_, ?_⟩
      · rw [Written.Steps.chars, Gap.append]
        simp only [Gap.empty, List.nil_append] at hchars
        simp only [List.append_assoc, hchars]
      · rw [Written.Steps.phrase, Written.restOffset, Gap.append, hphrase]
        simp only [bytes_append, Nat.add_assoc]

theorem takesOnly_layer (hbody : ∀ off, TakesOnly body off (FromLayers off)) (off : Nat) :
    TakesOnly (layer body) off (FromSteps off) := by
  refine (TakesOnly.bind (takesOnly_step hbody off) fun cs a ⟨s, hcs, ha⟩ =>
    TakesOnly.space_bind fun g => TakesOnly.bind
      (takesOnly_manySpaced (takesOnly_step hbody) _) fun es as h => takesOnly_pure ?_).rule
  subst hcs ha
  rw [List.append_nil]
  exact exists_steps h off s g (by rw [bytes_append, Nat.add_assoc])

theorem takesOnly_commaLayer (hbody : ∀ off, TakesOnly body off (FromLayers off)) (off : Nat) :
    TakesOnly (commaLayer body) off (FromComma off) :=
  TakesOnly.exactly_bind rfl (TakesOnly.space_bind fun after =>
    (takesOnly_layer hbody _).mono fun cs _ h => ⟨after, cs, rfl, h⟩)

/-- Layers that are read one after another, behind a first one, are written layers. -/
theorem exists_layers {start : Nat} {es : List Char} {as : List (List Step)}
    (h : Listed (Behind FromComma) start es as) :
    ∀ (off : Nat) (first : Written.Steps) (gap : Gap),
      start = off + bytes (first.chars ++ gap.chars) →
      FromLayers off (first.chars ++ (gap.chars ++ es)) (first.phrase off :: as) := by
  induction h with
  | nil start =>
      intro off first gap _
      exact ⟨.one first, gap, by rw [Written.Layers.chars, List.append_nil],
        by rw [Written.Layers.phrase]⟩
  | @cons start _ ds _ as h _ ih =>
      rintro off first gap rfl
      obtain ⟨g, _, rfl, after, _, rfl, ss, g', rfl, rfl⟩ := h
      have hsize : (',').utf8Size = 1 := rfl
      obtain ⟨ls, behind, hchars, hphrase⟩ :=
        ih (off + bytes (first.chars ++ gap.chars) + bytes g.chars + 1 + bytes after.chars) ss g'
          (by simp only [bytes_append, bytes_cons, hsize, Nat.add_assoc])
      refine ⟨.more first (gap.append g) after ls, behind, ?_, ?_⟩
      · rw [Written.Layers.chars, Gap.append]
        simp only [List.append_assoc, List.cons_append, hchars]
      · rw [Written.Layers.phrase, Written.nextOffset, Gap.append, hphrase]
        simp only [bytes_append, Nat.add_assoc]

/-- Layers are read from written layers, however deep their brackets are nested. -/
theorem takesOnly_layers (depth off : Nat) : TakesOnly (layers depth) off (FromLayers off) := by
  induction depth generalizing off with
  | zero => exact fun _ _ _ h => nomatch h
  | succ depth ih =>
      refine (TakesOnly.bind (takesOnly_layer ih off) fun cs a ⟨ss, g, hcs, ha⟩ =>
        TakesOnly.space_bind fun g' => TakesOnly.bind
          (takesOnly_manySpaced (takesOnly_commaLayer ih) _) fun es as h => takesOnly_pure ?_).rule
      subst hcs ha
      rw [List.append_nil, List.append_assoc, ← List.append_assoc g.chars]
      exact exists_layers h off ss (g.append g') (by
        simp only [Gap.append, bytes_append, Nat.add_assoc])

/-! ### Calls -/

/-- What a call is read from, with white space behind. -/
abbrev FromCall (off : Nat) (cs : List Char) (a : Call) : Prop :=
  ∃ (c : Written.Call) (g : Gap), cs = c.chars ++ g.chars ∧ a = c.phrase off

theorem takesOnly_name (off : Nat) :
    TakesOnly name off fun cs n =>
      ∃ w : Name, cs = w.first :: w.others ∧ n = w.first :: w.others := by
  refine (TakesOnly.bind takesOnly_char fun cs c ⟨hcs, hc⟩ => TakesOnly.bind takesOnly_run
    fun ds n ⟨hn, hds⟩ => takesOnly_pure ?_).rule
  subst hcs hn
  rw [List.append_nil]
  exact ⟨⟨c, _, hc, hds⟩, rfl, rfl⟩

theorem takesOnly_quotedText (off : Nat) :
    TakesOnly quotedText off fun cs q => ∃ w : Quotable, cs = w.quoted ∧ q = w.chars := by
  refine (TakesOnly.exactly_bind rfl (TakesOnly.bind takesOnly_run fun cs q ⟨hq, hcs⟩ =>
    TakesOnly.exactly_bind rfl (takesOnly_pure ?_))).rule
  subst hq
  exact ⟨⟨_, hcs⟩, rfl, rfl⟩

theorem takesOnly_argument (off : Nat) :
    TakesOnly argument off fun cs _ => ∃ a : Written.Argument, cs = a.chars := by
  refine TakesOnly.firstOf ?_
  simp only [List.forall_mem_cons, List.not_mem_nil, IsEmpty.forall_iff, implies_true, and_true]
  refine ⟨?_, ?_, ?_⟩
  · refine TakesOnly.bind (takesOnly_number off) fun cs _ ⟨n, hcs, _⟩ => takesOnly_pure ?_
    exact ⟨.number n, (List.append_nil cs).trans hcs⟩
  · refine TakesOnly.bind (takesOnly_quotedText off) fun cs _ ⟨q, hcs, _⟩ => takesOnly_pure ?_
    exact ⟨.quoted q, (List.append_nil cs).trans hcs⟩
  · refine TakesOnly.bind (takesOnly_name off) fun cs _ ⟨n, hcs, _⟩ => takesOnly_pure ?_
    exact ⟨.name n, (List.append_nil cs).trans hcs⟩

theorem takesOnly_arguments (off : Nat) :
    TakesOnly (manySpaced argument) off fun cs _ =>
      ∃ arguments, cs = Written.Call.argumentsChars arguments := by
  refine (takesOnly_manySpaced takesOnly_argument off).mono fun cs as h => ?_
  induction h with
  | nil off => exact ⟨[], rfl⟩
  | cons h _ ih =>
      obtain ⟨g, _, rfl, a, rfl⟩ := h
      obtain ⟨arguments, rfl⟩ := ih
      exact ⟨(g, a) :: arguments, rfl⟩

/-- A word takes itself, white space, and what is read behind it. -/
theorem takesOnly_behindWord {α β : Type} (w : String) {operand : Reader α}
    {Q : Nat → List Char → α → Prop} (hoperand : ∀ off, TakesOnly operand off (Q off))
    (make : α → β) (off : Nat) :
    TakesOnly (rule do
        word w.toList
        space
        let a ← operand
        return make a) off fun cs b =>
      ∃ (g : Gap) (ds : List Char) (a : α), cs = w.toList ++ (g.chars ++ ds) ∧
        Q (off + bytes w.toList + bytes g.chars) ds a ∧ b = make a := by
  refine (TakesOnly.bind (takesOnly_word _) fun cs _ hcs => TakesOnly.space_bind fun g =>
    TakesOnly.bind (hoperand _) fun ds a ha => takesOnly_pure ?_).rule
  subst hcs
  rw [List.append_nil]
  exact ⟨g, ds, a, rfl, ha, rfl⟩

theorem takesOnly_numberCall {w : String} {cs : List Char} (hw : w.toList = cs)
    {make : Numeral → Call} (call : Gap → Decimal → Written.Call) (hsize : bytes cs = 4)
    (hchars : ∀ g n, (call g n).chars = cs ++ (g.chars ++ n.chars))
    (hphrase : ∀ off g n, (call g n).phrase off = make (n.phrase (Written.Call.numberOffset off g)))
    (off : Nat) : TakesOnly (numberCall w make) off (FromCall off) := by
  refine (takesOnly_behindWord w takesOnly_number make off).mono ?_
  rintro _ _ ⟨g, _, _, rfl, ⟨n, rfl, rfl⟩, rfl⟩
  refine ⟨call g n, .empty, ?_, ?_⟩
  · rw [hchars, hw, Gap.empty, List.append_nil]
  · rw [hphrase, Written.Call.numberOffset, hw, hsize]

theorem takesOnly_call (off : Nat) : TakesOnly call off (FromCall off) := by
  refine TakesOnly.firstOf ?_
  simp only [List.forall_mem_cons, List.not_mem_nil, IsEmpty.forall_iff, implies_true, and_true]
  refine ⟨?_, ?_, ?_, ?_⟩
  · exact takesOnly_numberCall String.toList_ofList .slow rfl (fun _ _ => rfl)
      (fun _ _ _ => rfl) off
  · exact takesOnly_numberCall String.toList_ofList .fast rfl (fun _ _ => rfl)
      (fun _ _ _ => rfl) off
  · refine (takesOnly_behindWord "scale" takesOnly_quotedText Call.scale off).mono ?_
    rintro _ _ ⟨g, _, _, rfl, ⟨w, rfl, rfl⟩, rfl⟩
    have hscale : "scale".toList = ['s', 'c', 'a', 'l', 'e'] := String.toList_ofList
    refine ⟨.scale g w, .empty, ?_, rfl⟩
    rw [hscale, Gap.empty, List.append_nil, Written.Call.chars]
  · refine (TakesOnly.bind (takesOnly_name off) fun cs n ⟨w, hcs, hn⟩ => TakesOnly.space_bind
      fun g => TakesOnly.bind (takesOnly_arguments _)
        fun ds _ ⟨arguments, hds⟩ => takesOnly_pure ?_).rule
    subst hcs hn hds
    -- White space behind the name belongs to the first argument, or to what follows the call.
    cases arguments with
    | nil => exact ⟨.named w [], g, by simp [Written.Call.chars, Written.Call.argumentsChars], rfl⟩
    | cons a arguments =>
        refine ⟨.named w ((g.append a.1, a.2) :: arguments), .empty, ?_, rfl⟩
        simp [Written.Call.chars, Written.Call.argumentsChars, Gap.append, Gap.empty]

/-! ### Whole texts -/

/-- What an expression is read from. -/
abbrev FromExpression (off : Nat) (cs : List Char) (a : Expression) : Prop :=
  ∃ e : Written.Expression, cs = e.chars ∧ a = e.phrase off

theorem takesOnly_quoted (depth off : Nat) :
    TakesOnly (quoted depth) off (FromExpression off) := by
  refine (TakesOnly.exactly_bind rfl (TakesOnly.space_bind fun before =>
    TakesOnly.bind (takesOnly_layers depth _) fun cs a ⟨ls, g, hcs, ha⟩ =>
    TakesOnly.space_bind fun g' => TakesOnly.exactly_bind rfl (takesOnly_pure ?_))).rule
  subst hcs ha
  exact ⟨.quoted before ls (g.append g'), by simp [Written.Expression.chars, Gap.append], rfl⟩

theorem takesOnly_expression (depth calls off : Nat) :
    TakesOnly (expression depth calls) off (FromExpression off) := by
  induction calls generalizing off with
  | zero => exact takesOnly_quoted depth off
  | succ calls ih =>
      refine TakesOnly.orElse (TakesOnly.bind (takesOnly_call off) fun cs f ⟨c, g, hcs, hf⟩ =>
        TakesOnly.space_bind fun g' => TakesOnly.exactly_bind rfl (TakesOnly.space_bind
          fun after => TakesOnly.bind (ih _)
            fun ds a ⟨operand, hds, ha⟩ => takesOnly_pure ?_)).rule (takesOnly_quoted depth off)
      subst hcs hf hds ha
      refine ⟨.application c (g.append g') after operand, ?_, ?_⟩
      · simp [Written.Expression.chars, Gap.append]
      · simp only [Written.Expression.phrase, Written.Expression.operandOffset, Gap.append,
          bytes_append, Nat.add_assoc]

theorem takesOnly_program (depth calls : Nat) :
    TakesOnly (program depth calls) 0 fun cs a =>
      ∃ (before : Gap) (e : Written.Expression) (after : Gap),
        cs = before.chars ++ (e.chars ++ after.chars) ∧ a = e.phrase (bytes before.chars) := by
  refine (TakesOnly.space_bind fun before => TakesOnly.bind (takesOnly_expression depth calls _)
    fun cs a ⟨e, hcs, ha⟩ => TakesOnly.space_bind fun after =>
    TakesOnly.bind takesOnly_atEnd.rule fun ds _ hds => takesOnly_pure ?_).rule
  subst hcs ha hds
  refine ⟨before, e, after, ?_, by rw [Nat.zero_add]⟩
  rw [List.append_nil, List.append_nil]

/-- A text is read to its end. -/
theorem rest_of_program {depth calls : Nat} {c here : Cursor} {a : Expression}
    (h : (program depth calls c).result = some (a, here)) : here.rest = [] := by
  rw [program, result_rule] at h
  obtain ⟨_, _, -, h⟩ := exists_of_bind h
  obtain ⟨_, _, -, h⟩ := exists_of_bind h
  obtain ⟨_, _, -, h⟩ := exists_of_bind h
  obtain ⟨_, _, hend, h⟩ := exists_of_bind h
  obtain ⟨rfl, rfl⟩ := Prod.mk.inj (Option.some.inj h)
  rw [result_rule] at hend
  exact rest_of_atEnd hend

/-- **A text that is read is an expression with white space around it**, and what is read is
what the expression says. -/
theorem parse_sound {text : List Char} {a : Expression} (h : parse text = .ok a) :
    ∃ (before : Gap) (e : Written.Expression) (after : Gap),
      text = before.chars ++ (e.chars ++ after.chars) ∧ a = e.phrase (bytes before.chars) := by
  rw [parse] at h
  split at h
  · next found here hresult =>
      obtain rfl := Except.ok.inj h
      obtain ⟨cs, htext, -, before, e, after, hcs, ha⟩ := takesOnly_program _ _ text _ here hresult
      rw [rest_of_program hresult, List.append_nil] at htext
      exact ⟨before, e, after, htext.trans hcs, ha⟩
  · exact nomatch h

end

end CyclePatterns.Notation

namespace CyclePatterns

open Notation
open Notation.Written (Gap)

/-! ### Trees of texts -/

/-- White space does not begin or end with what is no white space. -/
theorem Notation.gap_eq_nil_of_cons {g : Gap} {c : Char} {front rest : List Char}
    (hc : Reader.isSpace c = false) (h : c :: front = g.chars ++ rest) : g.chars = [] := by
  cases hg : g.chars with
  | nil => rfl
  | cons d more =>
      rw [hg] at h
      have hd := g.spaces d (hg ▸ List.mem_cons_self)
      rw [← (List.cons.inj h).1, hc] at hd
      exact Bool.noConfusion hd

theorem Notation.gap_eq_nil_of_concat {g : Gap} {c : Char} {front rest : List Char}
    (hc : Reader.isSpace c = false) (h : front ++ [c] = rest ++ g.chars) : g.chars = [] := by
  rcases List.eq_nil_or_concat' g.chars with hg | ⟨more, d, hg⟩
  · exact hg
  · rw [hg, ← List.append_assoc] at h
    have hd := g.spaces d (by rw [hg]; exact List.mem_append_right _ List.mem_cons_self)
    rw [← (List.cons.inj (List.append_inj' h rfl).2).1, hc] at hd
    exact Bool.noConfusion hd

theorem Notation.Written.Call.exists_cons (call : Written.Call) :
    ∃ c cs, call.chars = c :: cs ∧ c.isAlpha = true := by
  cases call with
  | slow gap n => exact ⟨_, _, rfl, rfl⟩
  | fast gap n => exact ⟨_, _, rfl, rfl⟩
  | scale gap name => exact ⟨_, _, rfl, rfl⟩
  | named name arguments => exact ⟨_, _, rfl, name.isAlpha⟩

/-- What stands between the quotes of an expression that is a text in quotes. -/
theorem Notation.exists_of_quoted {text : List Char} {before after : Gap} {e : Written.Expression}
    (h : '"' :: text ++ ['"'] = before.chars ++ (e.chars ++ after.chars)) :
    before.chars = [] ∧ ∃ (before' : Gap) (body : Written.Layers) (after' : Gap),
      e = .quoted before' body after' ∧
        text = before'.chars ++ (body.chars ++ after'.chars) := by
  have hbefore : before.chars = [] := gap_eq_nil_of_cons rfl h
  have hafter : after.chars = [] := by
    rw [← List.append_assoc] at h
    exact gap_eq_nil_of_concat rfl h
  rw [hbefore, hafter, List.nil_append, List.append_nil] at h
  refine ⟨hbefore, ?_⟩
  cases e with
  | quoted before' body after' =>
      refine ⟨before', body, after', rfl, ?_⟩
      rw [Written.Expression.chars, List.cons_append, List.cons.injEq, ← List.append_assoc,
        ← List.append_assoc] at h
      rw [← List.append_assoc]
      exact List.append_cancel_right h.2
  | application call gap gap' operand =>
      obtain ⟨c, cs, hcall, hc⟩ := call.exists_cons
      rw [Written.Expression.chars, hcall] at h
      rw [← (List.cons.inj h).1] at hc
      exact absurd hc (by decide)

namespace Node

variable {text : String} {tree : Node}

/-- A tree of notation is the tree that some expression denotes. -/
theorem ofNotation_sound (h : ofNotation text = .ok tree) :
    ∃ (before : Gap) (e : Written.Expression) (after : Gap),
      text.toList = before.chars ++ (e.chars ++ after.chars) ∧
        tree = asRoot (e.node (bytes before.chars)) := by
  rw [ofNotation, treeFrom] at h
  split at h
  · next a hparse =>
      obtain ⟨before, e, after, htext, rfl⟩ := parse_sound hparse
      have hnode := Written.toNode_expression 0 (bytes before.chars) e
      rw [Nat.add_zero] at hnode
      rw [hnode, Written.within_map] at h
      exact ⟨before, e, after, htext, Written.eq_of_within_eq_ok h⟩
  · exact nomatch h

/-- A tree of bare notation is the tree that some layers denote. -/
theorem ofMini_sound (h : ofMini text = .ok tree) :
    ∃ (before : Gap) (w : Written.Layers) (after : Gap),
      text.toList = before.chars ++ (w.chars ++ after.chars) ∧
        tree = w.node (bytes before.chars) := by
  rw [ofMini, treeFrom] at h
  split at h
  · next a hparse =>
      obtain ⟨gap, e, gap', htext, rfl⟩ := parse_sound hparse
      obtain ⟨hgap, before, w, after, rfl, hmini⟩ := exists_of_quoted htext
      refine ⟨before, w, after, hmini, ?_⟩
      have hoffset : Written.bodyOffset (bytes gap.chars) before = bytes before.chars + 1 := by
        rw [Written.bodyOffset, hgap, bytes_nil]
        omega
      rw [Written.Expression.phrase, hoffset, Written.toNode_quoted, Written.within_map,
        Written.asRoot_node] at h
      exact Written.eq_of_within_eq_ok h
  · cases h

end Node

end CyclePatterns

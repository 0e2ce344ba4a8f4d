/-
Calls by name.

A call by name is given arguments, but only its name makes a difference.  The calls that have a
meaning are tried first.  They ask for no end of their word, so a name that goes on with a number
where such a word ends is read as that word and that number, and never as a name.  Every other
name is read to its end.
-/
import CyclePatterns.Proofs.Notation.Operands
import CyclePatterns.Proofs.Outcome

namespace CyclePatterns.Notation

open Reader
open Written (Gap Name Argument Quotable Decimal)

/-! ### Names -/

namespace Written.Name

/-- The text of a name. -/
abbrev chars (w : Name) : List Char :=
  w.first :: w.others

/-- The name is the word of a call that has a meaning. -/
def Reserved (w : Name) : Prop :=
  String.ofList w.chars ∈ ["slow", "fast", "scale"]

instance (w : Name) : Decidable w.Reserved :=
  inferInstanceAs (Decidable (_ ∈ _))

/-- The name begins with the word of a call that has a number, and a number comes next. -/
def Numbered (w : Name) : Prop :=
  ∃ word ∈ ["slow", "fast"], ∃ (n : Decimal) (more : List Char),
    w.chars = word.toList ++ (n.chars ++ more)

end Written.Name

/-- What goes on until white space, a sign or a quote. -/
def isPlain (c : Char) : Bool :=
  !isSpace c && c != '$' && c != '"'

theorem isPlain_of_isSpace {c : Char} (h : isSpace c = true) : isPlain c = false := by
  rw [isPlain, h]
  rfl

theorem isPlain_of_isStepChar {c : Char} (h : isStepChar c = true) : isPlain c = true := by
  have hspace : isSpace c = false := isSpace_of_continuesStep (continuesStep_of_isStepChar h)
  have hsign : c ≠ '$' := by
    rintro rfl
    exact Bool.noConfusion h
  have hquote : c ≠ '"' := by
    rintro rfl
    exact Bool.noConfusion h
  simp [isPlain, hspace, hsign, hquote]

theorem isDigit_of_isAlpha {c : Char} (h : c.isAlpha = true) : c.isDigit = false := by
  refine Bool.eq_false_iff.mpr fun hdigit => ?_
  obtain ⟨-, hhigh⟩ : 48 ≤ c.toNat ∧ c.toNat ≤ 57 := Char.isDigit_iff_toNat.mp hdigit
  have hlow : 65 ≤ c.toNat := by
    rcases Bool.or_eq_true_iff.mp h with hupper | hlower
    · exact UInt32.le_iff_toNat_le.mp (of_decide_eq_true hupper).1
    · change (decide ('a'.val ≤ c.val) && decide (c.val ≤ 'z'.val)) = true at hlower
      have hsmall : 97 ≤ c.toNat :=
        UInt32.le_iff_toNat_le.mp (of_decide_eq_true (Bool.and_eq_true_iff.mp hlower).1)
      omega
  omega

theorem isStepChar_of_isSpace {c : Char} (h : isSpace c = true) : isStepChar c = false := by
  cases hstep : isStepChar c with
  | false => rfl
  | true =>
      have hspace := isSpace_of_continuesStep (continuesStep_of_isStepChar hstep)
      exact Bool.noConfusion (h.symm.trans hspace)

theorem isStepChar_of_isNameChar {c : Char} (h : isNameChar c = true) : isStepChar c = true := by
  simp only [isNameChar, Bool.or_eq_true] at h
  simp only [isStepChar, Bool.or_eq_true]
  tauto

theorem Written.Name.isStepChar (w : Name) : ∀ c ∈ w.chars, isStepChar c = true := by
  refine List.forall_mem_cons.mpr ⟨?_, fun c hc => isStepChar_of_isNameChar (w.nameChars c hc)⟩
  simp [Notation.isStepChar, Char.isAlphanum, w.isAlpha]

theorem Written.Decimal.isStepChar (n : Decimal) : ∀ c ∈ n.chars, isStepChar c = true := by
  have hdigits (ds : Written.Digits) : ∀ c ∈ ds.chars, Notation.isStepChar c = true :=
    fun c hc => isStepChar_of_isDigit (ds.digits c hc)
  rw [Decimal.chars, Decimal.sign, Decimal.places]
  refine List.forall_mem_append.mpr ⟨?_, List.forall_mem_append.mpr ⟨hdigits n.whole, ?_⟩⟩
  · cases n.minus with
    | true => exact List.forall_mem_singleton.mpr rfl
    | false => exact List.forall_mem_nil _
  · cases n.fraction with
    | none => exact List.forall_mem_nil _
    | some f => exact List.forall_mem_cons.mpr ⟨rfl, hdigits f⟩

/-- What is plain up to its end is all that is plain in front. -/
theorem takeWhile_isPlain {cs rest : List Char} (hcs : ∀ c ∈ cs, isPlain c = true)
    (hrest : Stops isPlain rest) : (cs ++ rest).takeWhile isPlain = cs := by
  rw [List.takeWhile_append_of_pos hcs]
  cases rest with
  | nil => exact List.append_nil cs
  | cons c rest =>
      have hc := hrest c rest rfl
      rw [List.takeWhile_cons_of_neg (by simp [hc]), List.append_nil]

/-! ### Other calls refuse a name -/

section

variable {off : Nat} {w : Name} {ahead : List Char}

/-- In front of a text that is not plain a name is all that is plain. -/
theorem takeWhile_name (w : Name) (hahead : Stops isPlain ahead) :
    (w.chars ++ ahead).takeWhile isPlain = w.chars :=
  takeWhile_isPlain (fun c hc => isPlain_of_isStepChar (w.isStepChar c hc)) hahead

theorem refuses_numberCall {word : String} (make : Numeral → Call)
    (hplain : ∀ c ∈ word.toList, isPlain c = true) (hword : w.chars ≠ word.toList)
    (hnumbered : ∀ (n : Decimal) more, w.chars ≠ word.toList ++ (n.chars ++ more))
    (hahead : Stops isPlain ahead) : Refuses (numberCall word make) off (w.chars ++ ahead) := by
  unfold Refuses
  cases hresult : (numberCall word make ⟨off, w.chars ++ ahead⟩).result with
  | none => rfl
  | some found =>
      obtain ⟨_, htext, -, g, _, _, rfl, ⟨n, rfl, -⟩, -⟩ :=
        takesOnly_behindWord word takesOnly_number make off _ _ _ hresult
      have hname := takeWhile_name w hahead
      rw [htext, List.append_assoc, List.append_assoc] at hname
      by_cases hgap : g.chars = []
      · have hn : ∀ c ∈ n.chars, isPlain c = true :=
          fun c hc => isPlain_of_isStepChar (n.isStepChar c hc)
        rw [hgap, List.nil_append, List.takeWhile_append_of_pos hplain,
          List.takeWhile_append_of_pos hn] at hname
        exact absurd hname.symm (hnumbered n _)
      · have hstop :=
          stops_gap_of_ne_nil g hgap (n.chars ++ found.2.rest) fun _ => isPlain_of_isSpace
        rw [takeWhile_isPlain hplain hstop] at hname
        exact absurd hname.symm hword

theorem refuses_scaleCall (hword : w.chars ≠ "scale".toList) (hahead : Stops isPlain ahead) :
    Refuses scaleCall off (w.chars ++ ahead) := by
  unfold Refuses
  cases hresult : (scaleCall ⟨off, w.chars ++ ahead⟩).result with
  | none => rfl
  | some found =>
      obtain ⟨_, htext, -, g, _, _, rfl, ⟨q, rfl, -⟩, -⟩ :=
        takesOnly_behindWord "scale" takesOnly_quotedText Call.scale off _ _ _ hresult
      have hplain : ∀ c ∈ "scale".toList, isPlain c = true := List.all_eq_true.mp (by decide)
      have hstop : Stops isPlain (g.chars ++ (q.quoted ++ found.2.rest)) :=
        stops_gap g (fun _ => isPlain_of_isSpace) (stops_cons rfl _)
      have hname := takeWhile_name w hahead
      rw [htext, List.append_assoc, List.append_assoc, takeWhile_isPlain hplain hstop] at hname
      exact absurd hname.symm hword

end

/-! ### A name and its arguments -/

section

variable {off : Nat} {ahead : List Char}

theorem takes_name (w : Name) (hahead : Stops isNameChar ahead) :
    Takes name off w.chars ahead w.chars := by
  have hfirst : Takes (char Char.isAlpha) off [w.first] (w.others ++ ahead) w.first :=
    takes_char w.isAlpha
  exact Takes.rule (hfirst.bind (Takes.bind_pure (takes_run w.nameChars hahead) _))

theorem takes_quotedText (q : Quotable) : Takes quotedText off q.quoted ahead q.chars := by
  have hinner : Takes (run (· != '"')) (off + 1) q.chars (['"'] ++ ahead) q.chars :=
    takes_run q.noQuotes (stops_cons rfl _)
  exact Takes.rule (Takes.exactly_bind rfl (hinner.bind (Takes.bind_pure takes_exactly _)))

theorem refuses_quotedText {text : List Char} (h : Stops (· == '"') text) :
    Refuses quotedText off text :=
  Refuses.rule (Refuses.bind (refuses_exactly h))

theorem takes_argument (a : Argument) (hahead : Stops isStepChar ahead) :
    Takes argument off a.chars ahead () := by
  cases a with
  | number n => exact Takes.orElse (Takes.bind_pure (takes_number n hahead) _)
  | quoted q =>
      have hnumber : Refuses number off (q.quoted ++ ahead) := refuses_number (stops_cons rfl _)
      exact Refuses.orElse_takes (Refuses.bind hnumber)
        (Takes.orElse (Takes.bind_pure (takes_quotedText q) _))
  | name n =>
      have hfirst : ∀ {is : Char → Bool}, is n.first = false → Stops is (n.chars ++ ahead) :=
        fun h => stops_cons h _
      have hne : ∀ c, c.isAlpha = false → (n.first == c) = false := by
        intro c hc
        refine beq_false_of_ne fun h => ?_
        rw [← h, n.isAlpha] at hc
        exact Bool.noConfusion hc
      have hdigit : n.first.isDigit = false := isDigit_of_isAlpha n.isAlpha
      have hnumber : Refuses number off (n.chars ++ ahead) :=
        refuses_number_of_stops (hfirst (hne '-' rfl)) (hfirst hdigit)
      have hquoted : Refuses quotedText off (n.chars ++ ahead) :=
        refuses_quotedText (hfirst (hne '"' rfl))
      exact Refuses.orElse_takes (Refuses.bind hnumber) (Refuses.orElse_takes (Refuses.bind hquoted)
        (Takes.bind_pure (takes_name n (hahead.mono fun _ => isStepChar_of_isNameChar)) _))

/-- No argument begins with the sign behind a call. -/
theorem refuses_argument : Refuses argument off ('$' :: ahead) := by
  refine Refuses.firstOf fun p hp => ?_
  simp only [List.mem_cons, List.not_mem_nil, or_false] at hp
  rcases hp with rfl | rfl | rfl
  · exact Refuses.bind (refuses_number (stops_cons rfl _))
  · exact Refuses.bind (refuses_quotedText (stops_cons rfl _))
  · exact Refuses.bind (Refuses.rule (Refuses.bind (refuses_char (stops_cons rfl _))))

/-- Arguments behind white space, and the white space behind them. -/
theorem stops_arguments {is : Char → Bool} {arguments : List (Gap × Argument)}
    (hspaced : ∀ a ∈ arguments, a.1.chars ≠ []) (g : Gap)
    (hspace : ∀ c, isSpace c = true → is c = false) (hsign : is '$' = false) :
    Stops is (Written.Call.argumentsChars arguments ++ g.chars ++ '$' :: ahead) := by
  cases arguments with
  | nil => exact stops_gap g hspace (stops_cons hsign _)
  | cons a arguments =>
      have hgap := hspaced a List.mem_cons_self
      rw [Written.Call.argumentsChars, List.flatMap_cons, List.append_assoc, List.append_assoc,
        List.append_assoc]
      exact stops_gap_of_ne_nil a.1 hgap _ hspace

/-- Arguments are read one after another behind the white space in front of the first. -/
theorem exists_series {arguments : List (Gap × Argument)}
    (hspaced : ∀ a ∈ arguments, a.1.chars ≠ []) (g : Gap) (off : Nat) :
    ∃ (front : Gap) (cs : List Char) (as : List Unit),
      Written.Call.argumentsChars arguments ++ g.chars = front.chars ++ cs ∧
        Stops isSpace (cs ++ '$' :: ahead) ∧
          Series argument (off + bytes front.chars) cs ('$' :: ahead) as := by
  induction arguments generalizing off with
  | nil =>
      exact ⟨g, [], [], (List.append_nil _).symm, stops_cons rfl _,
        .stop refuses_argument (stops_cons rfl _)⟩
  | cons a arguments ih =>
      rw [List.forall_mem_cons] at hspaced
      obtain ⟨gap, a⟩ := a
      obtain ⟨front, cs, as, hchars, hstops, hseries⟩ :=
        ih hspaced.2 (off + bytes gap.chars + bytes a.chars)
      obtain ⟨c, more, hc, hfirst⟩ := a.exists_cons
      have hbehind : Stops isStepChar (front.chars ++ (cs ++ '$' :: ahead)) := by
        rw [← List.append_assoc, ← hchars]
        exact stops_arguments hspaced.2 g (fun _ => isStepChar_of_isSpace) rfl
      have htakes : TakesTo argument (off + bytes gap.chars) (a.chars ++ front.chars)
          (cs ++ '$' :: ahead) () := (takes_argument a hbehind).takesTo front hstops
      refine ⟨gap, a.chars ++ front.chars ++ cs, () :: as, ?_, ?_, .next htakes ?_ ?_⟩
      · rw [Written.Call.argumentsChars, List.flatMap_cons] at *
        simp only [List.append_assoc, ← hchars]
      · rw [hc]
        exact stops_cons hfirst _
      · rw [hc]
        exact List.cons_ne_nil _ _
      · rwa [bytes_append, ← Nat.add_assoc]

/-- A name is read with its arguments and the white space behind them. -/
theorem takesTo_namedCall (w : Name) {arguments : List (Gap × Argument)}
    (hspaced : ∀ a ∈ arguments, a.1.chars ≠ []) (g : Gap) :
    TakesTo namedCall off (w.chars ++ (Written.Call.argumentsChars arguments ++ g.chars))
      ('$' :: ahead) (.named w.chars) := by
  obtain ⟨front, cs, as, hchars, hstops, hseries⟩ :=
    @exists_series ahead arguments hspaced g (off + bytes w.chars)
  have hname : Takes name off w.chars (front.chars ++ cs ++ '$' :: ahead) w.chars := by
    refine takes_name w (Stops.mono ?_ fun _ => isStepChar_of_isNameChar)
    rw [← hchars]
    exact stops_arguments hspaced g (fun _ => isStepChar_of_isSpace) rfl
  have hfront : Takes space (off + bytes w.chars) front.chars (cs ++ '$' :: ahead) () :=
    takes_space front hstops
  rw [hchars]
  exact TakesTo.rule (hname.bind_takesTo (hfront.bind_takesTo (hseries.manySpaced.bind_pure _)))

/-- A name that no other call reads is read as a name. -/
theorem takesTo_call_named {w : Name} (hword : ¬ w.Reserved) (hnumbered : ¬ w.Numbered)
    {arguments : List (Gap × Argument)} (hspaced : ∀ a ∈ arguments, a.1.chars ≠ []) (g : Gap) :
    TakesTo call off (w.chars ++ (Written.Call.argumentsChars arguments ++ g.chars))
      ('$' :: ahead) (.named w.chars) := by
  have hahead : Stops isPlain (Written.Call.argumentsChars arguments ++ g.chars ++ '$' :: ahead) :=
    stops_arguments hspaced g (fun _ => isPlain_of_isSpace) rfl
  have hne : ∀ word ∈ ["slow", "fast", "scale"], w.chars ≠ word.toList := by
    rintro word hmem h
    exact hword (by rw [Name.Reserved, h, String.ofList_toList]; exact hmem)
  have hplain : ∀ word ∈ ["slow", "fast"], ∀ c ∈ word.toList, isPlain c = true :=
    List.forall_mem_cons.mpr ⟨List.all_eq_true.mp (by decide),
      List.forall_mem_singleton.mpr (List.all_eq_true.mp (by decide))⟩
  have hnumber : ∀ word ∈ ["slow", "fast"], ∀ make, Refuses (numberCall word make) off
      (w.chars ++ (Written.Call.argumentsChars arguments ++ g.chars ++ '$' :: ahead)) := by
    intro word hmem make
    have hother := hne word (List.mem_append_left ["scale"] hmem)
    exact refuses_numberCall make (hplain word hmem) hother
      (fun n more h => hnumbered ⟨word, hmem, n, more, h⟩) hahead
  have hscale := @refuses_scaleCall off w _ (hne "scale" (by decide)) hahead
  simp only [← List.append_assoc] at hnumber hscale ⊢
  refine Refuses.orElse_takesTo (hnumber "slow" (by decide) _) (Refuses.orElse_takesTo
    (hnumber "fast" (by decide) _) (Refuses.orElse_takesTo hscale ?_))
  rw [List.append_assoc]
  exact takesTo_namedCall w hspaced g

end

/-! ### Names that go on with a number -/

/-- What may be missing is read in any case. -/
theorem exists_optional {α : Type} (p : Reader α) (c : Cursor) :
    ∃ a here, (optional p c).result = some (a, here) := by
  cases hresult : (p c).result with
  | none => exact ⟨_, _, Refuses.optional hresult⟩
  | some found =>
      refine ⟨some found.1, found.2, ?_⟩
      unfold Reader.optional Reader.orElse
      simp only [andThen, hresult]
      rfl

theorem exists_placed {p : Reader (List Char)} {c here : Cursor}
    (h : ∃ text, (p c).result = some (text, here)) : ∃ k, (placed p c).result = some (k, here) := by
  obtain ⟨text, htext⟩ := h
  refine ⟨⟨text, ⟨c.offset, here.offset⟩⟩, ?_⟩
  rw [placed, result_bind rfl, result_bind htext]
  rfl

/-- Where there is a number something is read, whatever stands behind it. -/
theorem exists_number (n : Decimal) (off : Nat) (more : List Char) :
    ∃ k here, (number ⟨off, n.chars ++ more⟩).result = some (k, here) := by
  let whole := (n.whole.chars ++ (n.places ++ more)).takeWhile Char.isDigit
  let rest := (n.whole.chars ++ (n.places ++ more)).dropWhile Char.isDigit
  have hsplit : n.whole.chars ++ (n.places ++ more) = whole ++ rest :=
    List.takeWhile_append_dropWhile.symm
  have htext : n.chars ++ more = n.sign ++ (whole ++ rest) := by
    rw [← hsplit, Decimal.chars, List.append_assoc, List.append_assoc]
  have hminus : Takes (optional (exactly '-')) off n.sign (whole ++ rest)
      (if n.minus then some () else none) := by
    rw [Decimal.sign, ← hsplit]
    cases n.minus with
    | true => exact takes_exactly.optional
    | false =>
        exact Refuses.optional (refuses_exactly (stops_digits _ _ fun c hc =>
          beq_eq_false_iff_ne.mpr (Written.isDigit_ne hc rfl)))
  have hwhole : Takes (run1 Char.isDigit) (off + bytes n.sign) whole rest whole := by
    refine takes_run1 ?_ (fun c hc => List.mem_takeWhile_imp hc) (stops_dropWhile _ _)
    obtain ⟨c, cs, hchars, hc⟩ := n.whole.exists_cons
    simp [whole, hchars, hc]
  obtain ⟨f, here, hplaces⟩ := exists_optional decimals ⟨off + bytes n.sign + bytes whole, rest⟩
  simp only [number, result_rule, htext]
  refine Exists.imp (fun k hk => ⟨here, hk⟩) (exists_placed ⟨_, Eq.trans (result_bind hminus)
    (Eq.trans (result_bind hwhole) (result_bind hplaces))⟩)

theorem exists_numberCall {w : Name} {word : String} {n : Decimal} {more : List Char}
    (hchars : w.chars = word.toList ++ (n.chars ++ more)) (make : Numeral → Call) (off : Nat)
    (ahead : List Char) :
    ∃ k here, (numberCall word make ⟨off, w.chars ++ ahead⟩).result = some (make k, here) := by
  have hword : Takes (word.toList |> Reader.word) off word.toList (n.chars ++ (more ++ ahead)) () :=
    takes_letters _ off _
  have hgap : Takes space (off + bytes word.toList) [] (n.chars ++ (more ++ ahead)) () :=
    takes_space .empty (stops_decimal n _)
  obtain ⟨k, here, hnumber⟩ := exists_number n (off + bytes word.toList) (more ++ ahead)
  refine ⟨k, here, (result_rule _ _).trans ?_⟩
  rw [hchars, List.append_assoc, List.append_assoc, result_bind hword]
  exact (result_bind hgap).trans (result_bind hnumber)

/-- A name that goes on with a number is read as the word in front of it and the number. -/
theorem exists_call_of_numbered {w : Name} (h : w.Numbered) (off : Nat) (ahead : List Char) :
    ∃ (f : Call) (here : Cursor) (k : Numeral),
      (call ⟨off, w.chars ++ ahead⟩).result = some (f, here) ∧ (f = .slow k ∨ f = .fast k) := by
  obtain ⟨word, hmem, n, more, hchars⟩ := h
  simp only [List.mem_cons, List.not_mem_nil, or_false] at hmem
  rcases hmem with rfl | rfl
  · obtain ⟨k, here, hslow⟩ := exists_numberCall hchars .slow off ahead
    refine ⟨.slow k, here, k, ?_, .inl rfl⟩
    simp only [call, firstOf, Reader.orElse, hslow]
  · obtain ⟨k, here, hfast⟩ := exists_numberCall hchars .fast off ahead
    have hslow : Refuses (numberCall "slow" .slow) off (w.chars ++ ahead) := by
      rw [hchars]
      exact Refuses.rule (Refuses.bind (Refuses.bind (refuses_exactly (stops_cons rfl _))))
    unfold Refuses at hslow
    refine ⟨.fast k, here, k, ?_, .inr rfl⟩
    simp only [call, firstOf, Reader.orElse, hslow, hfast]

/-- A text that begins with such a name is an application of the word, if it is anything. -/
theorem exists_application_of_numbered {w : Name} (h : w.Numbered) {behind : List Char}
    {e : Expression} (hparse : parse (w.chars ++ behind) = .ok e) :
    ∃ (f : Call) (k : Numeral) (operand : Expression),
      e = .application f operand ∧ (f = .slow k ∨ f = .fast k) := by
  obtain ⟨before, after, cs, htext, -, htakes⟩ := exists_of_parse hparse
  have hfirst : isSpace w.first = false := isSpace_of_isAlpha w.isAlpha
  have hbefore : before.chars = [] := gap_eq_nil_of_cons hfirst htext
  rw [hbefore, List.nil_append] at htext
  rw [hbefore, bytes_nil] at htakes
  rcases exists_of_takes_application htakes with hquoted |
    ⟨f, operand, front, g, g', back, rfl, rfl, hcall, -⟩
  · obtain ⟨_, _, _, _, rfl, -⟩ := exists_of_takes_quoted hquoted
    have halpha := w.isAlpha
    rw [(List.cons.inj htext).1] at halpha
    exact absurd halpha (by decide)
  · obtain ⟨f', here, k, hcall', hf⟩ := exists_call_of_numbered h 0 behind
    unfold Takes at hcall
    simp only [htext, List.append_assoc, List.cons_append] at hcall'
    obtain ⟨rfl, -⟩ := Prod.mk.inj (Option.some.inj (hcall.symm.trans hcall'))
    exact ⟨f, k, operand, rfl, hf⟩

/-- Behind a call with a number there is a stretch. -/
theorem exists_stretch_of_toNode {k : Numeral} {operand : Expression} {n : Node} {f : Call}
    (hf : f = .slow k ∨ f = .fast k) (h : (Expression.application f operand).toNode 0 = .ok n) :
    ∃ amount child, n = .stretch amount (some child) := by
  rw [Expression.toNode] at h
  obtain ⟨child, -, happly⟩ := ok_of_bind_eq_ok h
  rcases hf with rfl | rfl
  · obtain ⟨amount, -, hn⟩ := ok_of_bind_eq_ok happly
    exact ⟨amount, child, (Except.ok.inj hn).symm⟩
  · obtain ⟨amount, -, hn⟩ := ok_of_bind_eq_ok happly
    exact ⟨amount, child, (Except.ok.inj hn).symm⟩

end CyclePatterns.Notation

namespace CyclePatterns

open Notation (NotationError operandOf bytes)
open Notation.Written (Gap Name Argument)

/-- The text of a call by name, with the sign behind it. -/
def Notation.Written.Name.call (w : Name) (arguments : List (Gap × Argument)) (before after : Gap) :
    List Char :=
  w.chars ++ (Call.argumentsChars arguments ++ before.chars) ++ '$' :: after.chars

namespace Node

/-- **Calls by name.**  A name that is no word of a call with a meaning, and does not go on with a
number where such a word ends, may be given any arguments behind white space.  In front of
whatever is notation it gives a node of its kind with that as the only child.  A name that does
go on with a number there is never read as a name: what it begins is a stretch, if anything. -/
theorem ofNotation_named {w : Name} (hreserved : ¬ w.Reserved) :
    (¬ w.Numbered → ∀ (arguments : List (Gap × Argument)) (before after : Gap) (operand : String)
        (child : Node), (∀ a ∈ arguments, a.1.chars ≠ []) →
        operandOf operand.toList = .ok child →
          ofNotation (String.ofList (w.call arguments before after) ++ operand)
            = .ok (sequence [unknown (String.ofList w.chars)
                [child.located (SourceSpan.moved (bytes (w.call arguments before after)))]])) ∧
    (w.Numbered → ∀ (behind : String) (tree : Node),
        ofNotation (String.ofList w.chars ++ behind) = .ok tree →
          ∃ amount child, tree = sequence [stretch amount (some child)]) := by
  constructor
  · intro hnumbered arguments before after operand child hspaced hchild
    have hstops : ∀ ahead, Notation.Reader.Stops Notation.Reader.isSpace
        (w.chars ++ (Notation.Written.Call.argumentsChars arguments ++ before.chars) ++ ahead) :=
      fun _ => Notation.Reader.stops_cons (Notation.isSpace_of_isAlpha w.isAlpha) _
    have hnode := Notation.operandOf_application after hstops
      (fun _ => Notation.takesTo_call_named hreserved hnumbered hspaced before) hchild
    have htext : (String.ofList (w.call arguments before after) ++ operand).toList
        = w.chars ++ (Notation.Written.Call.argumentsChars arguments ++ before.chars)
          ++ '$' :: (after.chars ++ operand.toList) := by
      simp [Name.call]
    rw [ofNotation, htext, Notation.treeFrom_zero, hnode]
    rfl
  · intro hnumbered behind tree htree
    have htext : (String.ofList w.chars ++ behind).toList = w.chars ++ behind.toList := by simp
    rw [ofNotation, htext, Notation.treeFrom] at htree
    split at htree
    · next e hparse =>
        obtain ⟨f, k, operand, rfl, hf⟩ := Notation.exists_application_of_numbered hnumbered hparse
        obtain ⟨n, hn, rfl⟩ := ok_of_map_eq_ok htree
        obtain ⟨amount, child, rfl⟩ := Notation.exists_stretch_of_toNode hf hn
        exact ⟨amount, child, rfl⟩
    · cases htree

open Notation.Written in
/-- A name with an argument of each kind, and a name that goes on with a number and a letter. -/
theorem ofNotation_named_both :
    let rev : Name := ⟨'r', ['e', 'v'], rfl, List.all_eq_true.mp rfl⟩
    let slower : Name := ⟨'s', ['l', 'o', 'w', '-', '2', 'x'], rfl, List.all_eq_true.mp rfl⟩
    let letter : Node := sequence [scalar (.text "c") none (some ⟨1, 2⟩)]
    ¬ rev.Reserved ∧ ¬ rev.Numbered ∧ ¬ slower.Reserved ∧ slower.Numbered ∧
      operandOf "\"c\"".toList = .ok letter ∧
      ofNotation "rev 2 \"a $\" maj$ \"c\""
        = .ok (sequence [unknown "rev" [letter.located (.moved 17)]]) ∧
      ∀ behind tree, ofNotation ("slow-2x" ++ behind) = .ok tree →
        ∃ amount child, tree = sequence [stretch amount (some child)] := by
  intro rev slower letter
  have hrev : ¬ rev.Reserved := by decide
  have hnumbered : ¬ rev.Numbered := by
    rintro ⟨word, hword, n, more, h⟩
    simp only [List.mem_cons, List.not_mem_nil, or_false] at hword
    rcases hword with rfl | rfl <;> simp [rev] at h
  have hslower : ¬ slower.Reserved := by decide
  have hminus : slower.Numbered :=
    ⟨"slow", List.mem_cons_self, ⟨true, .single '2' rfl, none⟩, ['x'], by decide⟩
  have hletter : operandOf "\"c\"".toList = .ok letter := rfl
  let two : Decimal := ⟨false, .single '2' rfl, none⟩
  let quote : Quotable := ⟨['a', ' ', '$'], List.all_eq_true.mp rfl⟩
  let maj : Name := ⟨'m', ['a', 'j'], rfl, List.all_eq_true.mp rfl⟩
  let arguments : List (Gap × Argument) :=
    [(Notation.blank, .number two), (Notation.blank, .quoted quote), (Notation.blank, .name maj)]
  have hnamed := (ofNotation_named hrev).1 hnumbered arguments .empty Notation.blank _ _
    (by decide) hletter
  have htext : String.ofList (rev.call arguments .empty Notation.blank)
      = "rev 2 \"a $\" maj$ " := by decide
  have hbytes : bytes (rev.call arguments .empty Notation.blank) = 17 := by decide
  rw [htext, hbytes] at hnamed
  exact ⟨hrev, hnumbered, hslower, hminus, hletter, hnamed, (ofNotation_named hslower).2 hminus⟩

/-- A name that is read as another word and a number. -/
theorem ofNotation_numbered :
    let slow2 : Notation.Written.Name := ⟨'s', ['l', 'o', 'w', '2'], rfl, List.all_eq_true.mp rfl⟩
    let letter : Node := sequence [scalar (.text "c") none (some ⟨9, 10⟩)]
    ¬ slow2.Reserved ∧ ofNotation "slow2 $ \"c\"" = .ok (sequence [stretch 2 (some letter)]) ∧
      ofNotation "slow2 $ \"c\""
        ≠ .ok (sequence [unknown (String.ofList slow2.chars) [letter]]) := by
  intro slow2 letter
  let two : Notation.Written.Decimal := ⟨false, .single '2' rfl, none⟩
  have htwo : two.value = 2 := by decide +kernel
  have hcall : ∀ ahead, Notation.Reader.TakesTo Notation.call 0
      (['s', 'l', 'o', 'w', '2'] ++ Notation.blank.chars) ('$' :: ahead) (.slow (two.phrase 4)) :=
    fun _ => (Notation.Reader.Takes.orElse (Notation.takes_numberCall String.toList_ofList rfl .slow
      .empty two 0 (Notation.Reader.stops_cons rfl _))).takesTo Notation.blank
        (Notation.Reader.stops_cons rfl _)
  have hletter : operandOf "\"c\"".toList
      = .ok (sequence [scalar (.text "c") none (some ⟨1, 2⟩)]) := rfl
  have hnode := Notation.operandOf_application Notation.blank
    (fun _ => Notation.Reader.stops_cons rfl _) hcall hletter
  rw [Notation.Call.apply, Notation.Written.toRat_phrase, htwo] at hnode
  have hread : ofNotation "slow2 $ \"c\"" = .ok (sequence [stretch 2 (some letter)]) := by
    rw [ofNotation, Notation.treeFrom_zero]
    exact congrArg (·.map Notation.asRoot) hnode
  refine ⟨by decide, hread, fun h => ?_⟩
  rw [hread] at h
  simp [sequence] at h

end Node

end CyclePatterns

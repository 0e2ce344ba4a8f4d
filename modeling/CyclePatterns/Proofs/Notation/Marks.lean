/-
Every written mark is read.

A reader goes as far as it can, so something must be known of what is ahead: behind a number
there is no step character, behind the marks of a step no further mark either.  With that, the
readers of numbers and marks take the texts that they are written as and give what they say.
-/
import CyclePatterns.Proofs.Notation.Spacing

namespace CyclePatterns.Notation

open Reader
open Written (Digits Decimal Padded Mark marksChars marksPhrase)

/-! ### What is ahead -/

/-- What a mark begins with. -/
def isMarkSign (c : Char) : Bool :=
  c == '*' || c == '/' || c == '%' || c == '?' || c == '@' || c == '!' || c == '('

/-- What may make a step longer. -/
def continuesStep (c : Char) : Bool :=
  isStepChar c || isMarkSign c

/-- White space makes no step longer. -/
theorem continuesStep_of_isSpace {c : Char} (h : isSpace c = true) : continuesStep c = false := by
  simp only [isSpace, Bool.or_eq_true, decide_eq_true_eq] at h
  rcases h with ((rfl | rfl) | rfl) | rfl <;> decide

theorem isSpace_of_continuesStep {c : Char} (h : continuesStep c = true) : isSpace c = false := by
  cases hspace : isSpace c with
  | false => rfl
  | true => exact absurd h (Bool.eq_false_iff.mp (continuesStep_of_isSpace hspace))

theorem continuesStep_of_isStepChar {c : Char} (h : isStepChar c = true) :
    continuesStep c = true := by
  rw [continuesStep, h, Bool.true_or]

theorem continuesStep_of_isMarkSign {c : Char} (h : isMarkSign c = true) :
    continuesStep c = true := by
  rw [continuesStep, h, Bool.or_true]

theorem isStepChar_of_isDigit {c : Char} (h : c.isDigit = true) : isStepChar c = true := by
  simp [isStepChar, Char.isAlphanum, h]

theorem isSpace_of_isDigit {c : Char} (h : c.isDigit = true) : isSpace c = false :=
  isSpace_of_continuesStep (continuesStep_of_isStepChar (isStepChar_of_isDigit h))

theorem isDigit_of_isSpace {c : Char} (h : isSpace c = true) : c.isDigit = false := by
  cases hdigit : c.isDigit with
  | false => rfl
  | true => exact absurd h (Bool.eq_false_iff.mp (isSpace_of_isDigit hdigit))

theorem stops_digits {is : Char → Bool} (n : Digits) (rest : List Char)
    (h : ∀ c, c.isDigit = true → is c = false) : Stops is (n.chars ++ rest) := by
  obtain ⟨c, more, hchars, hc⟩ := n.exists_cons
  rw [hchars]
  exact stops_cons (h c hc) _

/-! ### Numbers -/

section

variable {off : Nat} {rest : List Char}

theorem takes_number (n : Decimal) (hrest : Stops isStepChar rest) :
    Takes number off n.chars rest (n.phrase off) := by
  have hdigit : Stops Char.isDigit rest := hrest.mono fun c => isStepChar_of_isDigit
  have hpoint : Stops (· == '.') rest := hrest.mono fun c hc => by
    rw [beq_iff_eq.mp hc]
    rfl
  have hminus : Takes (optional (exactly '-')) off n.sign (n.whole.chars ++ n.places ++ rest)
      (if n.minus then some () else none) := by
    rw [Decimal.sign]
    cases n.minus with
    | true => exact takes_exactly.optional
    | false =>
        refine Refuses.optional (refuses_exactly ?_)
        rw [List.append_assoc]
        exact stops_digits _ _ fun c hc => beq_eq_false_iff_ne.mpr (Written.isDigit_ne hc rfl)
  have hplaces : Takes (optional decimals) (off + bytes n.sign + bytes n.whole.chars) n.places rest
      (n.fraction.map fun f => '.' :: f.chars) := by
    rw [Decimal.places]
    cases n.fraction with
    | none => exact Refuses.optional (Refuses.bind (refuses_exactly hpoint))
    | some f =>
        exact Takes.optional (Takes.exactly_bind rfl
          (Takes.bind_pure (takes_run1 f.nonempty f.digits hdigit) ('.' :: ·)))
  have hwhole : Takes (run1 Char.isDigit) (off + bytes n.sign) n.whole.chars (n.places ++ rest)
      n.whole.chars := by
    refine takes_run1 n.whole.nonempty n.whole.digits ?_
    rw [Decimal.places]
    cases n.fraction with
    | none => exact hdigit
    | some f => exact stops_cons rfl _
  have htext : (if (if n.minus then some () else none).isSome then ['-'] else []) ++ n.whole.chars
      ++ (n.fraction.map fun f => '.' :: f.chars).getD [] = n.chars := by
    rw [Decimal.chars, Decimal.sign, Decimal.places, List.append_assoc]
    cases n.minus <;> cases n.fraction <;> rfl
  refine Takes.rule (Takes.placed (Takes.of_eq ?_ rfl htext))
  exact Takes.bind hminus (Takes.bind hwhole (Takes.bind_pure hplaces _))

theorem takes_count (n : Digits) (hrest : Stops Char.isDigit rest) :
    Takes count off n.chars rest (n.phrase off) :=
  Takes.rule (Takes.placed (takes_run1 n.nonempty n.digits hrest))

/-- A number begins with a minus or a digit. -/
theorem refuses_number_of_stops {text : List Char} (hminus : Stops (· == '-') text)
    (hdigit : Stops Char.isDigit text) : Refuses number off text := by
  have hnone : Takes (optional (exactly '-')) off [] text none :=
    Refuses.optional (refuses_exactly hminus)
  exact Refuses.rule (Refuses.placed (hnone.refuses_bind (Refuses.bind (refuses_run1 hdigit))))

theorem refuses_number {text : List Char} (h : Stops isStepChar text) :
    Refuses number off text :=
  refuses_number_of_stops (h.mono fun c hc => by rw [beq_iff_eq.mp hc]; rfl)
    (h.mono fun _ => isStepChar_of_isDigit)

theorem refuses_count {text : List Char} (h : Stops Char.isDigit text) :
    Refuses count off text :=
  Refuses.rule (Refuses.placed (refuses_run1 h))

/-! ### Marks -/

theorem takes_signed {sign : Char} (hsize : sign.utf8Size = 1) (make : Numeral → Suffix)
    (n : Decimal) (hrest : Stops isStepChar rest) :
    Takes (signed sign make) off (sign :: n.chars) rest (make (n.phrase (off + 1))) :=
  Takes.rule (Takes.exactly_bind hsize (Takes.bind_pure (takes_number n hrest) make))

theorem takes_signedOptional {sign : Char} (hsize : sign.utf8Size = 1) {p : Reader Numeral}
    (make : Option Numeral → Suffix) {cs : List Char} {n : Option Numeral}
    (h : Takes (optional p) (off + 1) cs rest n) :
    Takes (signedOptional sign p make) off (sign :: cs) rest (make n) :=
  Takes.rule (Takes.exactly_bind hsize (Takes.bind_pure h make))

/-- A count with white space behind it. -/
theorem takes_paddedCount (n : Padded) (hrest : Stops Char.isDigit rest) :
    Takes count off n.count.chars (n.after.chars ++ rest) (n.count.phrase off) :=
  takes_count n.count (stops_gap n.after (fun _ => isDigit_of_isSpace) hrest)

/-- A count behind a comma. -/
theorem takes_commaCount (n : Padded) (hrest : Stops Char.isDigit rest) :
    Takes commaCount off (',' :: (n.before.chars ++ n.count.chars)) (n.after.chars ++ rest)
      (n.phrase (off + 1)) :=
  Takes.exactly_bind rfl (Takes.bind
    (takes_space n.before (stops_digits _ _ fun _ => isSpace_of_isDigit))
    (takes_paddedCount n hrest))

/-- What stands in a rhythm behind its second count. -/
def rotationChars (rotation : Option Padded) : List Char :=
  (rotation.elim [] fun r => ',' :: r.chars) ++ [')']

theorem stops_rotationChars {is : Char → Bool} (rotation : Option Padded) (hcomma : is ',' = false)
    (hclose : is ')' = false) : Stops is (rotationChars rotation ++ rest) := by
  cases rotation with
  | none => exact stops_cons hclose _
  | some r => exact stops_cons hcomma _

/-- A rhythm behind its second count. -/
theorem takes_rotation (rotation : Option Padded) (make : Option Numeral → Suffix) :
    Takes (optional commaCount >>= fun r => space >>= fun _ => exactly ')' >>= fun _ =>
        pure (make r))
      off (rotationChars rotation) rest (make (rotation.map (Padded.phrase (off + 1)))) := by
  have hclose : ∀ off r, Takes (exactly ')' >>= fun _ => pure (make r)) off [')'] rest (make r) :=
    fun off r => Takes.bind_pure takes_exactly _
  have hstop : Stops isSpace ([')'] ++ rest) := stops_cons rfl _
  cases rotation with
  | none =>
      have hnone : Takes (optional commaCount) off [] ([')'] ++ rest) none :=
        Refuses.optional (Refuses.bind (refuses_exactly (stops_cons rfl _)))
      exact (hnone.takesTo .empty hstop).space_bind (hclose _ _)
  | some r =>
      have hsome : Takes (optional commaCount) off (',' :: (r.before.chars ++ r.count.chars))
          (r.after.chars ++ ([')'] ++ rest)) (some (r.phrase (off + 1))) :=
        (takes_commaCount r (stops_cons rfl _)).optional
      refine Takes.of_eq ((hsome.takesTo r.after hstop).space_bind (hclose _ _)) ?_ rfl
      simp only [rotationChars, Option.elim_some, Padded.chars, List.append_assoc, List.cons_append]

/-- A rhythm behind its first count. -/
theorem takes_steps (steps : Padded) (rotation : Option Padded)
    (make : Numeral → Option Numeral → Suffix) :
    Takes (commaCount >>= fun s => space >>= fun _ => optional commaCount >>= fun r =>
        space >>= fun _ => exactly ')' >>= fun _ => pure (make s r))
      off (',' :: (steps.chars ++ rotationChars rotation)) rest
      (make (steps.phrase (off + 1))
        (rotation.map (Padded.phrase (off + 1 + bytes steps.chars + 1)))) := by
  have hcount : Takes commaCount off (',' :: (steps.before.chars ++ steps.count.chars))
      (steps.after.chars ++ (rotationChars rotation ++ rest)) (steps.phrase (off + 1)) :=
    takes_commaCount steps (stops_rotationChars rotation rfl rfl)
  refine Takes.of_eq ((hcount.takesTo steps.after (stops_rotationChars rotation rfl rfl)).space_bind
    (takes_rotation rotation _)) ?_ ?_
  · simp only [Padded.chars, List.append_assoc, List.cons_append]
  · have hcomma : (',').utf8Size = 1 := rfl
    simp only [Padded.chars, bytes_append, bytes_cons, hcomma, Nat.add_assoc]

theorem takes_euclid (pulses steps : Padded) (rotation : Option Padded) :
    Takes euclid off (Mark.euclid pulses steps rotation).chars rest
      ((Mark.euclid pulses steps rotation).phrase off) := by
  have hcount : Takes count (pulses.offset (off + 1)) pulses.count.chars
      (pulses.after.chars ++ (',' :: (steps.chars ++ rotationChars rotation) ++ rest))
      (pulses.phrase (off + 1)) := takes_paddedCount pulses (stops_cons rfl _)
  refine Takes.rule (Takes.exactly_bind rfl (Takes.of_eq (Takes.bind (takes_space pulses.before ?_)
    ((hcount.takesTo pulses.after (stops_cons rfl _)).space_bind
      (takes_steps steps rotation _))) ?_ ?_))
  · rw [List.append_assoc, List.append_assoc]
    exact stops_digits _ _ fun _ => isSpace_of_isDigit
  · simp only [Padded.chars, rotationChars, List.append_assoc]
  · simp only [Mark.phrase, Mark.rotationOffset, Mark.stepsOffset, Padded.offset, Padded.chars,
      bytes_append, Nat.add_assoc]

theorem refuses_signed {sign : Char} {make : Numeral → Suffix} {text : List Char}
    (h : Stops (· == sign) text) : Refuses (signed sign make) off text :=
  Refuses.rule (Refuses.bind (refuses_exactly h))

theorem refuses_signedOptional {sign : Char} {p : Reader Numeral}
    {make : Option Numeral → Suffix} {text : List Char} (h : Stops (· == sign) text) :
    Refuses (signedOptional sign p make) off text :=
  Refuses.rule (Refuses.bind (refuses_exactly h))

theorem refuses_euclid {text : List Char} (h : Stops (· == '(') text) : Refuses euclid off text :=
  Refuses.rule (Refuses.bind (refuses_exactly h))

/-- Each mark is read by the reader for its sign, as all readers before that want another. -/
theorem takes_suffix (m : Mark) (hrest : Stops isStepChar rest) :
    Takes suffix off m.chars rest (m.phrase off) := by
  have hdigit : Stops Char.isDigit rest := hrest.mono fun c => isStepChar_of_isDigit
  cases m with
  | fast n => exact Takes.orElse (takes_signed rfl .fast n hrest)
  | slow n =>
      refine Takes.firstOf [signed '*' .fast] ?_ (takes_signed rfl .slow n hrest)
      simp [refuses_signed, Mark.chars]
  | fixedStep n =>
      refine Takes.firstOf [signed '*' .fast, signed '/' .slow] ?_
        (takes_signed rfl .fixedStep n hrest)
      simp [refuses_signed, Mark.chars]
  | degrade n =>
      have hnumber : Takes (optional number) (off + 1) (n.elim [] Decimal.chars) rest
          (n.map (Decimal.phrase (off + 1))) := by
        cases n with
        | none => exact Refuses.optional (refuses_number hrest)
        | some n => exact Takes.optional (takes_number n hrest)
      refine Takes.firstOf [signed '*' .fast, signed '/' .slow, signed '%' .fixedStep]
        ?_ (takes_signedOptional rfl .degrade hnumber)
      simp [refuses_signed, Mark.chars]
  | weight n =>
      refine Takes.firstOf [signed '*' .fast, signed '/' .slow, signed '%' .fixedStep,
        signedOptional '?' number .degrade] ?_ (takes_signed rfl .weight n hrest)
      simp [refuses_signed, refuses_signedOptional, Mark.chars]
  | replicate n =>
      have hcount : Takes (optional count) (off + 1) (n.elim [] Digits.chars) rest
          (n.map (Digits.phrase (off + 1))) := by
        cases n with
        | none => exact Refuses.optional (refuses_count hdigit)
        | some n => exact Takes.optional (takes_count n hdigit)
      refine Takes.firstOf [signed '*' .fast, signed '/' .slow, signed '%' .fixedStep,
        signedOptional '?' number .degrade, signed '@' .weight] ?_
        (takes_signedOptional rfl .replicate hcount)
      simp [refuses_signed, refuses_signedOptional, Mark.chars]
  | euclid pulses steps rotation =>
      refine Takes.firstOf [signed '*' .fast, signed '/' .slow, signed '%' .fixedStep,
        signedOptional '?' number .degrade, signed '@' .weight,
        signedOptional '!' count .replicate] ?_ (takes_euclid pulses steps rotation)
      simp [refuses_signed, refuses_signedOptional, Mark.chars]

/-- A text that begins with no sign is no mark. -/
theorem refuses_suffix {text : List Char} (h : Stops isMarkSign text) :
    Refuses suffix off text := by
  have hsign : ∀ sign, isMarkSign sign = true → Stops (· == sign) text := fun sign hs =>
    h.mono fun c hc => beq_iff_eq.mp hc ▸ hs
  refine Refuses.firstOf ?_
  simp only [List.forall_mem_cons, List.not_mem_nil, IsEmpty.forall_iff, implies_true, and_true]
  exact ⟨refuses_signed (hsign _ rfl), refuses_signed (hsign _ rfl), refuses_signed (hsign _ rfl),
    refuses_signedOptional (hsign _ rfl), refuses_signed (hsign _ rfl),
    refuses_signedOptional (hsign _ rfl), refuses_euclid (hsign _ rfl)⟩

theorem Written.Mark.exists_cons (m : Mark) :
    ∃ c cs, m.chars = c :: cs ∧ isMarkSign c = true ∧ isStepChar c = false := by
  cases m <;> exact ⟨_, _, rfl, rfl, rfl⟩

/-- Marks do not begin with a step character. -/
theorem stops_marksChars (marks : List Mark) (hrest : Stops isStepChar rest) :
    Stops isStepChar (marksChars marks ++ rest) := by
  cases marks with
  | nil => exact hrest
  | cons m marks =>
      obtain ⟨c, cs, hchars, -, hc⟩ := m.exists_cons
      rw [marksChars, List.flatMap_cons, hchars]
      exact stops_cons hc _

theorem repeats_suffix (marks : List Mark) (hrest : Stops isStepChar rest)
    (hsign : Stops isMarkSign rest) (off : Nat) :
    Repeats suffix ⟨off, marksChars marks ++ rest⟩ (marksPhrase off marks)
      ⟨off + bytes (marksChars marks), rest⟩ := by
  induction marks generalizing off with
  | nil => exact .stop (refuses_suffix hsign)
  | cons m marks ih =>
      have hfirst : Takes suffix off m.chars (marksChars marks ++ rest) (m.phrase off) :=
        takes_suffix m (stops_marksChars marks hrest)
      rw [marksChars, List.flatMap_cons, List.append_assoc, bytes_append, ← Nat.add_assoc]
      exact .next hfirst (ih _)

theorem length_marksPhrase_le (off : Nat) (marks : List Mark) :
    (marksPhrase off marks).length ≤ (marksChars marks).length := by
  induction marks generalizing off with
  | nil => exact Nat.le_refl _
  | cons m marks ih =>
      obtain ⟨c, cs, hchars, -, -⟩ := m.exists_cons
      have htail := ih (off + bytes m.chars)
      rw [marksChars, List.flatMap_cons, hchars, marksPhrase, List.length_cons, List.length_append,
        List.length_cons]
      rw [marksChars] at htail
      omega

theorem takes_suffixes (marks : List Mark) (hrest : Stops continuesStep rest) :
    Takes (many suffix) off (marksChars marks) rest (marksPhrase off marks) := by
  refine (repeats_suffix marks (hrest.mono ?_) (hrest.mono ?_) off).many ?_
  · exact fun _ => continuesStep_of_isStepChar
  · exact fun _ => continuesStep_of_isMarkSign
  · have := length_marksPhrase_le off marks
    rw [List.length_append]
    omega

end

end CyclePatterns.Notation

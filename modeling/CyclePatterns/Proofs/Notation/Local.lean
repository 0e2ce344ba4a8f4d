/-
Notation is read by itself.

What layers are read from does not show where they stand.  A quote or a closing bracket ends
them, and no reader inside goes on with either, as long as every bracket is closed again before.
So layers that are read in one text are read as the same in any other one that has them between
brackets or quotes; only the places are those of the other text.
-/
import CyclePatterns.Proofs.Notation.Agreement
import CyclePatterns.Proofs.Notation.Completeness
import CyclePatterns.Proofs.Notation.Soundness

namespace CyclePatterns.Notation

open Reader
open Written (Gap Mark marksChars bracketed)

/-! ### The same in other places -/

/-- A suffix with other places. -/
def Suffix.located (g : SourceSpan → SourceSpan) : Suffix → Suffix
  | .fast n => .fast (n.located g)
  | .slow n => .slow (n.located g)
  | .fixedStep n => .fixedStep (n.located g)
  | .degrade n => .degrade (n.map (Numeral.located g))
  | .weight n => .weight (n.located g)
  | .replicate n => .replicate (n.map (Numeral.located g))
  | .euclid pulses steps rotation =>
    .euclid (pulses.located g) (steps.located g) (rotation.map (Numeral.located g))

mutual
/-- A step with other places. -/
def Step.located (g : SourceSpan → SourceSpan) : Step → Step
  | .word text place suffixes => .word text (g place) (suffixes.map (Suffix.located g))
  | .bracket layers place suffixes =>
    .bracket (layersLocated g layers) (g place) (suffixes.map (Suffix.located g))
termination_by structural s => s

/-- Steps with other places. -/
def stepsLocated (g : SourceSpan → SourceSpan) : List Step → List Step
  | [] => []
  | s :: rest => s.located g :: stepsLocated g rest
termination_by structural ss => ss

/-- Layers with other places. -/
def layersLocated (g : SourceSpan → SourceSpan) : List (List Step) → List (List Step)
  | [] => []
  | ss :: rest => stepsLocated g ss :: layersLocated g rest
termination_by structural ls => ls
end

theorem stepsLocated_eq_map (g : SourceSpan → SourceSpan) (ss : List Step) :
    stepsLocated g ss = ss.map (Step.located g) := by
  induction ss with
  | nil => rfl
  | cons s rest ih => rw [stepsLocated, ih, List.map_cons]

theorem layersLocated_eq_map (g : SourceSpan → SourceSpan) (ls : List (List Step)) :
    layersLocated g ls = ls.map (stepsLocated g) := by
  induction ls with
  | nil => rfl
  | cons ss rest ih => rw [layersLocated, ih, List.map_cons]

/-! ### Brackets are closed -/

/-- As many brackets are opened as are closed. -/
def Level (cs : List Char) : Prop :=
  cs.count '[' = cs.count ']'

instance (cs : List Char) : Decidable (Level cs) :=
  inferInstanceAs (Decidable (_ = _))

/-- So many more brackets are closed than are opened. -/
def Closes (k : Nat) (text : List Char) : Prop :=
  text.count '[' + k ≤ text.count ']'

theorem Level.append {cs ds : List Char} (hcs : Level cs) (hds : Level ds) : Level (cs ++ ds) := by
  unfold Level at *
  rw [List.count_append, List.count_append, hcs, hds]

theorem level_of_forall {cs : List Char} (h : ∀ c ∈ cs, c ≠ '[' ∧ c ≠ ']') : Level cs := by
  unfold Level
  rw [List.count_eq_zero.mpr fun hc => (h _ hc).1 rfl,
    List.count_eq_zero.mpr fun hc => (h _ hc).2 rfl]

theorem Closes.of_level {k : Nat} {cs ds : List Char} (h : Closes k (cs ++ ds)) (hcs : Level cs) :
    Closes k ds := by
  unfold Closes Level at *
  rw [List.count_append, List.count_append] at h
  omega

theorem Closes.ne_nil {k : Nat} {text : List Char} (h : Closes (k + 1) text) : text ≠ [] := by
  rintro rfl
  simp [Closes] at h

theorem closes_of_open {k : Nat} {text : List Char} (h : Closes k ('[' :: text)) :
    Closes (k + 1) text := by
  unfold Closes at *
  simp only [List.count_cons, beq_self_eq_true, if_true] at h
  have hne : ('[' == ']') = false := by decide
  simp only [hne, Bool.false_eq_true, if_false] at h
  omega

/-! ### Written parts are level -/

section

open Written (Digits Decimal Padded Word)

theorem Level.cons {c : Char} {cs : List Char} (h : Level cs) (hopen : c ≠ '[') (hclose : c ≠ ']') :
    Level (c :: cs) := by
  unfold Level at *
  rw [List.count_cons_of_ne hopen, List.count_cons_of_ne hclose, h]

theorem level_nil : Level [] := rfl

theorem level_of_class {is : Char → Bool} {cs : List Char} (h : ∀ c ∈ cs, is c = true)
    (hopen : is '[' = false) (hclose : is ']' = false) : Level cs := by
  refine level_of_forall fun c hc => ⟨?_, ?_⟩
  · rintro rfl
    exact Bool.noConfusion (hopen.symm.trans (h _ hc))
  · rintro rfl
    exact Bool.noConfusion (hclose.symm.trans (h _ hc))

theorem level_gap (g : Gap) : Level g.chars :=
  level_of_class g.spaces rfl rfl

theorem level_digits (n : Digits) : Level n.chars :=
  level_of_class n.digits rfl rfl

theorem level_decimal (n : Decimal) : Level n.chars := by
  rw [Decimal.chars, Decimal.sign, Decimal.places]
  refine Level.append ?_ (Level.append (level_digits n.whole) ?_)
  · cases n.minus <;> decide
  · cases n.fraction with
    | none => exact level_nil
    | some f => exact (level_digits f).cons (by decide) (by decide)

theorem level_padded (n : Padded) : Level n.chars :=
  (level_gap n.before).append ((level_digits n.count).append (level_gap n.after))

theorem level_mark (m : Mark) : Level m.chars := by
  cases m with
  | fast n => exact (level_decimal n).cons (by decide) (by decide)
  | slow n => exact (level_decimal n).cons (by decide) (by decide)
  | fixedStep n => exact (level_decimal n).cons (by decide) (by decide)
  | weight n => exact (level_decimal n).cons (by decide) (by decide)
  | degrade n =>
      refine Level.cons ?_ (by decide) (by decide)
      cases n with
      | none => exact level_nil
      | some n => exact level_decimal n
  | replicate n =>
      refine Level.cons ?_ (by decide) (by decide)
      cases n with
      | none => exact level_nil
      | some n => exact level_digits n
  | euclid pulses steps rotation =>
      have hrotation : Level (rotation.elim [] fun r => ',' :: r.chars) := by
        cases rotation with
        | none => exact level_nil
        | some r => exact (level_padded r).cons (by decide) (by decide)
      refine Level.cons ((level_padded pulses).append (Level.cons ?_ (by decide) (by decide)))
        (by decide) (by decide)
      exact ((level_padded steps).append hrotation).append (by decide)

theorem level_marks (marks : List Mark) : Level (marksChars marks) := by
  induction marks with
  | nil => exact level_nil
  | cons m marks ih =>
      rw [marksChars, List.flatMap_cons]
      exact (level_mark m).append ih

theorem level_bracketed {inner : List Char} (before after : Gap) (h : Level inner) :
    Level (bracketed before inner after) := by
  have hbetween := (level_gap before).append (h.append (level_gap after))
  unfold Level at *
  simp only [bracketed, ← List.append_assoc, List.count_cons, List.count_append] at *
  rw [hbetween]
  simp

mutual
theorem level_step (s : Written.Step) : Level s.chars := by
  cases s with
  | word text marks =>
      rw [Written.Step.chars]
      exact (level_of_class text.stepChars rfl rfl).append (level_marks marks)
  | bracket before body after marks =>
      rw [Written.Step.chars]
      exact (level_bracketed before after (level_layers body)).append (level_marks marks)

theorem level_steps (ss : Written.Steps) : Level ss.chars := by
  cases ss with
  | one first =>
      rw [Written.Steps.chars]
      exact level_step first
  | more first gap rest =>
      rw [Written.Steps.chars]
      exact (level_step first).append ((level_gap gap).append (level_steps rest))

/-- In layers all brackets are closed. -/
theorem level_layers (ls : Written.Layers) : Level ls.chars := by
  cases ls with
  | one first =>
      rw [Written.Layers.chars]
      exact level_steps first
  | more first before after rest =>
      rw [Written.Layers.chars]
      refine (level_steps first).append ((level_gap before).append (Level.cons ?_ ?_ ?_))
      · exact (level_gap after).append (level_layers rest)
      · decide
      · decide
end

end

/-! ### What ends layers -/

/-- A text is empty or begins with a quote or with a closing bracket. -/
inductive Ends : List Char → Prop
  | nil : Ends []
  | quote (rest : List Char) : Ends ('"' :: rest)
  | bracket (rest : List Char) : Ends (']' :: rest)

theorem Ends.stops {e : List Char} (he : Ends e) {is : Char → Bool} (hquote : is '"' = false)
    (hclose : is ']' = false) : Stops is e := by
  cases he with
  | nil => exact stops_nil is
  | quote rest => exact stops_cons hquote rest
  | bracket rest => exact stops_cons hclose rest

section

variable {e e' : List Char} (he : Ends e) (he' : Ends e') {d off : Nat} {text : List Char}

/-! ### Numbers and suffixes -/

include he he'

theorem agree_class {is : Char → Bool} (hquote : is '"' = false) (hclose : is ']' = false) :
    Agree e e' d (run1 is) (run1 is) off text fun cs cs' => cs' = cs :=
  agree_run1 (he.stops hquote hclose) (he'.stops hquote hclose)

theorem agree_sign {c : Char} (hquote : ('"' == c) = false) (hclose : (']' == c) = false) :
    Agree e e' d (exactly c) (exactly c) off text fun _ _ => True :=
  agree_exactly (he.stops hquote hclose) (he'.stops hquote hclose)

theorem agree_gap : Agree e e' d space space off text fun _ _ => True :=
  agree_space (he.stops rfl rfl) (he'.stops rfl rfl)

theorem agree_number :
    Agree e e' d number number off text fun n n' => n' = n.located (SourceSpan.moved d) := by
  have hminus : ∀ off text, Agree e e' d (optional (exactly '-')) (optional (exactly '-')) off text
      fun m m' => m' = m :=
    fun off text => (agree_sign he he' rfl rfl).optional (fun _ _ _ => rfl) rfl
  have hdecimals : ∀ off text, Agree e e' d (optional decimals) (optional decimals) off text
      fun f f' => f' = f := by
    intro off text
    refine Agree.optional (S := fun f f' => f' = f) ?_ (fun _ _ h => congrArg some h) rfl
    refine (agree_sign he he' rfl rfl).bind fun _ _ _ _ _ _ _ => ?_
    exact (agree_class he he' rfl rfl).bind_pure fun _ _ h => congrArg _ h
  refine Agree.rule (Agree.placed ((hminus _ _).bind fun _ _ m m' _ _ hm => ?_))
  refine (agree_class he he' rfl rfl).bind fun _ _ whole whole' _ _ hwhole => ?_
  refine (hdecimals _ _).bind_pure fun f f' hf => ?_
  rw [hm, hwhole, hf]

theorem agree_count :
    Agree e e' d count count off text fun n n' => n' = n.located (SourceSpan.moved d) :=
  (agree_class he he' rfl rfl).placed.rule

theorem agree_signed {sign : Char} (hquote : ('"' == sign) = false) (hclose : (']' == sign) = false)
    {make : Numeral → Suffix}
    (hmake : ∀ n, make (n.located (SourceSpan.moved d))
      = (make n).located (SourceSpan.moved d)) :
    Agree e e' d (signed sign make) (signed sign make) off text
      fun s s' => s' = s.located (SourceSpan.moved d) := by
  refine Agree.rule ((agree_sign he he' hquote hclose).bind fun _ _ _ _ _ _ _ => ?_)
  refine (agree_number he he').bind_pure fun n n' hn => ?_
  rw [hn, hmake]

theorem agree_signedOptional {sign : Char} (hquote : ('"' == sign) = false)
    (hclose : (']' == sign) = false) {p : Reader Numeral} {make : Option Numeral → Suffix}
    (hp : ∀ off text, Agree e e' d p p off text
      fun n n' => n' = n.located (SourceSpan.moved d))
    (hmake : ∀ n : Option Numeral, make (n.map (Numeral.located (SourceSpan.moved d)))
      = (make n).located (SourceSpan.moved d)) :
    Agree e e' d (signedOptional sign p make) (signedOptional sign p make) off text
      fun s s' => s' = s.located (SourceSpan.moved d) := by
  have hoptional : ∀ off text, Agree e e' d (optional p) (optional p) off text
      fun n n' => n' = n.map (Numeral.located (SourceSpan.moved d)) :=
    fun off text => (hp off text).optional (fun _ _ h => congrArg some h) rfl
  refine Agree.rule ((agree_sign he he' hquote hclose).bind fun _ _ _ _ _ _ _ => ?_)
  refine (hoptional _ _).bind_pure fun n n' hn => ?_
  rw [hn, hmake]

theorem agree_commaCount :
    Agree e e' d commaCount commaCount off text
      fun n n' => n' = n.located (SourceSpan.moved d) := by
  refine (agree_sign he he' rfl rfl).bind fun _ _ _ _ _ _ _ => ?_
  exact (agree_gap he he').bind fun _ _ _ _ _ _ _ => agree_count he he'

theorem agree_euclid :
    Agree e e' d euclid euclid off text fun s s' => s' = s.located (SourceSpan.moved d) := by
  have hrotation : ∀ off text, Agree e e' d (optional commaCount) (optional commaCount) off text
      fun n n' => n' = n.map (Numeral.located (SourceSpan.moved d)) :=
    fun off text => (agree_commaCount he he').optional (fun _ _ h => congrArg some h) rfl
  refine Agree.rule ((agree_sign he he' rfl rfl).bind fun _ _ _ _ _ _ _ => ?_)
  refine (agree_gap he he').bind fun _ _ _ _ _ _ _ => ?_
  refine (agree_count he he').bind fun _ _ pulses pulses' _ _ hpulses => ?_
  refine (agree_gap he he').bind fun _ _ _ _ _ _ _ => ?_
  refine (agree_commaCount he he').bind fun _ _ steps steps' _ _ hsteps => ?_
  refine (agree_gap he he').bind fun _ _ _ _ _ _ _ => ?_
  refine (hrotation _ _).bind fun _ _ rotation rotation' _ _ hrotation => ?_
  refine (agree_gap he he').bind fun _ _ _ _ _ _ _ => ?_
  refine (agree_sign he he' rfl rfl).bind_pure fun _ _ _ => ?_
  rw [hpulses, hsteps, hrotation]
  rfl

theorem agree_suffix :
    Agree e e' d suffix suffix off text fun s s' => s' = s.located (SourceSpan.moved d) := by
  refine agree_firstOf ?_
  simp only [List.forall_mem_cons, List.not_mem_nil, IsEmpty.forall_iff, implies_true, and_true]
  refine ⟨?_, ?_, ?_, ?_, ?_, ?_, ?_⟩
  · exact agree_signed he he' rfl rfl fun _ => rfl
  · exact agree_signed he he' rfl rfl fun _ => rfl
  · exact agree_signed he he' rfl rfl fun _ => rfl
  · exact agree_signedOptional he he' rfl rfl (fun _ _ => agree_number he he') fun _ => rfl
  · exact agree_signed he he' rfl rfl fun _ => rfl
  · exact agree_signedOptional he he' rfl rfl (fun _ _ => agree_count he he') fun _ => rfl
  · exact agree_euclid he he'

theorem agree_suffixes :
    Agree e e' d (many suffix) (many suffix) off text
      fun ss ss' => ss' = ss.map (Suffix.located (SourceSpan.moved d)) := by
  refine agree_many (G := fun _ => True) (fun _ _ _ => agree_suffix he he') ?_ trivial
  refine fun off => (takesOnly_suffix off).mono fun cs s hcs => ⟨?_, fun _ _ => trivial⟩
  obtain ⟨m, rfl, -⟩ := hcs
  obtain ⟨c, cs, hchars, -⟩ := m.exists_cons
  rw [hchars]
  exact List.cons_ne_nil _ _

/-! ### Steps and layers -/

theorem agree_wordHead :
    Agree e e' d wordHead wordHead off text fun head head' => ∀ suffixes,
      head' (suffixes.map (Suffix.located (SourceSpan.moved d)))
        = (head suffixes).located (SourceSpan.moved d) := by
  refine Agree.rule (Agree.position ((agree_class he he' rfl rfl).bind
    fun _ _ word word' _ _ hword => Agree.position (agree_pure fun suffixes => ?_)))
  rw [hword, Step.located]
  rfl

variable {depth depth' bound : Nat}

/-- The layers in brackets are read as the same in both texts, if what is ahead is shorter than
the bound and closes its brackets. -/
def AgreeInside (e e' : List Char) (d depth depth' bound : Nat) : Prop :=
  ∀ off text, text.length < bound → Closes 0 text →
    Agree e e' d (layers depth) (layers depth') off text
      fun ls ls' => ls' = layersLocated (SourceSpan.moved d) ls

variable (hinside : AgreeInside e e' d depth depth' bound)

include hinside

/-- Behind the opening bracket more brackets are closed than opened, so the text does not end
before the closing one. -/
theorem agree_bracketHead (hlength : text.length ≤ bound) (hcloses : Closes 0 text) :
    Agree e e' d (bracketHead (layers depth)) (bracketHead (layers depth')) off text
      fun head head' => ∀ suffixes,
        head' (suffixes.map (Suffix.located (SourceSpan.moved d)))
          = (head suffixes).located (SourceSpan.moved d) := by
  refine Agree.rule (Agree.position ((agree_sign he he' rfl rfl).bind
    fun cs ahead _ _ hsplit hcs _ => ?_))
  obtain rfl := takesOnly_exactly.of_takes hcs
  subst hsplit
  rw [List.length_append, List.length_singleton] at hlength
  have hopen : Closes 1 ahead := closes_of_open hcloses
  refine (agree_gap he he').bind fun cs inner _ _ hsplit hcs _ => ?_
  obtain ⟨g, rfl⟩ := takesOnly_space.of_takes hcs
  subst hsplit
  rw [List.length_append] at hlength
  have hinner : Closes 1 inner := hopen.of_level (level_gap g)
  refine (hinside _ _ (by omega) (Nat.le_of_succ_le hinner)).bind
    fun cs behind ls ls' hsplit hcs hls => ?_
  obtain ⟨w, g', rfl, -⟩ := (takesOnly_layers depth _).of_takes hcs
  subst hsplit
  have hbehind : Closes 1 behind := hinner.of_level ((level_layers w).append (level_gap g'))
  refine (agree_gap he he').bind fun cs last _ _ hsplit hcs _ => ?_
  obtain ⟨g'', rfl⟩ := takesOnly_space.of_takes hcs
  subst hsplit
  have hlast : Closes 1 last := hbehind.of_level (level_gap g'')
  refine (agree_exactly_of_ne_nil ']' hlast.ne_nil).bind fun _ _ _ _ _ _ _ => ?_
  refine Agree.position (agree_pure fun suffixes => ?_)
  rw [hls, Step.located]
  rfl

theorem agree_step (hlength : text.length ≤ bound) (hcloses : Closes 0 text) :
    Agree e e' d (step (layers depth)) (step (layers depth')) off text
      fun s s' => s' = s.located (SourceSpan.moved d) := by
  refine Agree.rule (Agree.bind ((agree_wordHead he he').orElse
    (agree_bracketHead he he' hinside hlength hcloses)) fun _ _ head head' _ _ hhead => ?_)
  refine (agree_suffixes he he').bind_pure fun suffixes suffixes' hsuffixes => ?_
  rw [hsuffixes, hhead]

omit hinside in
/-- Several things of a kind are read in both texts. -/
theorem agree_several {α : Type} {p p' : Reader α} {f : α → α}
    (hp : ∀ off text, text.length ≤ bound → Closes 0 text →
      Agree e e' d p p' off text fun a a' => a' = f a)
    (honly : ∀ off, TakesOnly p off fun cs _ => cs ≠ [] ∧ Level cs)
    (hlength : text.length ≤ bound) (hcloses : Closes 0 text) :
    Agree e e' d (manySpaced p) (manySpaced p') off text fun as as' => as' = as.map f := by
  refine agree_manySpaced (G := fun text => text.length ≤ bound ∧ Closes 0 text)
    (fun off text htext => hp off text htext.1 htext.2) ?_ ?_ (he.stops rfl rfl) (he'.stops rfl rfl)
    ⟨hlength, hcloses⟩
  · refine fun off => (honly off).mono fun cs a hcs => ⟨hcs.1, fun ds hds => ⟨?_, ?_⟩⟩
    · exact Nat.le_trans (by simp) hds.1
    · exact hds.2.of_level hcs.2
  · refine fun g ds hds => ⟨Nat.le_trans (by simp) hds.1, ?_⟩
    exact hds.2.of_level (level_gap g)

theorem agree_layer (hlength : text.length ≤ bound) (hcloses : Closes 0 text) :
    Agree e e' d (layer (layers depth)) (layer (layers depth')) off text
      fun ss ss' => ss' = stepsLocated (SourceSpan.moved d) ss := by
  have hstep := fun off => takesOnly_step (takesOnly_layers depth) off
  have hstepOnly : ∀ off, TakesOnly (step (layers depth)) off fun cs _ => cs ≠ [] ∧ Level cs := by
    refine fun off => (hstep off).mono fun cs s hcs => ?_
    obtain ⟨w, rfl, -⟩ := hcs
    obtain ⟨c, cs, hchars, -⟩ := w.exists_cons
    refine ⟨?_, level_step w⟩
    rw [hchars]
    exact List.cons_ne_nil _ _
  refine Agree.rule ((agree_step he he' hinside hlength hcloses).bind
    fun cs ahead s s' hsplit hcs hs => ?_)
  have hahead : Closes 0 ahead := (hsplit ▸ hcloses).of_level (hstepOnly _ |>.of_takes hcs).2
  rw [hsplit, List.length_append] at hlength
  refine (agree_gap he he').bind fun cs more _ _ hsplit hcs _ => ?_
  obtain ⟨g, rfl⟩ := takesOnly_space.of_takes hcs
  rw [hsplit, List.length_append] at hlength
  have hmore : Closes 0 more := (hsplit ▸ hahead).of_level (level_gap g)
  refine (agree_several he he' (fun off text => agree_step he he' hinside) hstepOnly (by omega)
    hmore).bind_pure fun ss ss' hss => ?_
  rw [hs, hss, stepsLocated, stepsLocated_eq_map]

theorem agree_commaLayer (hlength : text.length ≤ bound) (hcloses : Closes 0 text) :
    Agree e e' d (commaLayer (layers depth)) (commaLayer (layers depth')) off text
      fun ss ss' => ss' = stepsLocated (SourceSpan.moved d) ss := by
  refine (agree_sign he he' rfl rfl).bind fun cs ahead _ _ hsplit hcs _ => ?_
  obtain rfl := takesOnly_exactly.of_takes hcs
  have hahead : Closes 0 ahead := (hsplit ▸ hcloses).of_level (by decide)
  rw [hsplit, List.length_append] at hlength
  refine (agree_gap he he').bind fun cs more _ _ hsplit hcs _ => ?_
  obtain ⟨g, rfl⟩ := takesOnly_space.of_takes hcs
  rw [hsplit, List.length_append] at hlength
  exact agree_layer he he' hinside (by omega) ((hsplit ▸ hahead).of_level (level_gap g))

/-- Layers agree if they do in brackets. -/
theorem agree_layers_succ (hlength : text.length ≤ bound) (hcloses : Closes 0 text) :
    Agree e e' d (layers (depth + 1)) (layers (depth' + 1)) off text
      fun ls ls' => ls' = layersLocated (SourceSpan.moved d) ls := by
  have hcommaOnly : ∀ off, TakesOnly (commaLayer (layers depth)) off
      fun cs _ => cs ≠ [] ∧ Level cs := by
    refine fun off => (takesOnly_commaLayer (takesOnly_layers depth) off).mono fun cs ss hcs => ?_
    obtain ⟨g, _, rfl, w, g', rfl, -⟩ := hcs
    refine ⟨List.cons_ne_nil _ _, Level.cons ?_ (by decide) (by decide)⟩
    exact (level_gap g).append ((level_steps w).append (level_gap g'))
  refine Agree.rule ((agree_layer he he' hinside hlength hcloses).bind
    fun cs ahead ss ss' hsplit hcs hss => ?_)
  obtain ⟨w, g, rfl, -⟩ := (takesOnly_layer (takesOnly_layers depth) off).of_takes hcs
  have hahead : Closes 0 ahead :=
    (hsplit ▸ hcloses).of_level ((level_steps w).append (level_gap g))
  rw [hsplit] at hlength
  refine (agree_gap he he').bind fun cs more _ _ hsplit hcs _ => ?_
  obtain ⟨g', rfl⟩ := takesOnly_space.of_takes hcs
  rw [hsplit] at hlength
  simp only [List.length_append] at hlength
  have hmore : Closes 0 more := (hsplit ▸ hahead).of_level (level_gap g')
  refine (agree_several he he' (fun off text => agree_commaLayer he he' hinside) hcommaOnly
    (by omega) hmore).bind_pure fun ls ls' hls => ?_
  have hmap : ls' = ls.map (stepsLocated (SourceSpan.moved d)) := hls
  rw [hss, hmap, layersLocated, layersLocated_eq_map]

omit hinside in
/-- **Layers are read as the same wherever they stand**, if the brackets they open are closed
ahead, and whatever depth is allowed, as long as it is more than there are characters. -/
theorem agree_layers : ∀ {bound depth depth' : Nat}, bound < depth → bound < depth' →
    text.length ≤ bound → Closes 0 text →
      Agree e e' d (layers depth) (layers depth') off text
        fun ls ls' => ls' = layersLocated (SourceSpan.moved d) ls := by
  intro bound
  induction bound generalizing off text with
  | zero =>
      intro depth depth' hdepth hdepth' hlength hcloses
      obtain ⟨depth, rfl⟩ := Nat.exists_eq_add_one_of_ne_zero (Nat.ne_of_gt hdepth)
      obtain ⟨depth', rfl⟩ := Nat.exists_eq_add_one_of_ne_zero (Nat.ne_of_gt hdepth')
      have hinside : AgreeInside e e' d depth depth' 0 :=
        fun _ _ hlength => absurd hlength (Nat.not_lt_zero _)
      exact agree_layers_succ he he' hinside hlength hcloses
  | succ bound ih =>
      intro depth depth' hdepth hdepth' hlength hcloses
      obtain ⟨depth, rfl⟩ := Nat.exists_eq_add_one_of_ne_zero (Nat.ne_zero_of_lt hdepth)
      obtain ⟨depth', rfl⟩ := Nat.exists_eq_add_one_of_ne_zero (Nat.ne_zero_of_lt hdepth')
      have hinside : AgreeInside e e' d depth depth' (bound + 1) :=
        fun _ _ hlength hcloses => ih (by omega) (by omega) (by omega) hcloses
      exact agree_layers_succ he he' hinside hlength hcloses

end

end CyclePatterns.Notation

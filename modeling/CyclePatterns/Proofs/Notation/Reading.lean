/-
What readers take.

Two questions are asked of a reader.  `Takes` says that it takes a given text from the front
of what is ahead, and is what completeness is made of.  `TakesOnly` says something of every
text that it may take, and is what soundness is made of.  For each way of making a reader of
others there is a lemma that answers each question.
-/
import CyclePatterns.Proofs.Notation.Written

namespace CyclePatterns.Notation.Reader

variable {α β : Type}

/-- From an offset, with `cs` ahead and `rest` behind it, the reader takes `cs`. -/
def Takes (p : Reader α) (off : Nat) (cs rest : List Char) (a : α) : Prop :=
  (p ⟨off, cs ++ rest⟩).result = some (a, ⟨off + bytes cs, rest⟩)

/-- The reader fails with this text ahead. -/
def Refuses (p : Reader α) (off : Nat) (text : List Char) : Prop :=
  (p ⟨off, text⟩).result = none

/-- What the reader takes from an offset, whatever is ahead, has the property. -/
def TakesOnly (p : Reader α) (off : Nat) (Q : List Char → α → Prop) : Prop :=
  ∀ text a here, (p ⟨off, text⟩).result = some (a, here) →
    ∃ cs, text = cs ++ here.rest ∧ here.offset = off + bytes cs ∧ Q cs a

/-- A text does not begin with a character of the class. -/
def Stops (is : Char → Bool) (text : List Char) : Prop :=
  ∀ c rest, text = c :: rest → is c = false

theorem stops_nil (is : Char → Bool) : Stops is [] :=
  fun _ _ h => nomatch h

theorem stops_cons {is : Char → Bool} {c : Char} (h : is c = false) (rest : List Char) :
    Stops is (c :: rest) := by
  rintro d rest' hd
  rw [← (List.cons.inj hd).1]
  exact h

@[simp] theorem stops_cons_iff {is : Char → Bool} {c : Char} {rest : List Char} :
    Stops is (c :: rest) ↔ is c = false :=
  ⟨fun h => h c rest rfl, fun h => stops_cons h rest⟩

theorem Takes.of_eq {p : Reader α} {off : Nat} {cs cs' rest : List Char} {a a' : α}
    (h : Takes p off cs rest a) (hcs : cs = cs') (ha : a = a') : Takes p off cs' rest a' :=
  hcs ▸ ha ▸ h

theorem Stops.mono {is is' : Char → Bool} {text : List Char} (h : Stops is' text)
    (hle : ∀ c, is c = true → is' c = true) : Stops is text := by
  intro c rest htext
  cases his : is c with
  | false => rfl
  | true => exact absurd (hle c his) (Bool.eq_false_iff.mp (h c rest htext))

/-! ### One reader and then another -/

section

variable {p : Reader α} {q : α → Reader β} {off : Nat} {cs ds rest : List Char} {a : α} {b : β}

theorem takes_pure (off : Nat) (rest : List Char) (a : α) :
    Takes (pure a) off [] rest a := rfl

theorem Takes.bind (hp : Takes p off cs (ds ++ rest) a)
    (hq : Takes (q a) (off + bytes cs) ds rest b) : Takes (p >>= q) off (cs ++ ds) rest b := by
  unfold Takes at *
  show (andThen p q _).result = _
  rw [andThen, List.append_assoc, hp]
  dsimp only
  rw [hq, bytes_append, Nat.add_assoc]

/-- A reader may succeed and take nothing. -/
theorem Takes.nil_bind (hp : Takes p off [] (ds ++ rest) a) (hq : Takes (q a) off ds rest b) :
    Takes (p >>= q) off ds rest b :=
  hp.bind hq

theorem Takes.bind_pure (hp : Takes p off cs rest a) (f : α → β) :
    Takes (p >>= fun a => pure (f a)) off cs rest (f a) := by
  have h : Takes (p >>= fun a => pure (f a)) off (cs ++ []) rest (f a) :=
    Takes.bind hp (takes_pure _ _ _)
  rwa [List.append_nil] at h

theorem Refuses.bind (hp : Refuses p off cs) : Refuses (p >>= q) off cs := by
  unfold Refuses at *
  show (andThen p q _).result = _
  rw [andThen, hp]

theorem Takes.refuses_bind (hp : Takes p off cs rest a)
    (hq : Refuses (q a) (off + bytes cs) rest) : Refuses (p >>= q) off (cs ++ rest) := by
  unfold Takes at hp
  unfold Refuses at *
  show (andThen p q _).result = _
  rw [andThen, hp]
  exact hq

variable {R : List Char → α → Prop} {Q : List Char → β → Prop}

theorem takesOnly_pure (h : Q [] b) : TakesOnly (pure b) off Q := by
  rintro text a here ha
  obtain ⟨rfl, rfl⟩ := Prod.mk.inj (Option.some.inj ha)
  exact ⟨[], rfl, rfl, h⟩

/-- Behind a reader that succeeds the next one goes on. -/
theorem result_bind {c mid : Cursor} (h : (p c).result = some (a, mid)) :
    ((p >>= q) c).result = (q a mid).result := by
  show (andThen p q c).result = _
  rw [andThen, h]

/-- Where two readers succeed, the first one does, and the second behind it. -/
theorem exists_of_bind {c here : Cursor} (h : ((p >>= q) c).result = some (b, here)) :
    ∃ a mid, (p c).result = some (a, mid) ∧ (q a mid).result = some (b, here) := by
  change (andThen p q c).result = _ at h
  rw [andThen] at h
  cases hfirst : (p c).result with
  | none =>
      simp only [hfirst] at h
      exact nomatch h
  | some found =>
      simp only [hfirst] at h
      exact ⟨found.1, found.2, rfl, h⟩

theorem TakesOnly.bind (hp : TakesOnly p off R)
    (hq : ∀ cs a, R cs a → TakesOnly (q a) (off + bytes cs) fun ds b => Q (cs ++ ds) b) :
    TakesOnly (p >>= q) off Q := by
  intro text b here hb
  obtain ⟨a, ⟨offset, ahead⟩, hfirst, hsecond⟩ := exists_of_bind hb
  obtain ⟨cs, rfl, rfl, hR⟩ := hp text a _ hfirst
  obtain ⟨ds, hds, hoffset, hQ⟩ := hq cs a hR ahead b here hsecond
  exact ⟨cs ++ ds, by rw [hds, List.append_assoc],
    by rw [hoffset, bytes_append, Nat.add_assoc], hQ⟩

theorem TakesOnly.mono {Q R : List Char → α → Prop} (hp : TakesOnly p off R)
    (h : ∀ cs a, R cs a → Q cs a) : TakesOnly p off Q := by
  intro text a here ha
  obtain ⟨cs, htext, hoffset, hR⟩ := hp text a here ha
  exact ⟨cs, htext, hoffset, h cs a hR⟩

end

/-! ### Alternatives -/

section

variable {p q : Reader α} {off : Nat} {cs rest text : List Char} {a : α}
  {Q : List Char → α → Prop}

theorem result_rule (p : Reader α) (c : Cursor) : (rule p c).result = (p c).result := by
  cases h : (p c).result with
  | none => simp only [rule, h]
  | some found => simp only [rule, h]

theorem Takes.rule (h : Takes p off cs rest a) : Takes (rule p) off cs rest a :=
  (result_rule p _).trans h

theorem Refuses.rule (h : Refuses p off text) : Refuses (rule p) off text :=
  (result_rule p _).trans h

theorem TakesOnly.rule (h : TakesOnly p off Q) : TakesOnly (rule p) off Q :=
  fun text a here ha => h text a here ((result_rule p _).symm.trans ha)

theorem Takes.orElse (h : Takes p off cs rest a) : Takes (orElse p q) off cs rest a := by
  unfold Takes at *
  rw [Reader.orElse, h]

theorem Refuses.orElse_takes (hp : Refuses p off (cs ++ rest)) (hq : Takes q off cs rest a) :
    Takes (orElse p q) off cs rest a := by
  unfold Refuses at hp
  unfold Takes at *
  rw [Reader.orElse, hp]
  exact hq

theorem Refuses.orElse (hp : Refuses p off text) (hq : Refuses q off text) :
    Refuses (orElse p q) off text := by
  unfold Refuses at *
  rw [Reader.orElse, hp]
  exact hq

/-- Where one reader or else another succeeds, the first one does, or the second where it fails. -/
theorem exists_of_orElse {c here : Cursor} (h : (Reader.orElse p q c).result = some (a, here)) :
    (p c).result = some (a, here) ∨ (p c).result = none ∧ (q c).result = some (a, here) := by
  rw [Reader.orElse] at h
  cases hfirst : (p c).result with
  | none =>
      simp only [hfirst] at h
      exact .inr ⟨rfl, h⟩
  | some found =>
      simp only [hfirst] at h
      exact .inl h

theorem TakesOnly.orElse (hp : TakesOnly p off Q) (hq : TakesOnly q off Q) :
    TakesOnly (orElse p q) off Q := by
  intro text a here ha
  rcases exists_of_orElse ha with hfirst | ⟨-, hsecond⟩
  · exact hp text a here hfirst
  · exact hq text a here hsecond

/-- What holds of a reader that fails, and of one reader or else another if it holds of both, holds
of the first of several that succeeds. -/
theorem firstOf_induction {motive : Reader α → Prop} (hfail : motive fail)
    (horElse : ∀ p q, motive p → motive q → motive (Reader.orElse p q)) {ps : List (Reader α)}
    (h : ∀ p ∈ ps, motive p) : motive (Reader.firstOf ps) := by
  induction ps with
  | nil => exact hfail
  | cons p ps ih =>
      obtain ⟨hp, hps⟩ := List.forall_mem_cons.mp h
      cases ps with
      | nil => exact hp
      | cons _ _ => exact horElse _ _ hp (ih hps)

theorem Refuses.firstOf {ps : List (Reader α)} (h : ∀ p ∈ ps, Refuses p off text) :
    Refuses (firstOf ps) off text :=
  firstOf_induction (motive := fun p => Refuses p off text) rfl (fun _ _ => Refuses.orElse) h

theorem TakesOnly.firstOf {ps : List (Reader α)} (h : ∀ p ∈ ps, TakesOnly p off Q) :
    TakesOnly (firstOf ps) off Q :=
  firstOf_induction (motive := fun p => TakesOnly p off Q) (fun _ _ _ ha => nomatch ha)
    (fun _ _ => TakesOnly.orElse) h

/-- The readers in front refuse and the next one takes. -/
theorem Takes.firstOf (before : List (Reader α)) {after : List (Reader α)}
    (hbefore : ∀ q ∈ before, Refuses q off (cs ++ rest)) (h : Takes p off cs rest a) :
    Takes (firstOf (before ++ p :: after)) off cs rest a := by
  induction before with
  | nil =>
      cases after with
      | nil => exact h
      | cons _ _ => exact h.orElse
  | cons q before ih =>
      have htail := ih fun q hq => hbefore q (List.mem_cons_of_mem _ hq)
      have hfirst := hbefore q List.mem_cons_self
      cases hps : before ++ p :: after with
      | nil => exact absurd hps (by simp)
      | cons _ _ =>
          rw [hps] at htail
          rw [List.cons_append, hps]
          exact hfirst.orElse_takes htail

theorem Takes.optional (h : Takes p off cs rest a) :
    Takes (optional p) off cs rest (some a) :=
  Takes.orElse (Takes.bind_pure h some)

theorem Refuses.optional (h : Refuses p off text) :
    Takes (optional p) off [] text none :=
  Refuses.orElse_takes (Refuses.bind h) (takes_pure _ _ _)

theorem TakesOnly.optional {Q : List Char → Option α → Prop}
    (hsome : TakesOnly p off fun cs a => Q cs (some a)) (hnone : Q [] none) :
    TakesOnly (optional p) off Q := by
  refine TakesOnly.orElse (TakesOnly.bind hsome fun cs a hQ => takesOnly_pure ?_)
    (takesOnly_pure hnone)
  rwa [List.append_nil]

end

/-! ### As often as possible -/

/-- The reader succeeds again and again, and at last fails. -/
inductive Repeats (p : Reader α) : Cursor → List α → Cursor → Prop
  | stop {c : Cursor} (h : (p c).result = none) : Repeats p c [] c
  | next {c mid last : Cursor} {a : α} {as : List α} (h : (p c).result = some (a, mid))
      (rest : Repeats p mid as last) : Repeats p c (a :: as) last

theorem Repeats.upTo {p : Reader α} {c last : Cursor} {as : List α} (h : Repeats p c as last) :
    ∀ {fuel : Nat}, as.length ≤ fuel → (upTo fuel p c).result = some (as, last) := by
  induction h with
  | stop h =>
      intro fuel _
      cases fuel with
      | zero => rfl
      | succ fuel =>
          rw [Reader.upTo, Reader.orElse, andThen]
          simp only [h]
          rfl
  | @next c mid last a as h rest ih =>
      intro fuel hfuel
      cases fuel with
      | zero => exact absurd hfuel (Nat.not_succ_le_zero _)
      | succ fuel =>
          have hrest := ih (Nat.le_of_succ_le_succ hfuel)
          rw [Reader.upTo, Reader.orElse, andThen]
          simp only [h, andThen, hrest]
          rfl

theorem Repeats.many {p : Reader α} {c last : Cursor} {as : List α} (h : Repeats p c as last)
    (hlength : as.length ≤ c.rest.length) : (many p c).result = some (as, last) :=
  h.upTo (Nat.le_succ_of_le hlength)

/-- What is listed has the property item by item, each where the one before it ends. -/
inductive Listed (R : Nat → List Char → α → Prop) : Nat → List Char → List α → Prop
  | nil (off : Nat) : Listed R off [] []
  | cons {off : Nat} {cs ds : List Char} {a : α} {as : List α} (h : R off cs a)
      (rest : Listed R (off + bytes cs) ds as) : Listed R off (cs ++ ds) (a :: as)

section

variable {p : Reader α} {R : Nat → List Char → α → Prop}

theorem takesOnly_upTo (h : ∀ off, TakesOnly p off (R off)) (fuel off : Nat) :
    TakesOnly (upTo fuel p) off (Listed R off) := by
  induction fuel generalizing off with
  | zero => exact takesOnly_pure (.nil off)
  | succ fuel ih =>
      refine TakesOnly.orElse ?_ (takesOnly_pure (.nil off))
      refine TakesOnly.bind (h off) fun cs a ha => TakesOnly.bind (ih _) fun ds as has => ?_
      refine takesOnly_pure ?_
      rw [List.append_nil]
      exact .cons ha has

theorem takesOnly_many (h : ∀ off, TakesOnly p off (R off)) (off : Nat) :
    TakesOnly (many p) off (Listed R off) :=
  fun text a here ha => takesOnly_upTo h _ off text a here ha

end

/-! ### Characters -/

section

variable {is : Char → Bool} {c : Char} {off : Nat} {cs rest text : List Char}

theorem takes_char (h : is c = true) : Takes (char is) off [c] rest c := by
  show (char is ⟨off, c :: rest⟩).result = _
  rw [char, bytes_singleton]
  simp only [h, if_true]
  rfl

theorem refuses_char (h : Stops is text) : Refuses (char is) off text := by
  unfold Refuses
  rw [char]
  cases text with
  | nil => rfl
  | cons d rest => simp only [h d rest rfl, Bool.false_eq_true, if_false]

theorem takesOnly_char : TakesOnly (char is) off fun cs c => cs = [c] ∧ is c = true := by
  intro text a here ha
  cases text with
  | nil => exact nomatch ha
  | cons d rest =>
      rw [char] at ha
      dsimp only at ha
      split at ha
      · next hd =>
          obtain ⟨rfl, rfl⟩ := Prod.mk.inj (Option.some.inj ha)
          exact ⟨[d], rfl, by rw [bytes_singleton]; rfl, rfl, hd⟩
      · exact nomatch ha

theorem takes_exactly : Takes (exactly c) off [c] rest () :=
  Takes.bind_pure (takes_char (beq_self_eq_true c)) _

theorem Takes.exactly_bind {q : Unit → Reader α} {a : α} (hsize : c.utf8Size = 1)
    (h : Takes (q ()) (off + 1) cs rest a) :
    Takes (exactly c >>= q) off (c :: cs) rest a := by
  have hfirst : Takes (exactly c) off [c] (cs ++ rest) () := takes_exactly
  refine hfirst.bind ?_
  rw [bytes_cons, bytes_nil, hsize]
  exact h

theorem refuses_exactly (h : Stops (· == c) text) : Refuses (exactly c) off text :=
  Refuses.bind (refuses_char h)

theorem takesOnly_exactly : TakesOnly (exactly c) off fun cs _ => cs = [c] :=
  TakesOnly.bind takesOnly_char fun _ _ h =>
    takesOnly_pure (by rw [List.append_nil, h.1, beq_iff_eq.mp h.2])

theorem TakesOnly.exactly_bind {q : Unit → Reader β} {Q : List Char → β → Prop}
    (hsize : c.utf8Size = 1)
    (h : TakesOnly (q ()) (off + 1) fun cs b => Q (c :: cs) b) :
    TakesOnly (exactly c >>= q) off Q := by
  refine TakesOnly.bind takesOnly_exactly fun cs _ hcs => ?_
  rw [hcs, bytes_cons, bytes_nil, hsize]
  exact h

theorem takesOnly_word (w : List Char) : TakesOnly (word w) off fun cs _ => cs = w := by
  induction w generalizing off with
  | nil => exact takesOnly_pure rfl
  | cons d ds ih =>
      refine TakesOnly.bind takesOnly_exactly fun cs _ hcs => ih.mono fun es _ hes => ?_
      rw [hcs, hes]
      rfl

theorem repeats_char (hcs : ∀ c ∈ cs, is c = true) (hrest : Stops is rest) (off : Nat) :
    Repeats (char is) ⟨off, cs ++ rest⟩ cs ⟨off + bytes cs, rest⟩ := by
  induction cs generalizing off with
  | nil => exact .stop (refuses_char hrest)
  | cons c cs ih =>
      have htail := ih (fun d hd => hcs d (List.mem_cons_of_mem _ hd)) (off + bytes [c])
      rw [bytes_cons, ← bytes_singleton, ← Nat.add_assoc]
      exact .next (takes_char (hcs c List.mem_cons_self)) htail

theorem takes_run (hcs : ∀ c ∈ cs, is c = true) (hrest : Stops is rest) :
    Takes (run is) off cs rest cs :=
  (repeats_char hcs hrest off).many (by simp)

theorem takesOnly_run :
    TakesOnly (run is) off fun cs ds => ds = cs ∧ ∀ c ∈ cs, is c = true := by
  refine (takesOnly_many (fun off => takesOnly_char) off).mono fun cs ds h => ?_
  induction h with
  | nil off => exact ⟨rfl, fun _ hc => absurd hc List.not_mem_nil⟩
  | cons h _ ih =>
      obtain ⟨rfl, hc⟩ := h
      obtain ⟨rfl, hds⟩ := ih
      exact ⟨rfl, List.forall_mem_cons.mpr ⟨hc, hds⟩⟩

theorem takes_run1 (hempty : cs ≠ []) (hcs : ∀ c ∈ cs, is c = true) (hrest : Stops is rest) :
    Takes (run1 is) off cs rest cs := by
  obtain ⟨c, cs, rfl⟩ := List.exists_cons_of_ne_nil hempty
  obtain ⟨hc, hcs⟩ := List.forall_mem_cons.mp hcs
  have hfirst : Takes (char is) off [c] (cs ++ rest) c := takes_char hc
  exact hfirst.bind (Takes.bind_pure (takes_run hcs hrest) (c :: ·))

theorem refuses_run1 (h : Stops is text) : Refuses (run1 is) off text :=
  Refuses.bind (refuses_char h)

theorem takesOnly_run1 :
    TakesOnly (run1 is) off fun cs ds => ds = cs ∧ cs ≠ [] ∧ ∀ c ∈ cs, is c = true := by
  refine TakesOnly.bind takesOnly_char fun cs c h => TakesOnly.bind takesOnly_run fun ds es h' => ?_
  obtain ⟨rfl, hc⟩ := h
  obtain ⟨rfl, hds⟩ := h'
  refine takesOnly_pure ?_
  rw [List.append_nil]
  exact ⟨rfl, List.cons_ne_nil _ _, List.forall_mem_cons.mpr ⟨hc, hds⟩⟩

end

/-! ### Places -/

section

variable {p : Reader α} {k : Nat → Reader α} {off : Nat} {cs rest : List Char} {a : α}

theorem Takes.position (h : Takes (k off) off cs rest a) :
    Takes (position >>= k) off cs rest a :=
  Takes.nil_bind rfl h

theorem TakesOnly.position {Q : List Char → α → Prop} (h : TakesOnly (k off) off Q) :
    TakesOnly (position >>= k) off Q := by
  refine TakesOnly.bind (R := fun cs n => cs = [] ∧ n = off) ?_ ?_
  · rintro text a here ha
    obtain ⟨rfl, rfl⟩ := Prod.mk.inj (Option.some.inj ha)
    exact ⟨[], rfl, rfl, rfl, rfl⟩
  · rintro cs n ⟨rfl, rfl⟩
    exact h

theorem Refuses.position {text : List Char} (h : Refuses (k off) off text) :
    Refuses (position >>= k) off text :=
  h

theorem Takes.placed {p : Reader (List Char)} {text : List Char}
    (h : Takes p off cs rest text) : Takes (placed p) off cs rest ⟨text, placeOf off cs⟩ := by
  refine Takes.position ?_
  have hstop : Takes (do
      let text ← p
      let stop ← Reader.position
      return (⟨text, ⟨off, stop⟩⟩ : Numeral)) off (cs ++ []) rest ⟨text, placeOf off cs⟩ :=
    Takes.bind h (Takes.position (takes_pure _ _ _))
  rwa [List.append_nil] at hstop

theorem Refuses.placed {p : Reader (List Char)} {text : List Char} (h : Refuses p off text) :
    Refuses (placed p) off text :=
  Refuses.position h.bind

theorem TakesOnly.placed {p : Reader (List Char)} {Q : List Char → Prop}
    (h : TakesOnly p off fun cs text => text = cs ∧ Q cs) :
    TakesOnly (placed p) off fun cs n => n = ⟨cs, placeOf off cs⟩ ∧ Q cs := by
  refine TakesOnly.position (TakesOnly.bind h fun cs text hcs => TakesOnly.position ?_)
  obtain ⟨rfl, hQ⟩ := hcs
  refine takesOnly_pure ?_
  rw [List.append_nil]
  exact ⟨rfl, hQ⟩

end

/-! ### The end of the text -/

theorem takes_atEnd (off : Nat) : Takes atEnd off [] [] () := rfl

theorem takesOnly_atEnd {off : Nat} : TakesOnly atEnd off fun cs _ => cs = [] := by
  intro text a here h
  rw [atEnd] at h
  split at h
  · obtain ⟨rfl, rfl⟩ := Prod.mk.inj (Option.some.inj h)
    exact ⟨[], rfl, rfl, rfl⟩
  · exact nomatch h

/-- At the end nothing is ahead. -/
theorem rest_of_atEnd {c here : Cursor} {a : Unit} (h : (atEnd c).result = some (a, here)) :
    here.rest = [] := by
  rw [atEnd] at h
  split at h
  · next hempty =>
      obtain ⟨rfl, rfl⟩ := Prod.mk.inj (Option.some.inj h)
      exact List.isEmpty_iff.mp hempty
  · exact nomatch h

end CyclePatterns.Notation.Reader

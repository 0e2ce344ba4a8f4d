/-
What readers take where white space may stand.

Some readers also take the white space behind what they are after and some leave it there.
`TakesTo` does not tell these apart: it says where reading is once the white space is taken,
and is of use where white space is read next anyway.  `Series` is what is read one after
another with white space in between.
-/
import CyclePatterns.Proofs.Notation.Reading
import Mathlib.Data.List.TakeWhile

namespace CyclePatterns.Notation.Reader

open Written (Gap)

variable {α β : Type}

/-! ### White space -/

/-- The place behind the white space ahead. -/
def skip (c : Cursor) : Cursor :=
  ⟨c.offset + bytes (c.rest.takeWhile isSpace), c.rest.dropWhile isSpace⟩

theorem stops_dropWhile (is : Char → Bool) (text : List Char) :
    Stops is (text.dropWhile is) := by
  intro c rest h
  have hhead := List.head?_dropWhile_not is text
  rw [h, List.head?_cons] at hhead
  simpa using hhead

/-- White space is read to its end. -/
theorem result_space (c : Cursor) : (space c).result = some ((), skip c) := by
  have htakes : Takes space c.offset (c.rest.takeWhile isSpace) (c.rest.dropWhile isSpace) () :=
    Takes.bind_pure
      (takes_run (fun _ hc => List.mem_takeWhile_imp hc) (stops_dropWhile isSpace c.rest))
      fun _ => ()
  unfold Takes at htakes
  rwa [List.takeWhile_append_dropWhile] at htakes

theorem skip_gap (g : Gap) {off : Nat} {rest : List Char} (h : Stops isSpace rest) :
    skip ⟨off, g.chars ++ rest⟩ = ⟨off + bytes g.chars, rest⟩ := by
  have hrest : rest.takeWhile isSpace = [] ∧ rest.dropWhile isSpace = rest := by
    cases rest with
    | nil => exact ⟨rfl, rfl⟩
    | cons c rest =>
        have hc := h c rest rfl
        exact ⟨List.takeWhile_cons_of_neg (by simp [hc]), List.dropWhile_cons_of_neg (by simp [hc])⟩
  rw [skip, List.takeWhile_append_of_pos g.spaces, List.dropWhile_append_of_pos g.spaces, hrest.1,
    hrest.2, List.append_nil]

/-- With white space in front, a text begins with it or as it does without. -/
theorem stops_gap {is : Char → Bool} {rest : List Char} (g : Gap)
    (h : ∀ c, isSpace c = true → is c = false) (hrest : Stops is rest) :
    Stops is (g.chars ++ rest) := by
  intro c tail htext
  cases hg : g.chars with
  | nil =>
      rw [hg] at htext
      exact hrest c tail htext
  | cons d more =>
      rw [hg] at htext
      obtain ⟨rfl, -⟩ := List.cons.inj htext
      exact h d (g.spaces d (hg ▸ List.mem_cons_self))

/-- White space that is there is what comes first. -/
theorem stops_gap_of_ne_nil {is : Char → Bool} (g : Gap) (hg : g.chars ≠ []) (rest : List Char)
    (h : ∀ c, isSpace c = true → is c = false) : Stops is (g.chars ++ rest) := by
  obtain ⟨d, more, hchars⟩ := List.exists_cons_of_ne_nil hg
  rw [hchars]
  exact stops_cons (h d (g.spaces d (hchars ▸ List.mem_cons_self))) _

theorem takes_space (g : Gap) {off : Nat} {rest : List Char} (h : Stops isSpace rest) :
    Takes space off g.chars rest () := by
  rw [Takes, result_space, skip_gap g h]

theorem takesOnly_space {off : Nat} :
    TakesOnly space off fun cs _ => ∃ g : Gap, cs = g.chars :=
  TakesOnly.bind takesOnly_run fun cs _ h =>
    takesOnly_pure ⟨⟨cs, h.2⟩, List.append_nil cs⟩

/-- From an offset the reader takes `cs`, of which it may leave white space at the end. -/
def TakesTo (p : Reader α) (off : Nat) (cs rest : List Char) (a : α) : Prop :=
  ∃ mid, (p ⟨off, cs ++ rest⟩).result = some (a, mid) ∧ skip mid = ⟨off + bytes cs, rest⟩

section

variable {p : Reader α} {q : α → Reader β} {off : Nat} {cs ds rest : List Char} {a : α} {b : β}

theorem Takes.takesTo (g : Gap) (h : Takes p off cs (g.chars ++ rest) a)
    (hrest : Stops isSpace rest) : TakesTo p off (cs ++ g.chars) rest a := by
  refine ⟨⟨off + bytes cs, g.chars ++ rest⟩, ?_, ?_⟩
  · rw [List.append_assoc]
    exact h
  · rw [skip_gap g hrest, bytes_append, Nat.add_assoc]

theorem TakesTo.space_bind (hp : TakesTo p off cs (ds ++ rest) a)
    (hq : Takes (q a) (off + bytes cs) ds rest b) :
    Takes (p >>= fun a => space >>= fun _ => q a) off (cs ++ ds) rest b := by
  obtain ⟨mid, hmid, hskip⟩ := hp
  unfold Takes at *
  show (andThen p (fun a => andThen space fun _ => q a) _).result = _
  rw [List.append_assoc]
  simp only [andThen, hmid, result_space, hskip]
  rw [hq, bytes_append, Nat.add_assoc]

theorem TakesTo.space_bind_takesTo (hp : TakesTo p off cs (ds ++ rest) a)
    (hq : TakesTo (q a) (off + bytes cs) ds rest b) :
    TakesTo (p >>= fun a => space >>= fun _ => q a) off (cs ++ ds) rest b := by
  obtain ⟨mid, hmid, hskip⟩ := hp
  obtain ⟨last, hlast, hlastSkip⟩ := hq
  refine ⟨last, ?_, ?_⟩
  · show (andThen p (fun a => andThen space fun _ => q a) _).result = _
    rw [List.append_assoc]
    simp only [andThen, hmid, result_space, hskip]
    exact hlast
  · rw [hlastSkip, bytes_append, Nat.add_assoc]

theorem Takes.bind_takesTo (hp : Takes p off cs (ds ++ rest) a)
    (hq : TakesTo (q a) (off + bytes cs) ds rest b) :
    TakesTo (p >>= q) off (cs ++ ds) rest b := by
  obtain ⟨last, hlast, hskip⟩ := hq
  refine ⟨last, ?_, ?_⟩
  · unfold Takes at hp
    show (andThen p q _).result = _
    rw [andThen, List.append_assoc, hp]
    exact hlast
  · rw [hskip, bytes_append, Nat.add_assoc]

theorem TakesTo.rule (h : TakesTo p off cs rest a) : TakesTo (rule p) off cs rest a := by
  obtain ⟨mid, hmid, hskip⟩ := h
  exact ⟨mid, (result_rule p _).trans hmid, hskip⟩

theorem Refuses.orElse_takesTo {q : Reader α} (hp : Refuses p off (cs ++ rest))
    (hq : TakesTo q off cs rest a) : TakesTo (Reader.orElse p q) off cs rest a := by
  obtain ⟨mid, hmid, hskip⟩ := hq
  unfold Refuses at hp
  refine ⟨mid, ?_, hskip⟩
  rw [Reader.orElse, hp]
  exact hmid

theorem TakesTo.bind_pure (h : TakesTo p off cs rest a) (f : α → β) :
    TakesTo (p >>= fun a => pure (f a)) off cs rest (f a) := by
  obtain ⟨mid, hmid, hskip⟩ := h
  refine ⟨mid, ?_, hskip⟩
  show (andThen p (fun a => done (f a)) _).result = _
  rw [andThen, hmid]
  rfl

end

/-- The reader takes one thing after another, with white space between them, until it fails. -/
inductive Series (p : Reader α) : Nat → List Char → List Char → List α → Prop
  | stop {off : Nat} {rest : List Char} (h : Refuses p off rest) (hrest : Stops isSpace rest) :
      Series p off [] rest []
  | next {off : Nat} {cs ds rest : List Char} {a : α} {as : List α}
      (h : TakesTo p off cs (ds ++ rest) a) (hempty : cs ≠ [])
      (more : Series p (off + bytes cs) ds rest as) : Series p off (cs ++ ds) rest (a :: as)

namespace Series

variable {p : Reader α} {off : Nat} {cs rest : List Char} {as : List α}

theorem last {a : α} (h : TakesTo p off cs rest a) (hempty : cs ≠ [])
    (hstop : Refuses p (off + bytes cs) rest) (hrest : Stops isSpace rest) :
    Series p off cs rest [a] := by
  have hnext : Series p off (cs ++ []) rest [a] := .next h hempty (.stop hstop hrest)
  rwa [List.append_nil] at hnext

theorem length_le (h : Series p off cs rest as) : as.length ≤ cs.length := by
  induction h with
  | stop h hrest => exact Nat.le_refl _
  | next h hempty more ih =>
      rw [List.length_cons, List.length_append]
      have := List.length_pos_iff.mpr hempty
      omega

/-- White space in front of the first thing makes no difference. -/
theorem repeats (h : Series p off cs rest as) :
    ∀ c : Cursor, skip c = ⟨off, cs ++ rest⟩ →
      ∃ last, Repeats (space >>= fun _ => p) c as last ∧ skip last = ⟨off + bytes cs, rest⟩ := by
  have hspace : ∀ c : Cursor, ((space >>= fun _ => p) c).result = (p (skip c)).result := by
    intro c
    show (andThen space (fun _ => p) c).result = _
    rw [andThen, result_space]
  induction h with
  | stop h hrest =>
      intro c hc
      exact ⟨c, .stop (by rw [hspace, hc]; exact h), hc⟩
  | @next off cs ds rest a as h hempty more ih =>
      intro c hc
      obtain ⟨mid, hmid, hskip⟩ := h
      obtain ⟨last, hlast, hlastSkip⟩ := ih mid hskip
      refine ⟨last, .next ?_ hlast, ?_⟩
      · rw [hspace, hc, List.append_assoc]
        exact hmid
      · rw [hlastSkip, bytes_append, Nat.add_assoc]

theorem manySpaced (h : Series p off cs rest as) :
    TakesTo (manySpaced p) off cs rest as := by
  cases h with
  | stop h hrest =>
      have hnone : Takes (Reader.manySpaced p) off [] rest [] :=
        Takes.nil_bind (Refuses.optional h) (takes_pure _ _ _)
      exact hnone.takesTo .empty hrest
  | @next _ cs ds _ a as h hempty more =>
      obtain ⟨mid, hmid, hskip⟩ := h
      obtain ⟨last, hlast, hlastSkip⟩ := more.repeats mid hskip
      have hlength : as.length ≤ mid.rest.length := by
        have hrest : (skip mid).rest.length ≤ mid.rest.length :=
          (List.dropWhile_sublist _).length_le
        rw [hskip] at hrest
        have := more.length_le
        simp only [List.length_append] at hrest
        omega
      refine ⟨last, ?_, ?_⟩
      · have hmany := hlast.many hlength
        show (andThen (Reader.optional p) _ _).result = _
        rw [List.append_assoc]
        simp only [andThen, Reader.optional, Reader.orElse, hmid]
        show (andThen (many (space >>= fun _ => p)) (fun as => done (a :: as)) mid).result = _
        rw [andThen, hmany]
        rfl
      · rw [hlastSkip, bytes_append, Nat.add_assoc]

end Series

/-- What has a property, with white space in front. -/
def Behind (R : Nat → List Char → α → Prop) (off : Nat) (cs : List Char) (a : α) : Prop :=
  ∃ (g : Gap) (ds : List Char), cs = g.chars ++ ds ∧ R (off + bytes g.chars) ds a

section

variable {off : Nat} {Q : List Char → β → Prop}

theorem TakesOnly.space_bind {q : Unit → Reader β}
    (h : ∀ g : Gap, TakesOnly (q ()) (off + bytes g.chars) fun cs b => Q (g.chars ++ cs) b) :
    TakesOnly (space >>= q) off Q := by
  refine TakesOnly.bind takesOnly_space fun cs _ hcs => ?_
  obtain ⟨g, rfl⟩ := hcs
  exact h g

end

/-- What is read with white space between is listed, each with the white space in front. -/
theorem takesOnly_manySpaced {p : Reader α} {R : Nat → List Char → α → Prop}
    (h : ∀ off, TakesOnly p off (R off)) (off : Nat) :
    TakesOnly (manySpaced p) off (Listed (Behind R) off) := by
  have hspaced : ∀ off, TakesOnly (space >>= fun _ => p) off (Behind R off) :=
    fun off => TakesOnly.space_bind fun g => (h _).mono fun ds a ha => ⟨g, ds, rfl, ha⟩
  refine TakesOnly.bind (R := fun cs a? => a?.elim (cs = []) (Behind R off cs))
    (TakesOnly.optional ((h off).mono fun cs a ha => ⟨.empty, cs, rfl, ha⟩) rfl) fun cs a? hcs => ?_
  cases a? with
  | none =>
      obtain rfl : cs = [] := hcs
      exact takesOnly_pure (.nil off)
  | some a =>
      refine TakesOnly.bind (takesOnly_many hspaced _) fun ds as has => takesOnly_pure ?_
      rw [List.append_nil]
      exact .cons hcs has

end CyclePatterns.Notation.Reader

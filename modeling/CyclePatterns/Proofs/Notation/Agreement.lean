/-
Readers that do the same in two texts.

Two texts may begin alike and go on differently, and the beginnings may stand at different
offsets.  As long as what follows is nothing that a reader could go on with, it does the same
in both: it fails in both, or it takes the same from both, and what it finds differs by the
offsets alone.  This too is said of each way of making a reader of others.
-/
import CyclePatterns.Proofs.Notation.Spacing

namespace CyclePatterns

/-- A place as many bytes further on. -/
def SourceSpan.moved (d : Nat) (s : SourceSpan) : SourceSpan :=
  ⟨s.start + d, s.stop + d⟩

namespace Notation

/-- A number of another place. -/
def Numeral.located (g : SourceSpan → SourceSpan) (n : Numeral) : Numeral :=
  ⟨n.text, g n.place⟩

namespace Reader

open Written (Gap)

variable {α β : Type}

/-- With the same text ahead, which goes on with `e` in one place and with `e'` in another one
that is `d` bytes further on, the readers both fail or take the same, and find related things. -/
inductive Agree (e e' : List Char) (d : Nat) (p p' : Reader α) (off : Nat) (text : List Char)
    (S : α → α → Prop) : Prop
  | refuse (h : Refuses p off (text ++ e)) (h' : Refuses p' (off + d) (text ++ e'))
  | take (cs ds : List Char) (a a' : α) (htext : text = cs ++ ds)
      (h : Takes p off cs (ds ++ e) a) (h' : Takes p' (off + d) cs (ds ++ e') a') (hS : S a a')

variable {e e' : List Char} {d off : Nat} {text : List Char}

theorem Agree.mono {p p' : Reader α} {S R : α → α → Prop} (hp : Agree e e' d p p' off text S)
    (h : ∀ a a', S a a' → R a a') : Agree e e' d p p' off text R := by
  cases hp with
  | refuse hp hp' => exact .refuse hp hp'
  | take cs ds a a' htext hp hp' hS => exact .take cs ds a a' htext hp hp' (h a a' hS)

theorem TakesOnly.of_takes {p : Reader α} {Q : List Char → α → Prop} {cs rest : List Char} {a : α}
    (h : TakesOnly p off Q) (hp : Takes p off cs rest a) : Q cs a := by
  obtain ⟨ds, hds, -, hQ⟩ := h _ _ _ hp
  rwa [List.append_cancel_right hds]

/-- What is taken in the one text is taken in the other. -/
theorem Agree.of_takes {p p' : Reader α} {S : α → α → Prop} {cs ds : List Char} {a : α}
    (hagree : Agree e e' d p p' off (cs ++ ds) S) (h : Takes p off cs (ds ++ e) a) :
    ∃ a', Takes p' (off + d) cs (ds ++ e') a' ∧ S a a' := by
  cases hagree with
  | refuse hp hp' =>
      unfold Refuses at hp
      unfold Takes at h
      rw [List.append_assoc, h] at hp
      exact nomatch hp
  | take cs' ds' b b' hsplit hp hp' hS =>
      unfold Takes at h hp
      rw [← List.append_assoc, hsplit, List.append_assoc, hp] at h
      obtain ⟨rfl, hhere⟩ := Prod.mk.inj (Option.some.inj h)
      obtain rfl : ds' = ds := List.append_cancel_right (Cursor.mk.inj hhere).2
      obtain rfl : cs = cs' := List.append_cancel_right hsplit
      exact ⟨b', hp', hS⟩

/-! ### One reader and then another -/

section

variable {p p' : Reader α} {q q' : α → Reader β} {S : α → α → Prop} {R : β → β → Prop}

theorem agree_pure {a a' : α} (h : S a a') : Agree e e' d (pure a) (pure a') off text S :=
  .take [] text a a' rfl (takes_pure _ _ _) (takes_pure _ _ _) h

theorem Agree.bind (hp : Agree e e' d p p' off text S)
    (hq : ∀ cs ds a a', text = cs ++ ds → Takes p off cs (ds ++ e) a → S a a' →
      Agree e e' d (q a) (q' a') (off + bytes cs) ds R) :
    Agree e e' d (p >>= q) (p' >>= q') off text R := by
  cases hp with
  | refuse hp hp' => exact .refuse hp.bind hp'.bind
  | take cs ds a a' htext hp hp' hS =>
      have hmore := hq cs ds a a' htext hp hS
      subst htext
      have hoffset : off + bytes cs + d = off + d + bytes cs := Nat.add_right_comm _ _ _
      cases hmore with
      | refuse hmore hmore' =>
          rw [hoffset] at hmore'
          refine .refuse ?_ ?_
          · rw [List.append_assoc]
            exact hp.refuses_bind hmore
          · rw [List.append_assoc]
            exact hp'.refuses_bind hmore'
      | take ds rest b b' htext hmore hmore' hR =>
          rw [hoffset] at hmore'
          subst htext
          rw [List.append_assoc] at hp hp'
          exact .take (cs ++ ds) rest b b' (List.append_assoc _ _ _).symm (hp.bind hmore)
            (hp'.bind hmore') hR

/-- What is read is changed on both sides. -/
theorem Agree.bind_pure (hp : Agree e e' d p p' off text S) {f f' : α → β}
    (h : ∀ a a', S a a' → R (f a) (f' a')) :
    Agree e e' d (p >>= fun a => pure (f a)) (p' >>= fun a => pure (f' a)) off text R :=
  hp.bind fun _ _ a a' _ _ hS => agree_pure (h a a' hS)

end

/-! ### Alternatives -/

section

variable {p p' q q' : Reader α} {S : α → α → Prop}

theorem Agree.rule (h : Agree e e' d p p' off text S) :
    Agree e e' d (rule p) (rule p') off text S := by
  cases h with
  | refuse hp hp' => exact .refuse hp.rule hp'.rule
  | take cs ds a a' htext hp hp' hS => exact .take cs ds a a' htext hp.rule hp'.rule hS

theorem Agree.orElse (hp : Agree e e' d p p' off text S) (hq : Agree e e' d q q' off text S) :
    Agree e e' d (orElse p q) (orElse p' q') off text S := by
  cases hp with
  | take cs ds a a' htext hp hp' hS => exact .take cs ds a a' htext hp.orElse hp'.orElse hS
  | refuse hp hp' =>
      cases hq with
      | refuse hq hq' => exact .refuse (hp.orElse hq) (hp'.orElse hq')
      | take cs ds a a' htext hq hq' hS =>
          rw [htext, List.append_assoc] at hp hp'
          exact .take cs ds a a' htext (hp.orElse_takes hq) (hp'.orElse_takes hq') hS

theorem agree_firstOf {ps : List (Reader α)} (h : ∀ p ∈ ps, Agree e e' d p p off text S) :
    Agree e e' d (firstOf ps) (firstOf ps) off text S :=
  firstOf_induction (motive := fun p => Agree e e' d p p off text S) (.refuse rfl rfl)
    (fun _ _ => Agree.orElse) h

theorem Agree.optional (hp : Agree e e' d p p' off text S) {R : Option α → Option α → Prop}
    (hsome : ∀ a a', S a a' → R (some a) (some a')) (hnone : R none none) :
    Agree e e' d (optional p) (optional p') off text R :=
  Agree.orElse (hp.bind_pure hsome) (agree_pure hnone)

end

/-! ### As often as possible -/

section

variable {p p' : Reader α} {f : α → α} {G : List Char → Prop}

/-- Both go on until they fail, as far as the condition on the text is kept.  Each time
something is taken, so neither is stopped by its bound before the text is at its end. -/
theorem agree_upTo (hp : ∀ off text, G text → Agree e e' d p p' off text fun a a' => a' = f a)
    (honly : ∀ off, TakesOnly p off fun cs _ => cs ≠ [] ∧ ∀ ds, G (cs ++ ds) → G ds) :
    ∀ (fuel fuel' off : Nat) (text : List Char), text.length < fuel → text.length < fuel' → G text →
      Agree e e' d (upTo fuel p) (upTo fuel' p') off text fun as as' => as' = as.map f := by
  intro fuel
  induction fuel with
  | zero => exact fun _ _ _ hfuel => absurd hfuel (Nat.not_lt_zero _)
  | succ fuel ih =>
      intro fuel' off text hfuel hfuel' htext
      obtain ⟨fuel', rfl⟩ := Nat.exists_eq_add_one_of_ne_zero (Nat.ne_zero_of_lt hfuel')
      refine Agree.orElse ?_ (agree_pure rfl)
      refine (hp off text htext).bind fun cs ds a a' hsplit hcs ha => ?_
      obtain ⟨hempty, hkeep⟩ := (honly off).of_takes hcs
      have hshorter : ds.length < text.length := by
        have := List.length_pos_iff.mpr hempty
        rw [hsplit, List.length_append]
        omega
      refine (ih fuel' _ ds (by omega) (by omega) (hkeep ds (hsplit ▸ htext))).bind_pure ?_
      intro as as' has
      rw [ha, has, List.map_cons]

theorem agree_many (hp : ∀ off text, G text → Agree e e' d p p' off text fun a a' => a' = f a)
    (honly : ∀ off, TakesOnly p off fun cs _ => cs ≠ [] ∧ ∀ ds, G (cs ++ ds) → G ds)
    (htext : G text) :
    Agree e e' d (many p) (many p') off text fun as as' => as' = as.map f := by
  have hlength : ∀ ahead : List Char, text.length < (text ++ ahead).length + 1 := by
    intro ahead
    rw [List.length_append]
    omega
  have hupTo := agree_upTo hp honly _ _ off text (hlength e) (hlength e') htext
  cases hupTo with
  | refuse h h' => exact .refuse h h'
  | take cs ds as as' hsplit h h' has =>
      subst hsplit
      refine .take cs ds as as' rfl ?_ ?_ has
      · rw [List.append_assoc] at h
        exact h
      · rw [List.append_assoc] at h'
        exact h'

end

/-! ### Characters -/

section

variable {is : Char → Bool}

theorem agree_char (he : Stops is e) (he' : Stops is e') :
    Agree e e' d (char is) (char is) off text fun c c' => c' = c := by
  cases text with
  | nil => exact .refuse (refuses_char he) (refuses_char he')
  | cons c ds =>
      by_cases hc : is c = true
      · exact .take [c] ds c c rfl (takes_char hc) (takes_char hc) rfl
      · have hstop : ∀ rest, Stops is (c :: ds ++ rest) :=
          fun rest => stops_cons (Bool.eq_false_iff.mpr hc) _
        exact .refuse (refuses_char (hstop e)) (refuses_char (hstop e'))

theorem agree_exactly {c : Char} (he : Stops (· == c) e) (he' : Stops (· == c) e') :
    Agree e e' d (exactly c) (exactly c) off text fun _ _ => True :=
  (agree_char he he').bind_pure fun _ _ _ => trivial

/-- Where there is text ahead, it does not matter what comes behind it. -/
theorem agree_exactly_of_ne_nil (c : Char) (htext : text ≠ []) :
    Agree e e' d (exactly c) (exactly c) off text fun _ _ => True := by
  obtain ⟨b, ds, rfl⟩ := List.exists_cons_of_ne_nil htext
  by_cases hb : b = c
  · subst hb
    exact .take [b] ds () () rfl takes_exactly takes_exactly trivial
  · have hstop : ∀ rest, Stops (· == c) (b :: ds ++ rest) := by
      intro rest
      rw [List.cons_append, stops_cons_iff]
      exact beq_false_of_ne hb
    exact .refuse (refuses_exactly (hstop e)) (refuses_exactly (hstop e'))

theorem agree_run (he : Stops is e) (he' : Stops is e') :
    Agree e e' d (run is) (run is) off text fun cs cs' => cs' = cs := by
  have hmany : Agree e e' d (many (char is)) (many (char is)) off text
      fun cs cs' => cs' = cs.map id := by
    refine agree_many (G := fun _ => True) (fun _ _ _ => agree_char he he') ?_ trivial
    refine fun off => takesOnly_char.mono fun cs c hcs => ⟨?_, fun _ _ => trivial⟩
    rw [hcs.1]
    exact List.cons_ne_nil _ _
  exact hmany.mono fun cs cs' h => h.trans (List.map_id cs)

theorem agree_run1 (he : Stops is e) (he' : Stops is e') :
    Agree e e' d (run1 is) (run1 is) off text fun cs cs' => cs' = cs := by
  refine (agree_char he he').bind fun _ _ c c' _ _ hc => ?_
  exact (agree_run he he').bind_pure fun cs cs' hcs => by rw [hc, hcs]

theorem agree_space (he : Stops isSpace e) (he' : Stops isSpace e') :
    Agree e e' d space space off text fun _ _ => True :=
  (agree_run he he').bind_pure fun _ _ _ => trivial

end

/-! ### Places -/

section

variable {k k' : Nat → Reader α} {S : α → α → Prop}

theorem Agree.position (h : Agree e e' d (k off) (k' (off + d)) off text S) :
    Agree e e' d (position >>= k) (position >>= k') off text S := by
  cases h with
  | refuse h h' => exact .refuse h.position h'.position
  | take cs ds a a' htext h h' hS => exact .take cs ds a a' htext h.position h'.position hS

/-- The place of what is taken is as much further on. -/
theorem Agree.placed {p : Reader (List Char)}
    (h : Agree e e' d p p off text fun cs cs' => cs' = cs) :
    Agree e e' d (placed p) (placed p) off text
      fun n n' => n' = n.located (SourceSpan.moved d) := by
  refine Agree.position (h.bind fun cs ds found found' _ _ hfound => Agree.position ?_)
  refine agree_pure ?_
  rw [hfound]
  rfl

end

/-! ### With white space in between -/

section

variable {p p' : Reader α} {f : α → α} {G : List Char → Prop}

theorem agree_manySpaced
    (hp : ∀ off text, G text → Agree e e' d p p' off text fun a a' => a' = f a)
    (honly : ∀ off, TakesOnly p off fun cs _ => cs ≠ [] ∧ ∀ ds, G (cs ++ ds) → G ds)
    (hgap : ∀ (g : Gap) ds, G (g.chars ++ ds) → G ds)
    (he : Stops isSpace e) (he' : Stops isSpace e') (htext : G text) :
    Agree e e' d (manySpaced p) (manySpaced p') off text fun as as' => as' = as.map f := by
  have hspaced : ∀ off text, G text →
      Agree e e' d (space >>= fun _ => p) (space >>= fun _ => p') off text
        fun a a' => a' = f a := by
    intro off text htext
    refine (agree_space he he').bind fun cs ds _ _ hsplit hcs _ => hp _ _ ?_
    obtain ⟨g, rfl⟩ := takesOnly_space.of_takes hcs
    exact hgap g ds (hsplit ▸ htext)
  have hspacedOnly : ∀ off, TakesOnly (space >>= fun _ => p) off
      fun cs _ => cs ≠ [] ∧ ∀ ds, G (cs ++ ds) → G ds := by
    refine fun off => TakesOnly.space_bind fun g => (honly _).mono fun cs a hcs => ?_
    refine ⟨fun hnil => hcs.1 (List.append_eq_nil_iff.mp hnil).2, fun ds hds => hcs.2 ds ?_⟩
    exact hgap g _ (List.append_assoc _ _ _ ▸ hds)
  have hfirst : Agree e e' d (Reader.optional p) (Reader.optional p') off text
      fun a? a?' => a?' = a?.map f :=
    (hp off text htext).optional (fun a a' ha => by rw [ha, Option.map_some]) rfl
  refine hfirst.bind fun cs ds a? a?' hsplit hcs ha => ?_
  subst ha
  cases a? with
  | none => exact agree_pure rfl
  | some a =>
      have hone : TakesOnly (Reader.optional p) off
          fun cs a? => a?.isSome = true → ∀ ds, G (cs ++ ds) → G ds :=
        TakesOnly.optional ((honly off).mono fun cs a hcs _ => hcs.2) (fun h => nomatch h)
      have hds : G ds := hone.of_takes hcs rfl ds (hsplit ▸ htext)
      refine (agree_many hspaced hspacedOnly hds).bind_pure fun as as' has => ?_
      rw [has, List.map_cons]

end

end Reader

end Notation

end CyclePatterns

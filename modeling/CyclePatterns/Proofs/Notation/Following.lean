/-
Reading follows the rules.

A reader follows a parsing expression if it fails where the expression fails, and otherwise goes
on to the same place, with a value from which the same counts can be told.  Besides it remembers
no failure but at places that are reached from where it began.  For each way of making a reader
of others there is a lemma, and from these one for each part of the grammar.

Repetitions are bounded by the characters ahead, and so is the nesting of brackets and calls.
The lemmas therefore ask only for places with fewer than `n` characters ahead, and what is read
behind a first character is read with fewer.
-/
import CyclePatterns.Proofs.Notation.Rules
import CyclePatterns.Proofs.Notation.Soundness

namespace CyclePatterns.Notation

open Reader

variable {α β : Type}

/-! ### Places that are reached -/

/-- The one place is reached from the other by characters with the property. -/
def Passes (P : Char → Prop) (c last : Cursor) : Prop :=
  ∃ cs, Between c last cs ∧ ∀ d ∈ cs, P d

/-- The offset is the very first, or that of a place that is reached. -/
def LooksAt (P : Char → Prop) (c : Cursor) (offset : Nat) : Prop :=
  offset = 0 ∨ ∃ last, Passes P c last ∧ offset = last.offset

section

variable {P : Char → Prop} {c mid last : Cursor}

theorem passes_refl (P : Char → Prop) (c : Cursor) : Passes P c c :=
  ⟨[], .refl c, fun _ h => absurd h List.not_mem_nil⟩

theorem Passes.trans (h : Passes P c mid) (h' : Passes P mid last) : Passes P c last := by
  obtain ⟨cs, hcs, hP⟩ := h
  obtain ⟨ds, hds, hP'⟩ := h'
  exact ⟨cs ++ ds, hcs.trans hds, List.forall_mem_append.mpr ⟨hP, hP'⟩⟩

theorem Passes.looksAt (h : Passes P c mid) {offset : Nat} (h' : LooksAt P mid offset) :
    LooksAt P c offset :=
  h'.imp_right fun ⟨last, hlast, hoffset⟩ => ⟨last, h.trans hlast, hoffset⟩

theorem looksAt_self (P : Char → Prop) (c : Cursor) : LooksAt P c c.offset :=
  .inr ⟨c, passes_refl P c, rfl⟩

end

section

variable {K : Nat → Prop} {p : Reader α} {q : α → Reader β} {r : Reader α} {c : Cursor}

/-- Where one reader and then another look is where one of them looks. -/
theorem farthest_bind (hp : K (p c).farthest)
    (hq : ∀ a mid, (p c).result = some (a, mid) → K (q a mid).farthest) :
    K ((p >>= q) c).farthest := by
  show K (andThen p q c).farthest
  rw [andThen]
  cases hfirst : (p c).result with
  | none => exact hp
  | some found => exact max_rec' K hp (hq found.1 found.2 hfirst)

theorem farthest_orElse (hp : K (p c).farthest)
    (hr : (p c).result = none → K (r c).farthest) : K (orElse p r c).farthest := by
  rw [Reader.orElse]
  cases hfirst : (p c).result with
  | none => exact max_rec' K hp (hr hfirst)
  | some found => exact hp

theorem farthest_rule (hp : K (p c).farthest) (h : (p c).result = none → K c.offset) :
    K (rule p c).farthest := by
  rw [Reader.rule]
  cases hresult : (p c).result with
  | none => exact max_rec' K hp (h hresult)
  | some found => exact hp

end

/-! Single characters are no rules, so nothing is remembered of them. -/

theorem farthest_char (is : Char → Bool) (c : Cursor) : (char is c).farthest = 0 := by
  rw [char]
  split
  · rfl
  · split
    · rfl
    · rfl

theorem farthest_atEnd (c : Cursor) : (atEnd c).farthest = 0 := by
  rw [atEnd]
  split
  · rfl
  · rfl

theorem farthest_upTo_char (is : Char → Bool) (fuel : Nat) (c : Cursor) :
    (upTo fuel (char is) c).farthest = 0 := by
  induction fuel generalizing c with
  | zero => rfl
  | succ fuel ih =>
      refine farthest_orElse (K := (· = 0)) ?_ fun _ => rfl
      refine farthest_bind (K := (· = 0)) (farthest_char is c) fun _ mid _ => ?_
      exact farthest_bind (K := (· = 0)) (ih mid) fun _ _ _ => rfl

theorem farthest_space (c : Cursor) : (space c).farthest = 0 :=
  farthest_bind (K := (· = 0)) (farthest_upTo_char _ _ c) fun _ _ _ => rfl

/-! ### Readers and rules -/

/-- Where fewer than `n` characters are ahead, the reader does what the expression does, and
`S` says how the counts that are kept are told from the value. -/
structure Follows (P : Char → Prop) (n : Nat) (p : Reader α) (g : Peg)
    (S : α → List Numeral → Prop) : Prop where
  fails : ∀ {c}, c.rest.length < n → (p c).result = none → Derives g c none
  takes : ∀ {c a last}, c.rest.length < n → (p c).result = some (a, last) →
    ∃ ts, Derives g c (some (last, ts)) ∧ S a ts ∧ Passes P c last
  looks : ∀ {c}, c.rest.length < n → LooksAt P c (p c).farthest

/-- No counts are kept. -/
abbrev Keepless (_ : α) (ts : List Numeral) : Prop :=
  ts = []

section

variable {P : Char → Prop} {n m : Nat} {p r : Reader α} {q : α → Reader β} {g g' : Peg}
  {S : α → List Numeral → Prop} {T : β → List Numeral → Prop}

theorem follows_zero : Follows P 0 p g S :=
  ⟨fun h => absurd h (Nat.not_lt_zero _), fun h => absurd h (Nat.not_lt_zero _),
    fun h => absurd h (Nat.not_lt_zero _)⟩

namespace Follows

theorem of_le (h : Follows P n p g S) (hle : m ≤ n) : Follows P m p g S where
  fails hn := h.fails (Nat.lt_of_lt_of_le hn hle)
  takes hn := h.takes (Nat.lt_of_lt_of_le hn hle)
  looks hn := h.looks (Nat.lt_of_lt_of_le hn hle)

theorem imp {S' : α → List Numeral → Prop} (h : Follows P n p g S)
    (hS : ∀ a ts, S a ts → S' a ts) : Follows P n p g S' where
  fails := h.fails
  takes hn ha :=
    let ⟨ts, hts, hSa, hpass⟩ := h.takes hn ha
    ⟨ts, hts, hS _ _ hSa, hpass⟩
  looks := h.looks

/-- An expression may be put another way. -/
theorem congr (h : Follows P n p g S) (hg : ∀ {c o}, Derives g c o → Derives g' c o) :
    Follows P n p g' S where
  fails hn hnone := hg (h.fails hn hnone)
  takes hn ha :=
    let ⟨ts, hts, hSa, hpass⟩ := h.takes hn ha
    ⟨ts, hg hts, hSa, hpass⟩
  looks := h.looks

theorem ref {rule : Rule} (h : Follows P n p rule.body S) : Follows P n p (.ref rule) S :=
  h.congr .ref

theorem rule (h : Follows P n p g S) : Follows P n (rule p) g S where
  fails hn hnone := h.fails hn ((result_rule p _).symm.trans hnone)
  takes hn ha := h.takes hn ((result_rule p _).symm.trans ha)
  looks hn := farthest_rule (h.looks hn) fun _ => looksAt_self P _

end Follows

/-! ### One reader and then another -/

theorem follows_pure {a : α} (h : S a []) : Follows P n (pure a) .empty S where
  fails _ h := nomatch h
  takes _ ha := by
    obtain ⟨rfl, rfl⟩ := Prod.mk.inj (Option.some.inj ha)
    exact ⟨[], .empty, h, passes_refl P _⟩
  looks _ := .inl rfl

/-- What comes second is read where fewer than `m` characters are ahead. -/
theorem Follows.bind_of_lt (hp : Follows P n p g S)
    (hm : ∀ {c last ts}, c.rest.length < n → Derives g c (some (last, ts)) → last.rest.length < m)
    (hq : ∀ a ts, S a ts → Follows P m (q a) g' fun b us => T b (ts ++ us)) :
    Follows P n (p >>= q) (.seq g g') T where
  fails {c} hn hnone := by
    cases hfirst : (p c).result with
    | none => exact .seq_fails (hp.fails hn hfirst)
    | some found =>
        obtain ⟨a, mid⟩ := found
        obtain ⟨ts, hts, hS, -⟩ := hp.takes hn hfirst
        rw [result_bind hfirst] at hnone
        exact .seq_stops hts ((hq a ts hS).fails (hm hn hts) hnone)
  takes hn hb := by
    obtain ⟨a, mid, hfirst, hsecond⟩ := exists_of_bind hb
    obtain ⟨ts, hts, hS, hmid⟩ := hp.takes hn hfirst
    obtain ⟨us, hus, hT, hlast⟩ := (hq a ts hS).takes (hm hn hts) hsecond
    exact ⟨ts ++ us, .seq hts hus, hT, hmid.trans hlast⟩
  looks hn := farthest_bind (hp.looks hn) fun a mid hfirst => by
    obtain ⟨ts, hts, hS, hmid⟩ := hp.takes hn hfirst
    exact hmid.looksAt ((hq a ts hS).looks (hm hn hts))

theorem Follows.bind (hp : Follows P n p g S)
    (hq : ∀ a ts, S a ts → Follows P n (q a) g' fun b us => T b (ts ++ us)) :
    Follows P n (p >>= q) (.seq g g') T :=
  hp.bind_of_lt (fun hn hts => Nat.lt_of_le_of_lt hts.length_le hn) hq

/-- Behind a character fewer are ahead. -/
theorem Follows.bind_of_consumes (hp : Follows P (n + 1) p g S) (hg : g.consumes = true)
    (hq : ∀ a ts, S a ts → Follows P n (q a) g' fun b us => T b (ts ++ us)) :
    Follows P (n + 1) (p >>= q) (.seq g g') T :=
  hp.bind_of_lt (fun hn hts => Nat.lt_of_lt_of_le (hts.length_lt hg) (Nat.le_of_lt_succ hn)) hq

theorem Derives.of_seq_empty {c : Cursor} {o : Option (Cursor × List Numeral)}
    (h : Derives (.seq g .empty) c o) : Derives g c o := by
  cases h with
  | seq hp hq =>
      cases hq
      rw [List.append_nil]
      exact hp
  | seq_fails hp => exact hp
  | seq_stops _ hq => cases hq

theorem Follows.bind_pure (hp : Follows P n p g S) (f : α → β) (h : ∀ a ts, S a ts → T (f a) ts) :
    Follows P n (p >>= fun a => pure (f a)) g T :=
  (hp.bind fun a ts ha => follows_pure (by rw [List.append_nil]; exact h a ts ha)).congr
    Derives.of_seq_empty

theorem Follows.position {k : Nat → Reader α} (h : ∀ off, Follows P n (k off) g S) :
    Follows P n (position >>= k) g S where
  fails hn hnone := (h _).fails hn hnone
  takes hn ha := (h _).takes hn ha
  looks hn := farthest_bind (.inl rfl) fun a mid hfirst => by
    obtain ⟨rfl, rfl⟩ := Prod.mk.inj (Option.some.inj hfirst)
    exact (h _).looks hn

theorem Follows.placed {p : Reader (List Char)} (h : Follows P n p g Keepless) :
    Follows P n (placed p) g Keepless :=
  .position fun _ => (h.bind fun _ _ hts => .position fun _ => follows_pure (by
    rw [hts]
    rfl)).congr Derives.of_seq_empty

/-! ### Alternatives -/

theorem Follows.orElse (hp : Follows P n p g S) (hr : Follows P n r g' S) :
    Follows P n (orElse p r) (.alt g g') S where
  fails {c} hn hnone := by
    rw [Reader.orElse] at hnone
    cases hfirst : (p c).result with
    | none =>
        simp only [hfirst] at hnone
        exact .alt_else (hp.fails hn hfirst) (hr.fails hn hnone)
    | some found =>
        simp only [hfirst] at hnone
        cases hnone
  takes hn ha := by
    rcases exists_of_orElse ha with hfirst | ⟨hnone, hsecond⟩
    · obtain ⟨ts, hts, hS, hlast⟩ := hp.takes hn hfirst
      exact ⟨ts, .alt hts, hS, hlast⟩
    · obtain ⟨ts, hts, hS, hlast⟩ := hr.takes hn hsecond
      exact ⟨ts, .alt_else (hp.fails hn hnone) hts, hS, hlast⟩
  looks hn := farthest_orElse (hp.looks hn) fun _ => hr.looks hn

theorem Follows.optional {S' : Option α → List Numeral → Prop} (hp : Follows P n p g S)
    (hsome : ∀ a ts, S a ts → S' (some a) ts) (hnone : S' none []) :
    Follows P n (optional p) (.opt g) S' :=
  (hp.bind_pure some hsome).orElse (follows_pure hnone)

/-! ### As often as possible -/

theorem Derives.star_of_alt {c : Cursor} {o : Option (Cursor × List Numeral)}
    (h : Derives (.alt (.seq g (.star g)) .empty) c o) : Derives (.star g) c o := by
  cases h with
  | alt h =>
      cases h with
      | seq hp hrest => exact .star hp hrest
  | alt_else h hempty =>
      cases hempty
      cases h with
      | seq_fails hp => exact .star_ends hp
      | seq_stops _ hrest => cases hrest

variable {f : α → List Numeral}

theorem Follows.upTo (hp : Follows P n p g fun a ts => ts = f a) (hg : g.consumes = true)
    {fuel : Nat} (hfuel : fuel ≤ n) :
    Follows P fuel (upTo fuel p) (.star g) fun as ts => ts = as.flatMap f := by
  induction fuel with
  | zero => exact follows_zero
  | succ fuel ih =>
      have hrest := ih (Nat.le_of_succ_le hfuel)
      have hnext := (hp.of_le hfuel).bind_of_consumes hg
        (q := fun a => andThen (Reader.upTo fuel p) fun as => done (a :: as))
        (T := fun as ts => ts = as.flatMap f)
        fun a ts hts => hrest.bind_pure (a :: ·) fun as us hus => by
          rw [hts, hus, List.flatMap_cons]
      exact (hnext.orElse (follows_pure rfl)).congr Derives.star_of_alt

theorem Follows.many (hp : Follows P n p g fun a ts => ts = f a) (hg : g.consumes = true) :
    Follows P n (many p) (.star g) fun as ts => ts = as.flatMap f where
  fails hn hnone := (hp.upTo hg hn).fails (Nat.lt_succ_self _) hnone
  takes hn ha := (hp.upTo hg hn).takes (Nat.lt_succ_self _) ha
  looks hn := (hp.upTo hg hn).looks (Nat.lt_succ_self _)

/-! ### Characters -/

theorem follows_char {is : Char → Bool} (h : ∀ d, is d = true → P d) :
    Follows P n (char is) (.char is) Keepless where
  fails {c} hn hnone := by
    rw [char] at hnone
    refine .char_fails fun d rest hrest => ?_
    simp only [hrest] at hnone
    split at hnone
    · cases hnone
    · next hd => exact Bool.eq_false_iff.mpr hd
  takes {c a last} hn ha := by
    rw [char] at ha
    split at ha
    · cases ha
    · next d rest hrest =>
        split at ha
        · next hd =>
            obtain ⟨rfl, rfl⟩ := Prod.mk.inj (Option.some.inj ha)
            exact ⟨[], .char hrest hd, rfl, [d], .step hrest,
              List.forall_mem_singleton.mpr (h d hd)⟩
        · cases ha
  looks {c} _ := .inl (farthest_char is c)

theorem follows_exactly {d : Char} (h : P d) : Follows P n (exactly d) (.exactly d) Keepless :=
  (follows_char fun _ he => beq_iff_eq.mp he ▸ h).bind_pure _ fun _ _ hts => hts

theorem follows_word {ds : List Char} (h : ∀ d ∈ ds, P d) :
    Follows P n (word ds) (.word ds) Keepless := by
  induction ds with
  | nil => exact follows_pure rfl
  | cons d ds ih =>
      rw [List.forall_mem_cons] at h
      exact (follows_exactly h.1).bind fun _ ts hts => (ih h.2).imp fun _ us hus => by
        rw [hts, hus]
        rfl

theorem follows_run {is : Char → Bool} (h : ∀ d, is d = true → P d) :
    Follows P n (run is) (.star (.char is)) Keepless :=
  (Follows.many (f := fun _ => []) (follows_char h) rfl).imp fun _ _ hts =>
    hts.trans (List.flatMap_eq_nil_iff.mpr fun _ _ => rfl)

theorem follows_run1 {is : Char → Bool} (h : ∀ d, is d = true → P d) :
    Follows P n (run1 is) (.plus (.char is)) Keepless :=
  (follows_char h).bind fun _ ts hts => (follows_run h).bind_pure _ fun _ us hus => by
    rw [hts, hus]
    rfl

theorem follows_atEnd : Follows P n atEnd .atEnd Keepless where
  fails {c} _ hnone := by
    rw [Reader.atEnd] at hnone
    split at hnone
    · cases hnone
    · next h => exact .atEnd_fails fun hrest => h (List.isEmpty_iff.mpr hrest)
  takes {c a last} _ ha := by
    have hend := rest_of_atEnd ha
    rw [Reader.atEnd] at ha
    split at ha
    · obtain ⟨rfl, rfl⟩ := Prod.mk.inj (Option.some.inj ha)
      exact ⟨[], .atEnd hend, rfl, passes_refl P _⟩
    · cases ha
  looks {c} _ := .inl (farthest_atEnd c)

end

/-! ### White space between parts -/

section

variable {P : Char → Prop} (hP : ∀ d, d ≠ '"' → P d) {n : Nat} {p : Reader α} {q : α → Reader β}
  {g g' : Peg} {S : α → List Numeral → Prop} {T : β → List Numeral → Prop}

/-- A class without the quote. -/
theorem of_quoteless {P : Char → Prop} (hP : ∀ d, d ≠ '"' → P d) {is : Char → Bool}
    (h : is '"' = false) : ∀ d, is d = true → P d := by
  refine fun d hd => hP d ?_
  rintro rfl
  exact Bool.noConfusion (hd.symm.trans h)

include hP

theorem follows_space : Follows P n space .space Keepless :=
  (follows_run (of_quoteless hP rfl)).bind_pure _ fun _ _ hts => hts

theorem Follows.space_bind (hq : Follows P n p g S) :
    Follows P n (space >>= fun _ => p) (.seq .space g) S :=
  (follows_space hP).bind fun _ ts hts => hq.imp fun _ _ hS => by
    rw [hts]
    exact hS

theorem Follows.spaced (hp : Follows P n p g S)
    (hq : ∀ a ts, S a ts → Follows P n (q a) g' fun b us => T b (ts ++ us)) :
    Follows P n (p >>= fun a => space >>= fun _ => q a) (.spaced g g') T :=
  hp.bind fun a ts ha => (hq a ts ha).space_bind hP

/-- Behind a character, and white space, fewer characters are ahead. -/
theorem Follows.spaced_of_consumes (hp : Follows P (n + 1) p g S) (hg : g.consumes = true)
    (hq : ∀ a ts, S a ts → Follows P n (q a) g' fun b us => T b (ts ++ us)) :
    Follows P (n + 1) (p >>= fun a => space >>= fun _ => q a) (.spaced g g') T :=
  hp.bind_of_consumes hg fun a ts ha => (hq a ts ha).space_bind hP

omit hP in
theorem result_optional_none {c : Cursor} (h : (p c).result = none) :
    (Reader.optional p c).result = some (none, c) := by
  simp only [Reader.optional, Reader.orElse, andThen, h]
  rfl

omit hP in
theorem result_optional_some {c mid : Cursor} {a : α} (h : (p c).result = some (a, mid)) :
    (Reader.optional p c).result = some (some a, mid) := by
  simp only [Reader.optional, Reader.orElse, andThen, h]
  rfl

theorem Follows.manySpaced {f : α → List Numeral} (hp : Follows P n p g fun a ts => ts = f a)
    (hg : g.consumes = true) :
    Follows P n (manySpaced p) (.starSpaced g) fun as ts => ts = as.flatMap f := by
  have hconsumes : (Peg.seq .space g).consumes = true := by rw [Peg.consumes, hg, Bool.or_true]
  have hmany : Follows P n (Reader.many (space >>= fun _ => p)) (.star (.seq .space g))
      fun as ts => ts = as.flatMap f := (hp.space_bind hP).many hconsumes
  have hrest (a : α) : Follows P n (Reader.many (space >>= fun _ => p) >>= fun as => pure (a :: as))
      (.star (.seq .space g)) fun as us => f a ++ us = as.flatMap f :=
    hmany.bind_pure _ fun as us hus => by rw [hus, List.flatMap_cons]
  refine ⟨fun {c} hn hnone => ?_, fun {c as last} hn ha => ?_, fun {c} hn => ?_⟩
  · cases hfirst : (p c).result with
    | none =>
        rw [Reader.manySpaced] at hnone
        have hresult := (result_bind (result_optional_none hfirst)).symm.trans hnone
        cases hresult
    | some found =>
        obtain ⟨a, mid⟩ := found
        obtain ⟨ts, hts, -, -⟩ := hp.takes hn hfirst
        have hresult := (result_bind (result_optional_some hfirst)).symm.trans hnone
        cases (hrest a).fails (Nat.lt_of_le_of_lt hts.length_le hn) hresult
  · cases hfirst : (p c).result with
    | none =>
        have hresult := (result_bind (result_optional_none hfirst)).symm.trans ha
        obtain ⟨rfl, rfl⟩ := Prod.mk.inj (Option.some.inj hresult)
        exact ⟨[], .alt_else (.seq_fails (hp.fails hn hfirst)) .empty, rfl, passes_refl P _⟩
    | some found =>
        obtain ⟨a, mid⟩ := found
        obtain ⟨ts, hts, rfl, hmid⟩ := hp.takes hn hfirst
        have hresult := (result_bind (result_optional_some hfirst)).symm.trans ha
        obtain ⟨us, hus, hT, hlast⟩ :=
          (hrest a).takes (Nat.lt_of_le_of_lt hts.length_le hn) hresult
        exact ⟨f a ++ us, .alt (.seq hts hus), hT, hmid.trans hlast⟩
  · have hfirst : LooksAt P c (Reader.optional p c).farthest :=
      farthest_orElse (farthest_bind (hp.looks hn) fun _ _ _ => .inl rfl) fun _ => .inl rfl
    refine farthest_bind hfirst fun o mid ho => ?_
    cases hresult : (p c).result with
    | none =>
        obtain ⟨rfl, rfl⟩ := Prod.mk.inj (Option.some.inj
          ((result_optional_none hresult).symm.trans ho))
        exact .inl rfl
    | some found =>
        obtain ⟨rfl, rfl⟩ := Prod.mk.inj (Option.some.inj
          ((result_optional_some hresult).symm.trans ho))
        obtain ⟨ts, hts, -, hmid⟩ := hp.takes hn hresult
        exact hmid.looksAt ((hrest _).looks (Nat.lt_of_le_of_lt hts.length_le hn))

end

end CyclePatterns.Notation

/-
What texts match.

The grammar of notation is written down as parsing expressions, and nothing is said of how a
text is read.  A derivation tells what an expression does in front of a text: it fails, or it
goes on to a place behind and keeps the counts it came by, in order.  An alternative is tried
only where the one before it fails, and a repetition ends only where what is repeated fails, so
no text has two derivations that end differently.
-/
import CyclePatterns.Proofs.Notation.Reading

namespace CyclePatterns.Notation

/-! ### Between two places -/

/-- What stands between two places of a text. -/
structure Between (c last : Cursor) (cs : List Char) : Prop where
  rest_eq : c.rest = cs ++ last.rest
  offset_eq : last.offset = c.offset + bytes cs

namespace Between

variable {c mid last : Cursor} {cs ds : List Char}

theorem refl (c : Cursor) : Between c c [] :=
  ⟨rfl, rfl⟩

theorem step {d : Char} {rest : List Char} (h : c.rest = d :: rest) :
    Between c (c.step d rest) [d] :=
  ⟨h, by rw [Cursor.step, bytes_singleton]⟩

theorem trans (h : Between c mid cs) (h' : Between mid last ds) : Between c last (cs ++ ds) where
  rest_eq := by rw [h.rest_eq, h'.rest_eq, List.append_assoc]
  offset_eq := by rw [h'.offset_eq, h.offset_eq, bytes_append, Nat.add_assoc]

theorem length_eq (h : Between c last cs) : c.rest.length = cs.length + last.rest.length := by
  rw [h.rest_eq, List.length_append]

theorem offset_le (h : Between c last cs) : c.offset ≤ last.offset :=
  h.offset_eq ▸ Nat.le_add_right _ _

end Between

/-! ### Parsing expressions -/

/-- The rules that come up in what they stand for. -/
inductive Rule where
  | layers
  | expression
deriving DecidableEq

/-- What a rule stands for is put together from these. -/
inductive Peg where
  /-- Nothing, and never fails. -/
  | empty
  /-- The end of the text. -/
  | atEnd
  /-- A character of a class. -/
  | char (is : Char → Bool)
  /-- The one and then the other. -/
  | seq (p q : Peg)
  /-- The one, or else the other. -/
  | alt (p q : Peg)
  /-- As often as possible. -/
  | star (p : Peg)
  /-- The text is kept as a count. -/
  | kept (p : Peg)
  /-- What a rule stands for. -/
  | ref (r : Rule)

namespace Peg

/-- This very character. -/
def exactly (d : Char) : Peg :=
  char (· == d)

/-- A word. -/
def word : List Char → Peg
  | [] => empty
  | d :: ds => seq (exactly d) (word ds)

/-- The expression or nothing. -/
def opt (p : Peg) : Peg :=
  alt p empty

/-- As often as possible, at least once. -/
def plus (p : Peg) : Peg :=
  seq p (star p)

/-- White space. -/
def space : Peg :=
  star (char Reader.isSpace)

/-- The one and then the other, with white space in between. -/
def spaced (p q : Peg) : Peg :=
  seq p (seq space q)

/-- As often as possible, with white space in between. -/
def starSpaced (p : Peg) : Peg :=
  opt (seq p (star (seq space p)))

/-- Where the expression does not fail it takes a character.  Of a rule this is not asked. -/
def consumes : Peg → Bool
  | empty | atEnd | star _ | ref _ => false
  | char _ => true
  | seq p q => p.consumes || q.consumes
  | alt p q => p.consumes && q.consumes
  | kept p => p.consumes

end Peg

/-! ### The grammar -/

namespace Rules

open Peg

/-- Digits. -/
def digits : Peg :=
  plus (char Char.isDigit)

/-- A number: perhaps a minus, digits, and perhaps a point with more digits. -/
def number : Peg :=
  seq (opt (exactly '-')) (seq digits (opt (seq (exactly '.') digits)))

/-- A number that consists of digits. -/
def count : Peg :=
  kept digits

/-- A letter and what names are made of. -/
def name : Peg :=
  seq (char Char.isAlpha) (star (char isNameChar))

/-- Text in quotes. -/
def quotedText : Peg :=
  seq (exactly '"') (seq (star (char (· != '"'))) (exactly '"'))

/-- A comma and a count. -/
def commaCount : Peg :=
  spaced (exactly ',') count

/-- A rhythm: `(p,s)` or `(p,s,r)`. -/
def euclid : Peg :=
  spaced (exactly '(') (spaced count (spaced commaCount (spaced (opt commaCount) (exactly ')'))))

/-- What stands behind a step, without white space. -/
def suffix : Peg :=
  alt (seq (exactly '*') number) <|
  alt (seq (exactly '/') number) <|
  alt (seq (exactly '%') number) <|
  alt (seq (exactly '?') (opt number)) <|
  alt (seq (exactly '@') number) <|
  alt (seq (exactly '!') (opt count)) euclid

/-- Layers in brackets. -/
def bracket : Peg :=
  spaced (exactly '[') (spaced (ref .layers) (exactly ']'))

/-- A word or layers in brackets, and suffixes. -/
def step : Peg :=
  seq (alt (plus (char isStepChar)) bracket) (star suffix)

/-- One or more steps. -/
def layer : Peg :=
  spaced step (starSpaced step)

/-- A comma and a layer. -/
def commaLayer : Peg :=
  spaced (exactly ',') layer

/-- Layers with commas between them. -/
def layers : Peg :=
  spaced layer (starSpaced commaLayer)

/-- A call that is a word and a number. -/
def numberCall (w : String) : Peg :=
  spaced (word w.toList) number

/-- A scale and its name in quotes. -/
def scaleCall : Peg :=
  spaced (word "scale".toList) quotedText

/-- What a call by name may be given. -/
def argument : Peg :=
  alt number (alt quotedText name)

/-- A call by any name. -/
def namedCall : Peg :=
  spaced name (starSpaced argument)

/-- Any call. -/
def call : Peg :=
  alt (numberCall "slow") (alt (numberCall "fast") (alt scaleCall namedCall))

/-- Layers in quotes. -/
def quoted : Peg :=
  spaced (exactly '"') (spaced (ref .layers) (exactly '"'))

/-- A call in front of an expression. -/
def application : Peg :=
  spaced call (spaced (exactly '$') (ref .expression))

/-- Quoted notation, perhaps with calls in front. -/
def expression : Peg :=
  alt application quoted

/-- An expression that is a whole text. -/
def program : Peg :=
  seq space (spaced (ref .expression) atEnd)

end Rules

/-- What a rule stands for. -/
def Rule.body : Rule → Peg
  | layers => Rules.layers
  | expression => Rules.expression

/-! ### Derivations -/

/-- What an expression does at a place of a text: it fails, or goes on to a place behind and
keeps some counts. -/
inductive Derives : Peg → Cursor → Option (Cursor × List Numeral) → Prop
  | empty {c : Cursor} : Derives .empty c (some (c, []))
  | atEnd {c : Cursor} (h : c.rest = []) : Derives .atEnd c (some (c, []))
  | atEnd_fails {c : Cursor} (h : c.rest ≠ []) : Derives .atEnd c none
  | char {is : Char → Bool} {c : Cursor} {d : Char} {rest : List Char} (h : c.rest = d :: rest)
      (hd : is d = true) : Derives (.char is) c (some (c.step d rest, []))
  | char_fails {is : Char → Bool} {c : Cursor} (h : Reader.Stops is c.rest) :
      Derives (.char is) c none
  | seq {p q : Peg} {c mid last : Cursor} {ts us : List Numeral}
      (hp : Derives p c (some (mid, ts))) (hq : Derives q mid (some (last, us))) :
      Derives (.seq p q) c (some (last, ts ++ us))
  | seq_fails {p q : Peg} {c : Cursor} (hp : Derives p c none) : Derives (.seq p q) c none
  | seq_stops {p q : Peg} {c mid : Cursor} {ts : List Numeral}
      (hp : Derives p c (some (mid, ts))) (hq : Derives q mid none) : Derives (.seq p q) c none
  | alt {p q : Peg} {c last : Cursor} {ts : List Numeral} (hp : Derives p c (some (last, ts))) :
      Derives (.alt p q) c (some (last, ts))
  | alt_else {p q : Peg} {c : Cursor} {o : Option (Cursor × List Numeral)}
      (hp : Derives p c none) (hq : Derives q c o) : Derives (.alt p q) c o
  | star {p : Peg} {c mid last : Cursor} {ts us : List Numeral}
      (hp : Derives p c (some (mid, ts))) (hrest : Derives (.star p) mid (some (last, us))) :
      Derives (.star p) c (some (last, ts ++ us))
  | star_ends {p : Peg} {c : Cursor} (hp : Derives p c none) :
      Derives (.star p) c (some (c, []))
  | kept {p : Peg} {c last : Cursor} {cs : List Char} {ts : List Numeral}
      (hp : Derives p c (some (last, ts))) (h : Between c last cs) :
      Derives (.kept p) c (some (last, [⟨cs, placeOf c.offset cs⟩]))
  | kept_fails {p : Peg} {c : Cursor} (hp : Derives p c none) : Derives (.kept p) c none
  | ref {r : Rule} {c : Cursor} {o : Option (Cursor × List Numeral)} (h : Derives r.body c o) :
      Derives (.ref r) c o

namespace Derives

variable {p : Peg} {c last : Cursor} {ts : List Numeral} {o o' : Option (Cursor × List Numeral)}

/-- Derivations at one place end alike. -/
theorem unique (h : Derives p c o) (h' : Derives p c o') : o = o' := by
  induction h generalizing o' with
  | empty =>
      cases h' with
      | empty => rfl
  | atEnd h =>
      cases h' with
      | atEnd _ => rfl
      | atEnd_fails h' => exact absurd h h'
  | atEnd_fails h =>
      cases h' with
      | atEnd h' => exact absurd h' h
      | atEnd_fails _ => rfl
  | char h hd =>
      cases h' with
      | char h' _ =>
          obtain ⟨rfl, rfl⟩ := List.cons.inj (h.symm.trans h')
          rfl
      | char_fails h' => exact Bool.noConfusion (hd.symm.trans (h' _ _ h))
  | char_fails h =>
      cases h' with
      | char h' hd => exact Bool.noConfusion (hd.symm.trans (h _ _ h'))
      | char_fails _ => rfl
  | seq _ _ ihp ihq =>
      cases h' with
      | seq hp hq =>
          obtain ⟨rfl, rfl⟩ := Prod.mk.inj (Option.some.inj (ihp hp))
          obtain ⟨rfl, rfl⟩ := Prod.mk.inj (Option.some.inj (ihq hq))
          rfl
      | seq_fails hp => cases ihp hp
      | seq_stops hp hq =>
          obtain ⟨rfl, rfl⟩ := Prod.mk.inj (Option.some.inj (ihp hp))
          cases ihq hq
  | seq_fails _ ihp =>
      cases h' with
      | seq hp _ => cases ihp hp
      | seq_fails _ => rfl
      | seq_stops _ _ => rfl
  | seq_stops _ _ ihp ihq =>
      cases h' with
      | seq hp hq =>
          obtain ⟨rfl, rfl⟩ := Prod.mk.inj (Option.some.inj (ihp hp))
          cases ihq hq
      | seq_fails _ => rfl
      | seq_stops _ _ => rfl
  | alt _ ihp =>
      cases h' with
      | alt hp => exact ihp hp
      | alt_else hp _ => cases ihp hp
  | alt_else _ _ ihp ihq =>
      cases h' with
      | alt hp => cases ihp hp
      | alt_else _ hq => exact ihq hq
  | star _ _ ihp ihrest =>
      cases h' with
      | star hp hrest =>
          obtain ⟨rfl, rfl⟩ := Prod.mk.inj (Option.some.inj (ihp hp))
          obtain ⟨rfl, rfl⟩ := Prod.mk.inj (Option.some.inj (ihrest hrest))
          rfl
      | star_ends hp => cases ihp hp
  | star_ends _ ihp =>
      cases h' with
      | star hp _ => cases ihp hp
      | star_ends _ => rfl
  | kept _ h ihp =>
      cases h' with
      | kept hp h' =>
          obtain ⟨rfl, rfl⟩ := Prod.mk.inj (Option.some.inj (ihp hp))
          obtain rfl := List.append_cancel_right (h.rest_eq.symm.trans h'.rest_eq)
          rfl
      | kept_fails hp => cases ihp hp
  | kept_fails _ ihp =>
      cases h' with
      | kept hp _ => cases ihp hp
      | kept_fails _ => rfl
  | ref _ ih =>
      cases h' with
      | ref h' => exact ih h'

/-- What is taken comes next in the text. -/
theorem between (h : Derives p c (some (last, ts))) : ∃ cs, Between c last cs := by
  generalize ho : some (last, ts) = o at h
  induction h generalizing last ts with
  | empty | atEnd | star_ends =>
      obtain ⟨rfl, rfl⟩ := Prod.mk.inj (Option.some.inj ho)
      exact ⟨[], .refl _⟩
  | char h _ =>
      obtain ⟨rfl, rfl⟩ := Prod.mk.inj (Option.some.inj ho)
      exact ⟨_, .step h⟩
  | seq _ _ ihp ihq | star _ _ ihp ihq =>
      obtain ⟨rfl, rfl⟩ := Prod.mk.inj (Option.some.inj ho)
      obtain ⟨cs, hcs⟩ := ihp rfl
      obtain ⟨ds, hds⟩ := ihq rfl
      exact ⟨cs ++ ds, hcs.trans hds⟩
  | alt _ ih | alt_else _ _ _ ih | ref _ ih => exact ih ho
  | kept _ h _ =>
      obtain ⟨rfl, rfl⟩ := Prod.mk.inj (Option.some.inj ho)
      exact ⟨_, h⟩
  | atEnd_fails | char_fails | seq_fails | seq_stops | kept_fails => cases ho

theorem length_le (h : Derives p c (some (last, ts))) : last.rest.length ≤ c.rest.length := by
  obtain ⟨cs, hcs⟩ := h.between
  rw [hcs.length_eq]
  exact Nat.le_add_left _ _

/-- What takes a character leaves less of the text. -/
theorem length_lt (h : Derives p c (some (last, ts))) (hp : p.consumes = true) :
    last.rest.length < c.rest.length := by
  generalize ho : some (last, ts) = o at h
  induction h generalizing last ts with
  | empty | atEnd | star | star_ends | ref => exact Bool.noConfusion hp
  | char h _ =>
      obtain ⟨rfl, rfl⟩ := Prod.mk.inj (Option.some.inj ho)
      rw [h]
      exact Nat.lt_succ_self _
  | seq hp' hq ihp ihq =>
      obtain ⟨rfl, rfl⟩ := Prod.mk.inj (Option.some.inj ho)
      rcases Bool.or_eq_true_iff.mp hp with hp | hp
      · exact Nat.lt_of_le_of_lt hq.length_le (ihp hp rfl)
      · exact Nat.lt_of_lt_of_le (ihq hp rfl) hp'.length_le
  | alt _ ih => exact ih (Bool.and_eq_true_iff.mp hp).1 ho
  | alt_else _ _ _ ih => exact ih (Bool.and_eq_true_iff.mp hp).2 ho
  | kept _ _ ih =>
      obtain ⟨rfl, rfl⟩ := Prod.mk.inj (Option.some.inj ho)
      exact ih hp rfl
  | atEnd_fails | char_fails | seq_fails | seq_stops | kept_fails => cases ho

/-! ### Counts in the text -/

/-- A count stands between two places of a text. -/
def Stands (c last : Cursor) (n : Numeral) : Prop :=
  ∃ front back cs ds, Between c front cs ∧ Between front back n.text ∧ Between back last ds ∧
    n.place = placeOf front.offset n.text

theorem Stands.before {c mid last : Cursor} {n : Numeral} {cs : List Char} (h : Stands mid last n)
    (hcs : Between c mid cs) : Stands c last n := by
  obtain ⟨front, back, ds, es, hfront, hback, hlast, hplace⟩ := h
  exact ⟨front, back, cs ++ ds, es, hcs.trans hfront, hback, hlast, hplace⟩

theorem Stands.behind {c mid last : Cursor} {n : Numeral} {cs : List Char} (h : Stands c mid n)
    (hcs : Between mid last cs) : Stands c last n := by
  obtain ⟨front, back, ds, es, hfront, hback, hlast, hplace⟩ := h
  exact ⟨front, back, ds, es ++ cs, hfront, hback, hlast.trans hcs, hplace⟩

theorem Stands.inside {c last : Cursor} {n : Numeral} (h : Stands c last n) :
    c.offset ≤ n.place.start ∧ n.place.stop ≤ last.offset := by
  obtain ⟨front, back, cs, ds, hfront, hback, hlast, hplace⟩ := h
  rw [hplace, placeOf, ← hback.offset_eq]
  exact ⟨hfront.offset_le, hlast.offset_le⟩

/-- The counts of a derivation stand in the text, one behind the other. -/
structure InOrder (c last : Cursor) (ts : List Numeral) : Prop where
  stands : ∀ n ∈ ts, Stands c last n
  pairwise : ts.Pairwise fun m n => m.place.stop ≤ n.place.start

theorem inOrder_nil (c last : Cursor) : InOrder c last [] :=
  ⟨fun _ h => absurd h List.not_mem_nil, .nil⟩

theorem InOrder.append {c mid last : Cursor} {ts us : List Numeral} {cs ds : List Char}
    (h : InOrder c mid ts) (h' : InOrder mid last us) (hcs : Between c mid cs)
    (hds : Between mid last ds) : InOrder c last (ts ++ us) where
  stands := List.forall_mem_append.mpr
    ⟨fun n hn => (h.stands n hn).behind hds, fun n hn => (h'.stands n hn).before hcs⟩
  pairwise := List.pairwise_append.mpr ⟨h.pairwise, h'.pairwise, fun m hm n hn =>
    Nat.le_trans (h.stands m hm).inside.2 (h'.stands n hn).inside.1⟩

theorem inOrder (h : Derives p c (some (last, ts))) : InOrder c last ts := by
  generalize ho : some (last, ts) = o at h
  induction h generalizing last ts with
  | empty | atEnd | char | star_ends =>
      obtain ⟨rfl, rfl⟩ := Prod.mk.inj (Option.some.inj ho)
      exact inOrder_nil _ _
  | seq hp hq ihp ihq | star hp hq ihp ihq =>
      obtain ⟨rfl, rfl⟩ := Prod.mk.inj (Option.some.inj ho)
      obtain ⟨cs, hcs⟩ := hp.between
      obtain ⟨ds, hds⟩ := hq.between
      exact (ihp rfl).append (ihq rfl) hcs hds
  | alt _ ih | alt_else _ _ _ ih | ref _ ih => exact ih ho
  | @kept _ c last cs _ _ h _ =>
      obtain ⟨rfl, rfl⟩ := Prod.mk.inj (Option.some.inj ho)
      refine ⟨List.forall_mem_singleton.mpr ?_, List.pairwise_singleton _ _⟩
      exact ⟨c, last, [], [], .refl c, h, .refl last, rfl⟩
  | atEnd_fails | char_fails | seq_fails | seq_stops | kept_fails => cases ho

end Derives

/-- The text matches the grammar, and these are its counts. -/
def Matches (text : List Char) (counts : List Numeral) : Prop :=
  ∃ last, Derives Rules.program ⟨0, text⟩ (some (last, counts))

namespace Matches

variable {text : List Char} {counts counts' : List Numeral}

theorem unique (h : Matches text counts) (h' : Matches text counts') : counts = counts' := by
  obtain ⟨last, h⟩ := h
  obtain ⟨last', h'⟩ := h'
  exact (Prod.mk.inj (Option.some.inj (h.unique h'))).2

/-- The counts of a text stand in it where their places say. -/
theorem exists_front (h : Matches text counts) {n : Numeral} (hn : n ∈ counts) :
    ∃ front back, text = front ++ (n.text ++ back) ∧ n.place = placeOf (bytes front) n.text := by
  obtain ⟨last, h⟩ := h
  obtain ⟨start, stop, front, _, hfront, hstop, -, hplace⟩ := h.inOrder.stands n hn
  refine ⟨front, stop.rest, ?_, ?_⟩
  · rw [← hstop.rest_eq]
    exact hfront.rest_eq
  · rw [hplace, hfront.offset_eq, Nat.zero_add]

/-- The counts of a text are in the order of the text. -/
theorem start_le {before after : List Numeral} {n m : Numeral}
    (h : Matches text (before ++ n :: after)) (hm : m ∈ after) : n.place.start ≤ m.place.start := by
  obtain ⟨front, -, -, hplace⟩ := h.exists_front (List.mem_append_right _ List.mem_cons_self)
  obtain ⟨last, h⟩ := h
  have hbehind := List.rel_of_pairwise_cons (List.pairwise_append.mp h.inOrder.pairwise).2.1 hm
  rw [hplace, placeOf] at hbehind ⊢
  exact Nat.le_trans (Nat.le_add_right _ _) hbehind

end Matches

end CyclePatterns.Notation

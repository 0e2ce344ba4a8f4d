/-
Texts that are good JSON.

A token remembers what a reader gets and, apart from that, what stops one who passes over it.
In the draft of a text the first decides on the second: whatever can be read can be passed
over.  Only strings need an argument, since a pair of escapes that is one character to a
reader is two escapes to one who passes over them.

So the draft of a text that can be read is the draft of a value: the value that the text
spells, with the entries of its objects in the order of the text.
-/
import CyclePatterns.Json.Reader
import CyclePatterns.Proofs.Outcome

namespace CyclePatterns.Json

/-! ### Tokens that can be read can be passed over -/

/-- A token that can be read has no fault. -/
def Token.Honest {α : Type} (t : Token α) : Prop :=
  ∀ a, t.read = .ok a → t.skim = none

theorem Token.Honest.eq_clean {α : Type} {t : Token α} {a : α} (h : t.Honest)
    (hread : t.read = .ok a) : t = .clean a := by
  cases t with
  | mk read skim =>
      obtain rfl : read = .ok a := hread
      obtain rfl : skim = none := h a rfl
      rfl

/-- Four digits take four characters. -/
theorem hexFour_eq_ok {cs rest : List Char} {n : Nat} (h : hexFour cs = .ok (n, rest)) :
    rest.length + 4 = cs.length := by
  unfold hexFour at h
  split at h
  · cases h
  · split at h
    · split at h
      · obtain ⟨-, rfl⟩ := Prod.mk.inj (Except.ok.inj h)
        rfl
      · cases h
    · cases h

/-- An escape that can be read is passed over in the same way, or the other half of a pair is
left for another escape. -/
theorem escapeExtent_of_escape {cs rest : List Char} {d : Char} (h : escape cs = .ok (d, rest)) :
    (escapeExtent cs = .ok rest ∧ rest.length < cs.length) ∨
      ∃ half, escapeExtent cs = .ok ('\\' :: half) ∧ escapeExtent half = .ok rest ∧
        rest.length < half.length ∧ half.length < cs.length := by
  cases cs with
  | nil => cases h
  | cons c r =>
      by_cases hu : c = 'u'
      · subst hu
        obtain ⟨⟨n, behind⟩, hn, h⟩ := ok_of_bind_eq_ok h
        have hextent : escapeExtent ('u' :: r) = .ok behind := by
          rw [escapeExtent, hn]
          rfl
        have hlength : behind.length + 4 = r.length := hexFour_eq_ok hn
        have hcons : ('u' :: r).length = r.length + 1 := rfl
        dsimp only at h
        split at h
        · cases h
        · split at h
          · obtain ⟨-, rfl⟩ := Prod.mk.inj (Except.ok.inj h)
            exact .inl ⟨hextent, by omega⟩
          · split at h
            · cases h
            · cases h
            · rename_i cs
              obtain ⟨⟨m, behind⟩, hm, h⟩ := ok_of_bind_eq_ok h
              dsimp only at h
              split at h
              · obtain ⟨-, rfl⟩ := Prod.mk.inj (Except.ok.inj h)
                have hhalf : escapeExtent ('u' :: cs) = .ok behind := by
                  rw [escapeExtent, hm]
                  rfl
                have hlength' : behind.length + 4 = cs.length := hexFour_eq_ok hm
                simp only [List.length_cons] at hlength
                refine .inr ⟨'u' :: cs, hextent, hhalf, ?_, ?_⟩
                · simp only [List.length_cons]
                  omega
                · simp only [List.length_cons]
                  omega
              · cases h
            · cases h
      · rw [escape.eq_3 _ _ hu] at h
        rw [escapeExtent.eq_3 _ _ hu]
        split at h
        · obtain ⟨-, rfl⟩ := Prod.mk.inj (Except.ok.inj h)
          rename_i hletter
          rw [hletter]
          exact .inl ⟨rfl, Nat.lt_succ_self _⟩
        · cases h

/-- A string that can be read comes to an end. -/
theorem stringExtent_of_stringContent {fuel : Nat} {cs content : List Char}
    (h : stringContent fuel cs = .ok content) {extent : Nat} (hextent : cs.length < extent) :
    ∃ rest, stringExtent extent cs = .ok rest := by
  induction fuel generalizing cs content extent with
  | zero => cases h
  | succ fuel ih =>
      obtain ⟨extent, rfl⟩ := Nat.exists_eq_succ_of_ne_zero (Nat.ne_zero_of_lt hextent)
      cases cs with
      | nil => cases h
      | cons c r =>
          have hr : r.length < extent := Nat.lt_of_succ_lt_succ hextent
          rw [stringContent] at h
          rw [stringExtent]
          by_cases hquote : c = '"'
          · rw [if_pos hquote]
            exact ⟨r, rfl⟩
          · rw [if_neg hquote] at h ⊢
            by_cases hescape : c = '\\'
            · rw [if_pos hescape] at h ⊢
              obtain ⟨⟨d, behind⟩, hd, h⟩ := ok_of_bind_eq_ok h
              obtain ⟨content', hcontent', -⟩ := ok_of_bind_eq_ok h
              rcases escapeExtent_of_escape hd with ⟨hskip, hlt⟩ | ⟨half, hskip, hhalf, hlt, hlt'⟩
              · rw [hskip]
                exact ih hcontent' (Nat.lt_trans hlt hr)
              · obtain ⟨extent, rfl⟩ := Nat.exists_eq_succ_of_ne_zero (Nat.ne_zero_of_lt hr)
                have hbackslash : '\\' ≠ '"' := by decide
                have hhalf' : stringExtent (extent + 1) ('\\' :: half)
                    = stringExtent extent behind := by
                  rw [stringExtent, if_neg hbackslash, if_pos rfl, hhalf]
                  rfl
                have hshort : behind.length < extent := by omega
                obtain ⟨rest, hrest⟩ := ih hcontent' hshort
                refine ⟨rest, ?_⟩
                rw [hskip]
                exact hhalf'.trans hrest
            · rw [if_neg hescape] at h ⊢
              by_cases hcontrol : c.toNat < 0x20
              · rw [if_pos hcontrol] at h
                cases h
              · rw [if_neg hcontrol] at h ⊢
                obtain ⟨content', hcontent', -⟩ := ok_of_map_eq_ok h
                exact ih hcontent' hr

theorem honest_stringToken (cs : List Char) : (stringToken cs).1.Honest := by
  intro content h
  unfold stringToken at h ⊢
  cases hextent : stringExtent (cs.length + 1) cs with
  | ok rest => rfl
  | error f =>
      simp only [hextent] at h
      obtain ⟨content, hcontent, -⟩ := ok_of_map_eq_ok h
      obtain ⟨rest, hrest⟩ := stringExtent_of_stringContent hcontent (Nat.lt_succ_self _)
      cases hextent.symm.trans hrest

theorem honest_token (cs : List Char) : (Literal.token cs).1.Honest := by
  intro n h
  unfold Literal.token at h ⊢
  split at h
  · split at h
    · rfl
    · cases h
  · cases h

/-! ### Drafts of texts -/

mutual
/-- All tokens of the draft are honest. -/
def Draft.Honest : Draft → Prop
  | .number n => n.Honest
  | .string s => s.Honest
  | .array items => items.Honest
  | .object fields => fields.Honest
  | _ => True

/-- All tokens of what is left of an array are honest. -/
def Items.Honest : Items → Prop
  | .item d rest => d.Honest ∧ rest.Honest
  | _ => True

/-- All tokens of what is left of an object are honest. -/
def Fields.Honest : Fields → Prop
  | .field key d rest => key.Honest ∧ d.Honest ∧ rest.Honest
  | _ => True
end

/-- With so much fuel, drafts are honest. -/
structure HonestWith (fuel : Nat) : Prop where
  value : ∀ cs, (valueDraft fuel cs).1.Honest
  firstItem : ∀ cs, (firstItem fuel cs).1.Honest
  nextItem : ∀ cs, (nextItem fuel cs).1.Honest
  moreItems : ∀ cs, (moreItems fuel cs).1.Honest
  firstField : ∀ cs, (firstField fuel cs).1.Honest
  nextField : ∀ cs, (nextField fuel cs).1.Honest
  moreFields : ∀ cs, (moreFields fuel cs).1.Honest

namespace HonestWith

variable {fuel : Nat}

theorem value_succ (h : HonestWith fuel) (cs : List Char) :
    (valueDraft (fuel + 1) cs).1.Honest := by
  unfold valueDraft
  dsimp only
  split
  · trivial
  · split <;> trivial
  · split <;> trivial
  · split <;> trivial
  · exact honest_stringToken _
  · exact h.firstItem _
  · exact h.firstField _
  · split
    · exact honest_token _
    · trivial

theorem firstItem_succ (h : HonestWith fuel) (cs : List Char) :
    (Json.firstItem (fuel + 1) cs).1.Honest := by
  unfold Json.firstItem
  split
  · trivial
  · trivial
  · exact h.nextItem _

theorem nextItem_succ (h : HonestWith fuel) (cs : List Char) :
    (Json.nextItem (fuel + 1) cs).1.Honest := by
  have hvalue := h.value cs
  unfold Json.nextItem
  split
  · rename_i hd
    rw [hd] at hvalue
    exact ⟨hvalue, trivial⟩
  · rename_i hd
    rw [hd] at hvalue
    exact ⟨hvalue, h.moreItems _⟩

theorem moreItems_succ (h : HonestWith fuel) (cs : List Char) :
    (Json.moreItems (fuel + 1) cs).1.Honest := by
  unfold Json.moreItems
  split
  · trivial
  · trivial
  · split
    · trivial
    · trivial
    · exact h.nextItem _
  · trivial

theorem firstField_succ (h : HonestWith fuel) (cs : List Char) :
    (Json.firstField (fuel + 1) cs).1.Honest := by
  unfold Json.firstField
  split
  · trivial
  · trivial
  · exact h.nextField _
  · trivial

theorem nextField_succ (h : HonestWith fuel) (cs : List Char) :
    (Json.nextField (fuel + 1) cs).1.Honest := by
  have hkey := honest_stringToken cs
  unfold Json.nextField
  dsimp only
  split
  · exact ⟨hkey, trivial, trivial⟩
  · split
    · exact ⟨hkey, trivial, trivial⟩
    · rename_i r hr
      have hvalue := h.value r
      split
      · rename_i hd
        rw [hd] at hvalue
        exact ⟨hkey, hvalue, trivial⟩
      · rename_i hd
        rw [hd] at hvalue
        exact ⟨hkey, hvalue, h.moreFields _⟩
    · exact ⟨hkey, trivial, trivial⟩

theorem moreFields_succ (h : HonestWith fuel) (cs : List Char) :
    (Json.moreFields (fuel + 1) cs).1.Honest := by
  unfold Json.moreFields
  split
  · trivial
  · trivial
  · split
    · trivial
    · exact h.nextField _
    · trivial
  · trivial

end HonestWith

theorem honestWith (fuel : Nat) : HonestWith fuel := by
  induction fuel with
  | zero =>
      refine ⟨?_, ?_, ?_, ?_, ?_, ?_, ?_⟩ <;> exact fun _ => trivial
  | succ fuel ih =>
      exact ⟨ih.value_succ, ih.firstItem_succ, ih.nextItem_succ, ih.moreItems_succ,
        ih.firstField_succ, ih.nextField_succ, ih.moreFields_succ⟩

theorem Document.honest_ofText (text : String) : (Document.ofText text).value.Honest := by
  have h := (honestWith (3 * text.toList.length + 3)).value text.toList
  unfold Document.ofText
  dsimp only
  split
  · rename_i hd
    rwa [hd] at h
  · rename_i hd
    rwa [hd] at h

/-! ### Drafts that can be read -/

mutual
/-- An honest draft that can be read is the draft of a value. -/
theorem Draft.exists_ofJson (d : Draft) {room : Room} {j : Json} (hhonest : d.Honest)
    (hread : d.toJson room = .ok j) : ∃ raw, d = Draft.ofJson raw := by
  cases d with
  | null => exact ⟨.null, rfl⟩
  | bool b => exact ⟨.bool b, rfl⟩
  | number n =>
      obtain ⟨a, ha, -⟩ := ok_of_map_eq_ok hread
      exact ⟨.number a, congrArg Draft.number (Token.Honest.eq_clean hhonest ha)⟩
  | string s =>
      obtain ⟨a, ha, -⟩ := ok_of_map_eq_ok hread
      exact ⟨.string a, congrArg Draft.string (Token.Honest.eq_clean hhonest ha)⟩
  | array items =>
      obtain ⟨inner, -, hread⟩ := ok_of_bind_eq_ok hread
      obtain ⟨js, hjs, -⟩ := ok_of_bind_eq_ok hread
      obtain ⟨raws, rfl⟩ := Items.exists_ofJson items hhonest hjs
      exact ⟨.array raws, rfl⟩
  | object fields =>
      obtain ⟨inner, -, hread⟩ := ok_of_bind_eq_ok hread
      obtain ⟨es, hes, -⟩ := ok_of_bind_eq_ok hread
      obtain ⟨raws, rfl⟩ := Fields.exists_ofJson fields hhonest hes
      exact ⟨.object raws, rfl⟩
  | fault f => cases hread
termination_by structural d

theorem Items.exists_ofJson (items : Items) {room : Room} {js : List Json}
    (hhonest : items.Honest) (hread : items.toJson room = .ok js) :
    ∃ raws, items = Items.ofJson raws := by
  cases items with
  | close => exact ⟨[], rfl⟩
  | stop f g => cases hread
  | item d rest =>
      obtain ⟨j, hj, hread⟩ := ok_of_bind_eq_ok hread
      obtain ⟨js, hjs, -⟩ := ok_of_bind_eq_ok hread
      obtain ⟨raw, rfl⟩ := Draft.exists_ofJson d hhonest.1 hj
      obtain ⟨raws, rfl⟩ := Items.exists_ofJson rest hhonest.2 hjs
      exact ⟨raw :: raws, rfl⟩
termination_by structural items

theorem Fields.exists_ofJson (fields : Fields) {room : Room} {before es : List (String × Json)}
    (hhonest : fields.Honest) (hread : fields.toJson room before = .ok es) :
    ∃ raws, fields = Fields.ofJson raws := by
  cases fields with
  | close => exact ⟨[], rfl⟩
  | stop f => cases hread
  | field key d rest =>
      obtain ⟨k, hk, hread⟩ := ok_of_bind_eq_ok hread
      obtain ⟨j, hj, hrest⟩ := ok_of_bind_eq_ok hread
      obtain rfl := Token.Honest.eq_clean hhonest.1 hk
      obtain ⟨raw, rfl⟩ := Draft.exists_ofJson d hhonest.2.1 hj
      obtain ⟨raws, rfl⟩ := Fields.exists_ofJson rest hhonest.2.2 hrest
      exact ⟨(k, raw) :: raws, rfl⟩
termination_by structural fields
end

/-- **A text that can be read spells a value**, and nothing stands behind it. -/
theorem Document.exists_ofJson {text : String} {j : Json}
    (h : (Document.ofText text).toJson = .ok j) :
    ∃ raw, Document.ofText text = ⟨Draft.ofJson raw, false⟩ ∧
      (Draft.ofJson raw).toJson Room.ofText = .ok j := by
  have hhonest := Document.honest_ofText text
  cases hdoc : Document.ofText text with
  | mk d trailing =>
      rw [hdoc] at h hhonest
      obtain ⟨a, hread, h⟩ := ok_of_bind_eq_ok h
      cases trailing with
      | true => cases h
      | false =>
          obtain rfl := Except.ok.inj h
          obtain ⟨raw, rfl⟩ := Draft.exists_ofJson d hhonest hread
          exact ⟨raw, rfl, hread⟩

end CyclePatterns.Json

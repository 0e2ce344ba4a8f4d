/-
Finding the names of modes in texts.

A mode is looked for in a text as it stands.  Capitals are passed over, except that a letter by
itself tells major from minor, and between the words of the names that are written out in full
there may be any white space.  The two names with an abbreviation ask for one space and nothing
else: with other white space between their words the mode is not recognised.
-/
import CyclePatterns.Proofs.Text.Small
import CyclePatterns.Theory.Mode

namespace CyclePatterns

open Text (Blank IsPair IsWord isBlank small trim trimFront words)

namespace Mode

variable {word first second : String} {cs front gap back v w n : List Char}
  {test : List Char → Bool} {a : Char}

/-! ### Recognition passes over capitals -/

theorem beginsWith_iff : beginsWith word cs = true ↔ word.toList <+: small cs :=
  List.isPrefixOf_iff_prefix

theorem beginsWith_small (word : String) (cs : List Char) :
    beginsWith word (small cs) = beginsWith word cs := by
  show word.toList.isPrefixOf (small (small cs)) = word.toList.isPrefixOf (small cs)
  rw [Text.small_small]

theorem beginsWithPair_small (first second : String) (cs : List Char) :
    beginsWithPair first second (small cs) = beginsWithPair first second cs := by
  have hdrop : (small cs).drop first.length = small (cs.drop first.length) := List.map_drop.symm
  rw [beginsWithPair, beginsWithPair, beginsWith_small, hdrop]
  cases cs.drop first.length with
  | nil => rfl
  | cons c r =>
      show (_ && (isBlank c.toLower && beginsWith second (trimFront (small r)))) = _
      rw [Text.isBlank_toLower, Text.trimFront_small, beginsWith_small]

/-- A test that passes over capitals does so wherever it succeeds. -/
theorem somewhere_small (h : ∀ cs, test (small cs) = test cs) (cs : List Char) :
    somewhere test (small cs) = somewhere test cs := by
  induction cs with
  | nil => rfl
  | cons c cs ih =>
      show (test (small (c :: cs)) || somewhere test (small cs)) = _
      rw [h, ih, somewhere]

theorem occurs_small (word : String) (cs : List Char) :
    occurs word (small cs) = occurs word cs :=
  somewhere_small (beginsWith_small word) cs

theorem occursPair_small (first second : String) (cs : List Char) :
    occursPair first second (small cs) = occursPair first second cs :=
  somewhere_small (beginsWithPair_small first second) cs

/-- The text begins with more letters than one, so that its first letter does not stand alone. -/
def Wordy : List Char → Prop
  | _ :: d :: _ => isBlank d = false
  | _ => False

instance : (cs : List Char) → Decidable (Wordy cs)
  | _ :: d :: _ => inferInstanceAs (Decidable (isBlank d = false))
  | [] => isFalse id
  | [_] => isFalse id

theorem Wordy.isLetter_eq_false (h : Wordy cs) (letter : Char) : isLetter letter cs = false := by
  match cs, h with
  | c :: d :: r, h =>
      have hd : isBlank d = false := h
      show (c == letter && isBlank d) = false
      rw [hd, Bool.and_false]

theorem Wordy.of_small (h : Wordy (small cs)) : Wordy cs := by
  match cs, h with
  | _ :: d :: _, h => exact (Text.isBlank_toLower d).symm.trans h

/-- A text that begins with more letters than one is recognised by its small letters. -/
theorem recognise_of_small (h : small (trim cs) = n) (hwordy : Wordy n) :
    recognise cs = recognise n := by
  have hcs : Wordy (trim cs) := by
    subst h
    exact hwordy.of_small
  have htrim : trim n = n := by
    rw [← h, Text.trim_small, Text.trim_trim]
  simp only [recognise, htrim, hcs.isLetter_eq_false, hwordy.isLetter_eq_false]
  simp only [← h, beginsWith_small, occurs_small, occursPair_small]

/-! ### Words with white space between them -/

/-- Where a text begins is decided by its first word, unless that is too short. -/
theorem beginsWith_append_eq_false (hv : small v = n) (h : ¬ word.toList <+: n)
    (h' : ¬ n <+: word.toList) (rest : List Char) : beginsWith word (v ++ rest) = false := by
  rw [Bool.eq_false_iff, Ne, beginsWith_iff, Text.small_append, hv]
  intro hprefix
  rcases List.prefix_or_prefix_of_prefix hprefix (List.prefix_append n _) with h'' | h''
  · exact h h''
  · exact h' h''

/-- A test of the front of a text that asks for one letter first, capital or not. -/
def AsksFor (a : Char) (test : List Char → Bool) : Prop :=
  ∀ cs, (∀ c ∈ cs.head?, c.toLower ≠ a) → test cs = false

theorem asksFor_beginsWith (ha : word.toList.head? = some a) : AsksFor a (beginsWith word) := by
  intro cs h
  obtain ⟨rest, hword⟩ := List.head?_eq_some_iff.mp ha
  rw [Bool.eq_false_iff, Ne, beginsWith_iff, hword]
  intro hprefix
  cases cs with
  | nil => exact List.cons_ne_nil _ _ (List.prefix_nil.mp hprefix)
  | cons c cs => exact h c rfl (List.cons_prefix_cons.mp hprefix).1.symm

theorem asksFor_beginsWithPair (ha : first.toList.head? = some a) (second : String) :
    AsksFor a (beginsWithPair first second) := by
  intro cs h
  rw [beginsWithPair, asksFor_beginsWith ha cs h, Bool.false_and]

/-- What asks for a letter does not succeed before that letter comes. -/
theorem AsksFor.somewhere_append (htest : AsksFor a test) (h : ∀ c ∈ front, c.toLower ≠ a) :
    somewhere test (front ++ back) = somewhere test back := by
  induction front with
  | nil => rfl
  | cons c front ih =>
      obtain ⟨hc, hfront⟩ := List.forall_mem_cons.mp h
      have hnot : test (c :: (front ++ back)) = false :=
        htest _ fun d hd => Option.some.inj hd ▸ hc
      rw [List.cons_append, somewhere, hnot, ih hfront, Bool.false_or]

theorem AsksFor.not_somewhere (htest : AsksFor a test) (h : ∀ c ∈ cs, c.toLower ≠ a) :
    somewhere test cs = false := by
  rw [← List.append_nil cs, htest.somewhere_append h]
  exact htest [] nofun

/-- Two words are found where they stand, whatever white space is between them. -/
theorem occursPair_of_isPair (h : IsPair cs v gap w) (hv : small v = first.toList)
    (hw : small w = second.toList) : occursPair first second (trim cs) = true := by
  obtain ⟨c, v', rfl⟩ := List.exists_cons_of_ne_nil h.first.nonempty
  obtain ⟨b, gap', rfl⟩ := List.exists_cons_of_ne_nil h.apart
  obtain ⟨hb, hgap'⟩ := List.forall_mem_cons.mp h.blank
  have hfront : beginsWith first (c :: v' ++ b :: gap' ++ w) = true := by
    rw [beginsWith_iff, List.append_assoc, Text.small_append, hv]
    exact List.prefix_append _ _
  have hback : beginsWith second (trimFront (gap' ++ w)) = true := by
    rw [Text.trimFront_append hgap', h.second.bare.front]
    exact beginsWith_iff.mpr (hw ▸ List.prefix_rfl)
  have hlength : first.length = (c :: v').length := by
    rw [← String.length_toList, ← hv, small, List.length_map]
  have hdrop : (c :: v' ++ b :: gap' ++ w).drop first.length = b :: (gap' ++ w) := by
    rw [hlength, List.append_assoc, List.drop_left, List.cons_append]
  have hpair : beginsWithPair first second (c :: v' ++ b :: gap' ++ w) = true := by
    rw [beginsWithPair, hfront, hdrop]
    show (true && (isBlank b && beginsWith second (trimFront (gap' ++ w)))) = true
    rw [hb, hback]
    rfl
  rw [h.trimmed]
  show (beginsWithPair first second (c :: v' ++ b :: gap' ++ w) || _) = true
  rw [hpair, Bool.true_or]

theorem forall_blank_ne (h : Blank gap) (ha : isBlank a = false) :
    ∀ c ∈ gap, c.toLower ≠ a := by
  rintro c hc rfl
  rw [Text.isBlank_toLower, h c hc] at ha
  exact Bool.noConfusion ha

theorem forall_ne_of_small (h : small v = n) (ha : a ∉ n) : ∀ c ∈ v, c.toLower ≠ a := by
  rintro c hc rfl
  exact ha (h ▸ List.mem_map_of_mem hc)

/-- A first letter that neither word has is nowhere in the text. -/
theorem forall_pair_ne (h : IsPair cs v gap w) (hv : small v = n) {m : List Char}
    (hw : small w = m) (ha : isBlank a = false) (hn : a ∉ n) (hm : a ∉ m) :
    ∀ c ∈ trim cs, c.toLower ≠ a := by
  rw [h.trimmed]
  exact List.forall_mem_append.mpr ⟨List.forall_mem_append.mpr
    ⟨forall_ne_of_small hv hn, forall_blank_ne h.blank ha⟩, forall_ne_of_small hw hm⟩

/-! ### Names of two words -/

theorem Wordy.append (h : Wordy v) (rest : List Char) : Wordy (v ++ rest) := by
  match v, h with
  | _ :: _ :: _, h => exact h

/-- A text that does not begin like a name of the major scale, although it begins with a word. -/
theorem not_ionian (h : IsPair cs v gap w) (hv : small v = n) (hwordy : Wordy n)
    (hmaj : ¬ "maj".toList <+: n ∧ ¬ n <+: "maj".toList)
    (hionian : ¬ "ionian".toList <+: n ∧ ¬ n <+: "ionian".toList) :
    (isLetter 'M' (trim cs) || beginsWith "maj" (trim cs) || beginsWith "ionian" (trim cs))
      = false := by
  have hletter : Wordy v := by
    subst hv
    exact hwordy.of_small
  rw [h.trimmed, List.append_assoc, (hletter.append _).isLetter_eq_false,
    beginsWith_append_eq_false hv hmaj.1 hmaj.2, beginsWith_append_eq_false hv hionian.1 hionian.2]
  rfl

theorem recognise_harmonic (h : IsPair cs v gap w) (hv : small v = "harmonic".toList)
    (hw : small w = "minor".toList) : recognise cs = some harmonicMinor := by
  have hionian := not_ionian h hv rfl (by decide) (by decide)
  have hpair := occursPair_of_isPair h hv hw
  simp only [recognise, hionian, hpair, Bool.or_true, Bool.false_eq_true, if_false, if_true]

theorem recognise_melodic (h : IsPair cs v gap w) (hv : small v = "melodic".toList)
    (hw : small w = "minor".toList) : recognise cs = some melodicMinor := by
  have hionian := not_ionian h hv rfl (by decide) (by decide)
  have hpair := occursPair_of_isPair h hv hw
  have habsent := forall_pair_ne h hv hw (a := 'h') rfl (by decide) (by decide)
  have hshort : occurs "har minor" (trim cs) = false :=
    (asksFor_beginsWith rfl).not_somewhere habsent
  have hjoined : occurs "harmonicminor" (trim cs) = false :=
    (asksFor_beginsWith rfl).not_somewhere habsent
  have hfull : occursPair "harmonic" "minor" (trim cs) = false :=
    (asksFor_beginsWithPair rfl "minor").not_somewhere habsent
  simp only [recognise, hionian, hshort, hjoined, hfull, hpair, Bool.or_true, Bool.or_false,
    Bool.false_eq_true, if_false, if_true]

/-! ### Abbreviated names -/

/-- A name that goes on with a letter where the text has white space. -/
theorem not_beginsWith_of_letter (h : IsPair cs v gap w) (hv : small v = n)
    (ha : isBlank a = false) {rest : List Char} (hword : word.toList = n ++ a :: rest) :
    beginsWith word (trim cs) = false := by
  obtain ⟨b, gap', rfl⟩ := List.exists_cons_of_ne_nil h.apart
  obtain ⟨hb, -⟩ := List.forall_mem_cons.mp h.blank
  rw [Bool.eq_false_iff, Ne, beginsWith_iff, h.trimmed, List.append_assoc, Text.small_append, hv,
    hword, List.prefix_append_right_inj]
  intro hprefix
  obtain ⟨rfl, -⟩ := List.cons_prefix_cons.mp hprefix
  rw [Text.isBlank_toLower, hb] at ha
  exact Bool.noConfusion ha

/-- A name that goes on with one space where the text has other white space. -/
theorem not_beginsWith_of_space (h : IsPair cs v gap w) (hv : small v = n) {m : List Char}
    (hw : small w = m) (hgap : gap ≠ [' ']) (hword : word.toList = n ++ ' ' :: m) :
    beginsWith word (trim cs) = false := by
  obtain ⟨b, gap', rfl⟩ := List.exists_cons_of_ne_nil h.apart
  obtain ⟨-, hgap'⟩ := List.forall_mem_cons.mp h.blank
  have hsmall : small (b :: gap') = b :: gap' := Text.small_of_blank h.blank
  obtain ⟨d, w', rfl⟩ := List.exists_cons_of_ne_nil h.second.nonempty
  rw [Bool.eq_false_iff, Ne, beginsWith_iff, h.trimmed, List.append_assoc, Text.small_append, hv,
    hword, List.prefix_append_right_inj, Text.small_append, hsmall, ← hw]
  intro hprefix
  obtain ⟨rfl, hbehind⟩ := List.cons_prefix_cons.mp hprefix
  -- Behind the space the name goes on with a letter, so the text must, too.
  cases gap' with
  | nil => exact hgap rfl
  | cons e gap' =>
      obtain ⟨rfl, -⟩ := List.cons_prefix_cons.mp hbehind
      have hsolid := h.second.solid d List.mem_cons_self
      rw [← Text.isBlank_toLower, hgap' d.toLower List.mem_cons_self] at hsolid
      exact Bool.noConfusion hsolid

/-- Behind its first letter, a pair of words does not hold a name that begins with that letter if
only the second word might. -/
theorem exists_tail_of_pair (h : IsPair cs v gap w) (ha : isBlank a = false)
    (hv : small v = a :: n) (hn : a ∉ n) :
    ∃ c front, trim cs = c :: (front ++ w) ∧ ∀ d ∈ front, d.toLower ≠ a := by
  obtain ⟨c, v', rfl⟩ := List.exists_cons_of_ne_nil h.first.nonempty
  refine ⟨c, v' ++ gap, h.trimmed.trans (by simp only [List.cons_append]), ?_⟩
  exact List.forall_mem_append.mpr
    ⟨forall_ne_of_small (List.cons.inj hv).2 hn, forall_blank_ne h.blank ha⟩

theorem AsksFor.not_somewhere_in_pair (htest : AsksFor a test) (h : IsPair cs v gap w)
    (ha : isBlank a = false) (hv : small v = a :: n) (hn : a ∉ n)
    (hback : somewhere test w = false) (hfront : test (trim cs) = false) :
    somewhere test (trim cs) = false := by
  obtain ⟨c, front, htrim, habsent⟩ := exists_tail_of_pair h ha hv hn
  rw [htrim] at hfront ⊢
  rw [somewhere, hfront, htest.somewhere_append habsent, hback, Bool.false_or]

/-- An abbreviated first word is no name with other white space behind it than one space: neither
the abbreviation, nor the name in full as one word or as two. -/
theorem not_named_in_pair (h : IsPair cs v gap w) {b : Char} (ha : isBlank a = false)
    (hb : isBlank b = false) {m rest rest' : List Char} (hv : small v = a :: n) (hn : a ∉ n)
    (hw : small w = m) (hgap : gap ≠ [' ']) {short joined first : String}
    (hshort : short.toList = a :: n ++ ' ' :: m) (hjoined : joined.toList = a :: n ++ b :: rest)
    (hfirst : first.toList = a :: n ++ b :: rest')
    (hback : (occurs short m || occurs joined m || occursPair first second m) = false) :
    (occurs short (trim cs) || occurs joined (trim cs) || occursPair first second (trim cs))
      = false := by
  simp only [Bool.or_eq_false_iff] at hback ⊢
  obtain ⟨⟨hshort', hjoined'⟩, hfirst'⟩ := hback
  subst hw
  rw [occurs_small] at hshort' hjoined'
  rw [occursPair_small] at hfirst'
  have hnofirst := not_beginsWith_of_letter h hv hb hfirst
  refine ⟨⟨?_, ?_⟩, ?_⟩
  · exact (asksFor_beginsWith (by rw [hshort]; rfl)).not_somewhere_in_pair h ha hv hn hshort'
      (not_beginsWith_of_space h hv rfl hgap hshort)
  · exact (asksFor_beginsWith (by rw [hjoined]; rfl)).not_somewhere_in_pair h ha hv hn hjoined'
      (not_beginsWith_of_letter h hv hb hjoined)
  · exact (asksFor_beginsWithPair (by rw [hfirst]; rfl) second).not_somewhere_in_pair h ha hv hn
      hfirst' (by rw [beginsWithPair, hnofirst, Bool.false_and])

theorem recognise_har_minor_ne (h : IsPair cs v gap w) (hv : small v = "har".toList)
    (hw : small w = "minor".toList) (hgap : gap ≠ [' ']) : recognise cs ≠ some harmonicMinor := by
  have hnone : (occurs "har minor" (trim cs) || occurs "harmonicminor" (trim cs) ||
      occursPair "harmonic" "minor" (trim cs)) = false :=
    not_named_in_pair h (a := 'h') (b := 'm') rfl rfl hv (by decide) hw hgap rfl rfl rfl rfl
  simp only [recognise, hnone, Bool.false_eq_true, if_false]
  split_ifs <;> nofun

theorem recognise_mel_minor_ne (h : IsPair cs v gap w) (hv : small v = "mel".toList)
    (hw : small w = "minor".toList) (hgap : gap ≠ [' ']) : recognise cs ≠ some melodicMinor := by
  have hnone : (occurs "mel minor" (trim cs) || occurs "melodicminor" (trim cs) ||
      occursPair "melodic" "minor" (trim cs)) = false :=
    not_named_in_pair h (a := 'm') (b := 'o') rfl rfl hv (by decide) hw hgap rfl rfl rfl rfl
  simp only [recognise, hnone, Bool.false_eq_true, if_false]
  split_ifs <;> nofun

/-! ### Tables of names -/

/-- The names in which a word is cut short. -/
def abbreviated : List String :=
  ["har minor", "mel minor"]

theorem recognise_name : ∀ m : Mode, ∀ n ∈ m.names, n ≠ "m" → recognise n.toList = some m := by
  intro m
  cases m <;> decide

theorem wordy_name : ∀ m : Mode, ∀ n ∈ m.names, n ≠ "m" → Wordy n.toList := by
  intro m
  cases m <;> decide

/-- A name is one word or two, and if it is two they are written out in full or abbreviated. -/
theorem name_cases : ∀ m : Mode, ∀ n ∈ m.names,
    words n.toList = [n.toList] ∨ n ∈ abbreviated ∨ (n = "harmonic minor" ∧ m = harmonicMinor) ∨
      n = "melodic minor" ∧ m = melodicMinor := by
  intro m
  cases m <;> decide

theorem abbreviated_cases : ∀ m : Mode, ∀ n ∈ m.names, n ∈ abbreviated →
    (n = "har minor" ∧ m = harmonicMinor) ∨ n = "mel minor" ∧ m = melodicMinor := by
  intro m
  cases m <;> decide

end Mode

end CyclePatterns

/-
White space around texts and between their words.

Trimming takes off what is blank at the front, then what is blank at the back.  A text that it
leaves as it is is bare, and white space put around a bare text is all that trimming finds.  The
words of a text are bare, each of them; a text with one word is that word once it has been
trimmed, and a text with two words is the two of them with white space in between, as much of it
as there was.
-/
import CyclePatterns.Text.Blank
import Mathlib.Data.List.DropRight

namespace CyclePatterns.Text

/-- The text holds nothing but white space. -/
def Blank (cs : List Char) : Prop :=
  ∀ c ∈ cs, isBlank c = true

instance (cs : List Char) : Decidable (Blank cs) :=
  decidable_of_iff (cs.all isBlank = true) List.all_eq_true

/-- The text neither begins nor ends with white space. -/
structure Bare (cs : List Char) : Prop where
  front : trimFront cs = cs
  back : trimBack cs = cs

variable {cs before after gap v w : List Char} {c : Char}

theorem blank_nil : Blank [] :=
  fun _ hc => absurd hc List.not_mem_nil

/-! ### Where a run of characters ends -/

theorem takeWhile_of_head? {p : Char → Bool} (h : ∀ c ∈ cs.head?, p c = false) :
    cs.takeWhile p = [] := by
  cases cs with
  | nil => rfl
  | cons c cs => rw [List.takeWhile_cons, h c rfl, if_neg Bool.false_ne_true]

theorem dropWhile_of_head? {p : Char → Bool} (h : ∀ c ∈ cs.head?, p c = false) :
    cs.dropWhile p = cs := by
  cases cs with
  | nil => rfl
  | cons c cs => rw [List.dropWhile_cons, h c rfl, if_neg Bool.false_ne_true]

/-- A run and what follows it are told apart, if what follows does not begin like the run. -/
theorem run_append_inj {p : Char → Bool} {ds : List Char} (hv : ∀ c ∈ v, p c = true)
    (hw : ∀ c ∈ w, p c = true) (hcs : ∀ c ∈ cs.head?, p c = false)
    (hds : ∀ c ∈ ds.head?, p c = false) (h : v ++ cs = w ++ ds) : v = w ∧ cs = ds := by
  have hrun := congrArg (List.takeWhile p) h
  rw [List.takeWhile_append_of_pos hv, List.takeWhile_append_of_pos hw, takeWhile_of_head? hcs,
    takeWhile_of_head? hds, List.append_nil, List.append_nil] at hrun
  exact ⟨hrun, List.append_cancel_left (hrun ▸ h)⟩

/-! ### Trimming one end -/

theorem trimFront_append (h : Blank before) : trimFront (before ++ cs) = trimFront cs :=
  List.dropWhile_append_of_pos h

theorem trimFront_eq_nil_iff : trimFront cs = [] ↔ Blank cs :=
  List.dropWhile_eq_nil_iff

theorem trimBack_eq_nil_iff : trimBack cs = [] ↔ Blank cs :=
  List.rdropWhile_eq_nil_iff

/-- Of two texts, one behind the other, the second is what trimming the back meets first. -/
theorem trimBack_append (cs ds : List Char) :
    trimBack (cs ++ ds) = if trimBack ds = [] then trimBack cs else cs ++ trimBack ds := by
  have hempty : ((ds.reverse.dropWhile isBlank).isEmpty = true) = (trimBack ds = []) := by
    rw [List.isEmpty_iff, trimBack, List.reverse_eq_nil_iff]
  rw [trimBack, List.reverse_append, List.dropWhile_append]
  simp only [hempty]
  split
  · rfl
  · rw [List.reverse_append, List.reverse_reverse]
    rfl

theorem trimBack_append_of_blank (h : Blank after) : trimBack (cs ++ after) = trimBack cs := by
  rw [trimBack_append, if_pos (trimBack_eq_nil_iff.mpr h)]

/-! ### Trimming both ends -/

/-- White space around a text makes no difference. -/
theorem trim_surrounded (hbefore : Blank before) (hafter : Blank after) :
    trim (before ++ cs ++ after) = trim cs := by
  rw [trim, trim, List.append_assoc, trimFront_append hbefore, trimFront, List.dropWhile_append]
  split
  · rename_i hempty
    have hcs : trimFront cs = [] := List.isEmpty_iff.mp hempty
    have hafter : List.dropWhile isBlank after = [] := trimFront_eq_nil_iff.mpr hafter
    rw [hafter, hcs]
  · exact trimBack_append_of_blank hafter

theorem trim_trimBack (cs : List Char) : trim (trimBack cs) = trim cs := by
  have hblank : Blank (cs.rtakeWhile isBlank) := fun _ => List.mem_rtakeWhile_imp
  have hsplit : trimBack cs ++ cs.rtakeWhile isBlank = cs := List.rdropWhile_append_rtakeWhile
  have hsame : trim ([] ++ trimBack cs ++ cs.rtakeWhile isBlank) = trim (trimBack cs) :=
    trim_surrounded blank_nil hblank
  rw [List.nil_append, hsplit] at hsame
  exact hsame.symm

theorem trim_trim (cs : List Char) : trim (trim cs) = trim cs := by
  have hfront : trimFront (trimFront cs) = trimFront cs := List.dropWhile_idempotent _ _
  calc trim (trim cs) = trim (trimFront cs) := trim_trimBack _
    _ = trim cs := by rw [trim, hfront, trim]

namespace Bare

theorem trim_eq (h : Bare cs) : trim cs = cs := by
  rw [trim, h.front, h.back]

theorem trimFront_append (hv : Bare v) (hne : v ≠ []) (cs : List Char) :
    trimFront (v ++ cs) = v ++ cs := by
  rw [trimFront, List.dropWhile_append, if_neg]
  · exact congrArg (· ++ cs) hv.front
  · rw [List.isEmpty_iff]
    exact fun h => hne (hv.front.symm.trans h)

/-- What a bare text begins with stays when the whole is trimmed. -/
theorem trim_append (hv : Bare v) (hne : v ≠ []) (cs : List Char) :
    trim (v ++ cs) = v ++ trimBack cs := by
  rw [trim, hv.trimFront_append hne, trimBack_append]
  split
  · rename_i hcs
    rw [hv.back, hcs, List.append_nil]
  · rfl

/-- A text that is neither blank at the front nor at the back is bare, whatever it holds. -/
theorem join (hv : Bare v) (hw : Bare w) (hv' : v ≠ []) (hw' : w ≠ []) : Bare (v ++ gap ++ w) := by
  constructor
  · rw [List.append_assoc]
    exact hv.trimFront_append hv' _
  · rw [trimBack_append, hw.back, if_neg hw']

end Bare

/-- What trimming leaves as it is is bare. -/
theorem bare_of_trim_eq (h : trim cs = cs) : Bare cs := by
  have hback : (trim cs).length ≤ (trimFront cs).length := (List.rdropWhile_prefix _ _).length_le
  have hfront : trimFront cs = cs := by
    refine (List.dropWhile_suffix isBlank).eq_of_length_le ?_
    rwa [h] at hback
  refine ⟨hfront, ?_⟩
  rwa [trim, hfront] at h

/-! ### Texts without white space, without a separator -/

theorem trim_eq_self {cs : List Char} (h : ∀ c ∈ cs, isBlank c = false) : trim cs = cs := by
  have hfront : ∀ c ∈ cs.head?, isBlank c = false := fun c hc => h c (List.mem_of_mem_head? hc)
  have hback : ∀ c ∈ cs.reverse.head?, isBlank c = false :=
    fun c hc => h c (List.mem_reverse.mp (List.mem_of_mem_head? hc))
  rw [trim, trimFront, dropWhile_of_head? hfront, trimBack, dropWhile_of_head? hback,
    List.reverse_reverse]

theorem cut?_of_not_mem {c : Char} {cs : List Char} (h : c ∉ cs) : cut? c cs = none := by
  induction cs with
  | nil => rfl
  | cons d rest ih =>
      rw [List.mem_cons, not_or] at h
      rw [cut?, if_neg (Ne.symm h.1), ih h.2]
      rfl

/-! ### Words -/

/-- A word: some characters and no white space. -/
structure IsWord (w : List Char) : Prop where
  nonempty : w ≠ []
  solid : ∀ c ∈ w, isBlank c = false

theorem IsWord.bare (h : IsWord w) : Bare w :=
  bare_of_trim_eq (trim_eq_self h.solid)

theorem filter_cons_word (h : IsWord w) (us : List (List Char)) :
    (w :: us).filter (fun w => !w.isEmpty) = w :: us.filter fun w => !w.isEmpty := by
  rw [List.filter_cons, if_pos]
  rw [List.isEmpty_eq_false_iff.mpr h.nonempty]
  rfl

/-- The text does not go on with a word. -/
def AtGap (cs : List Char) : Prop :=
  ∀ c ∈ cs.head?, isBlank c = true

theorem words_cons_blank (h : isBlank c = true) (cs : List Char) : words (c :: cs) = words cs := by
  rw [words, stretches, if_pos h]
  rfl

/-- The first stretch of a text goes on to the first white space, or to the end. -/
theorem exists_of_stretches {u : List Char} {us : List (List Char)} (h : stretches cs = u :: us) :
    ∃ rest, cs = u ++ rest ∧ (∀ c ∈ u, isBlank c = false) ∧ AtGap rest ∧
      words rest = us.filter fun w => !w.isEmpty := by
  induction cs generalizing u us with
  | nil =>
      obtain ⟨rfl, rfl⟩ := List.cons.inj h
      exact ⟨[], rfl, fun _ hc => absurd hc List.not_mem_nil, nofun, rfl⟩
  | cons c cs ih =>
      rw [stretches] at h
      split at h
      · rename_i hc
        obtain ⟨rfl, rfl⟩ := List.cons.inj h
        refine ⟨c :: cs, rfl, fun _ hc => absurd hc List.not_mem_nil, ?_, words_cons_blank hc cs⟩
        rintro _ ⟨⟩
        exact hc
      · rename_i hc
        have hsolid : isBlank c = false := Bool.eq_false_iff.mpr hc
        split at h
        next hnone =>
          obtain ⟨rfl, rfl⟩ := List.cons.inj h
          cases cs with
          | nil => cases hnone
          | cons d cs =>
              rw [stretches] at hnone
              split at hnone
              · cases hnone
              · split at hnone <;> cases hnone
        next u' us' hsome =>
          obtain ⟨rfl, rfl⟩ := List.cons.inj h
          obtain ⟨rest, rfl, hu, hgap, hwords⟩ := ih hsome
          exact ⟨rest, rfl, List.forall_mem_cons.mpr ⟨hsolid, hu⟩, hgap, hwords⟩

/-- A text without words is white space. -/
theorem blank_of_words_eq_nil (h : words cs = []) : Blank cs := by
  induction cs with
  | nil => exact blank_nil
  | cons c cs ih =>
      by_cases hc : isBlank c = true
      · rw [words_cons_blank hc] at h
        exact List.forall_mem_cons.mpr ⟨hc, ih h⟩
      · rw [words, stretches, if_neg hc] at h
        split at h <;> cases h

/-- The first word of a text, and what stands around it. -/
theorem exists_of_words_cons {ws : List (List Char)} (h : words cs = w :: ws) :
    ∃ gap rest, cs = gap ++ (w ++ rest) ∧ Blank gap ∧ IsWord w ∧ AtGap rest ∧ words rest = ws := by
  induction cs with
  | nil => cases h
  | cons c cs ih =>
      by_cases hc : isBlank c = true
      · rw [words_cons_blank hc] at h
        obtain ⟨gap, rest, rfl, hgap, hrest⟩ := ih h
        exact ⟨c :: gap, rest, rfl, List.forall_mem_cons.mpr ⟨hc, hgap⟩, hrest⟩
      · cases hstretches : stretches (c :: cs) with
        | nil =>
            rw [words, hstretches] at h
            cases h
        | cons u us =>
            obtain ⟨rest, hcs, hu, hrest, hwords⟩ := exists_of_stretches hstretches
            have hne : u ≠ [] := by
              rintro rfl
              obtain rfl : c :: cs = rest := hcs
              exact hc (hrest c rfl)
            rw [words, hstretches, filter_cons_word ⟨hne, hu⟩] at h
            obtain ⟨rfl, rfl⟩ := List.cons.inj h
            exact ⟨[], rest, hcs, blank_nil, ⟨hne, hu⟩, hrest, hwords⟩

theorem isWord_of_mem_words (h : w ∈ words cs) : IsWord w := by
  generalize hws : words cs = ws at h
  induction ws generalizing cs with
  | nil => exact absurd h List.not_mem_nil
  | cons v ws ih =>
      obtain ⟨gap, rest, -, -, hv, -, hrest⟩ := exists_of_words_cons hws
      rcases List.mem_cons.mp h with rfl | h
      · exact hv
      · exact ih hrest h

/-- A text with one word. -/
theorem trim_of_words_singleton (h : words cs = [w]) : IsWord w ∧ trim cs = w := by
  obtain ⟨gap, rest, rfl, hgap, hw, -, hrest⟩ := exists_of_words_cons h
  refine ⟨hw, ?_⟩
  rw [← List.append_assoc, trim_surrounded hgap (blank_of_words_eq_nil hrest), hw.bare.trim_eq]

/-- The text is two words with this white space between them, and perhaps more around them. -/
structure IsPair (cs v gap w : List Char) : Prop where
  first : IsWord v
  second : IsWord w
  blank : Blank gap
  apart : gap ≠ []
  trimmed : trim cs = v ++ gap ++ w

/-- A text with two words. -/
theorem isPair_of_words_pair (h : words cs = [v, w]) : ∃ gap, IsPair cs v gap w := by
  obtain ⟨before, rest, rfl, hbefore, hv, hrest, hwords⟩ := exists_of_words_cons h
  obtain ⟨gap, after, rfl, hgap, hw, -, hafter⟩ := exists_of_words_cons hwords
  refine ⟨gap, hv, hw, hgap, ?_, ?_⟩
  · rintro rfl
    obtain ⟨c, w, rfl⟩ := List.exists_cons_of_ne_nil hw.nonempty
    exact Bool.noConfusion ((hrest c rfl).symm.trans (hw.solid c List.mem_cons_self))
  · have hbare : Bare (v ++ gap ++ w) := hv.bare.join hw.bare hv.nonempty hw.nonempty
    have hsplit : before ++ (v ++ (gap ++ (w ++ after))) = before ++ (v ++ gap ++ w) ++ after := by
      simp only [List.append_assoc]
    rw [hsplit, trim_surrounded hbefore (blank_of_words_eq_nil hafter), hbare.trim_eq]

/-! ### Words with one space between them -/

/-- The words of a text with one space between them. -/
def spacedOnce (cs : List Char) : List Char :=
  [' '].intercalate (words cs)

theorem stretches_of_solid (h : ∀ c ∈ w, isBlank c = false) : stretches w = [w] := by
  induction w with
  | nil => rfl
  | cons c w ih =>
      obtain ⟨hc, hw⟩ := List.forall_mem_cons.mp h
      rw [stretches, if_neg (Bool.eq_false_iff.mp hc), ih hw]

theorem stretches_append_cons (h : ∀ c ∈ w, isBlank c = false) (hc : isBlank c = true)
    (cs : List Char) : stretches (w ++ c :: cs) = w :: stretches cs := by
  induction w with
  | nil => rw [List.nil_append, stretches, if_pos hc]
  | cons d w ih =>
      obtain ⟨hd, hw⟩ := List.forall_mem_cons.mp h
      rw [List.cons_append, stretches, if_neg (Bool.eq_false_iff.mp hd), ih hw]

theorem words_intercalate {ws : List (List Char)} (h : ∀ w ∈ ws, IsWord w) :
    words ([' '].intercalate ws) = ws := by
  induction ws with
  | nil => rfl
  | cons w ws ih =>
      obtain ⟨hw, hws⟩ := List.forall_mem_cons.mp h
      cases ws with
      | nil =>
          rw [List.intercalate_singleton, words, stretches_of_solid hw.solid, filter_cons_word hw]
          rfl
      | cons v ws =>
          rw [List.intercalate_cons_cons, List.append_assoc, words]
          show (stretches (w ++ ' ' :: [' '].intercalate (v :: ws))).filter _ = _
          rw [stretches_append_cons hw.solid rfl, filter_cons_word hw]
          exact congrArg (w :: ·) (ih hws)

/-- The words do not change. -/
theorem words_spacedOnce (cs : List Char) : words (spacedOnce cs) = words cs :=
  words_intercalate fun _ => isWord_of_mem_words

end CyclePatterns.Text

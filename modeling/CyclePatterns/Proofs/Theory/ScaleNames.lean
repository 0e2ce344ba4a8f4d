/-
Scale names up to case and spacing.

A type of scale is known by its normal form, in small letters with single spaces, but the mode
that it names is looked for in the text as it stands.  The two agree on every name but the
abbreviated ones, which are refused with more white space between their words than one space,
although their normal form is that of a name.  Every other type is read up to case and spacing,
whatever becomes of characters outside ASCII in small letters: no name has any that come of them.
-/
import CyclePatterns.Proofs.Theory.ModeNames
import CyclePatterns.Theory.Scale

namespace CyclePatterns

open Text (IsPair small spacedOnce trim words)

namespace Scale

open Mode (abbreviated)

variable {type s t : String} {m : Mode} {lower : List Char → List Char}

/-! ### Normal forms -/

/-- A type of scale with single spaces and in what `lower` takes for small letters. -/
def normalForm (lower : List Char → List Char) (type : String) : String :=
  String.ofList (lower (spacedOnce type.toList))

/-- Apart from the white space around it, the type has single spaces only. -/
def SpacedOnce (type : String) : Prop :=
  trim type.toList = spacedOnce type.toList

instance (type : String) : Decidable (SpacedOnce type) :=
  inferInstanceAs (Decidable (_ = _))

theorem intercalate_small (ws : List (List Char)) :
    [' '].intercalate (ws.map small) = small ([' '].intercalate ws) := by
  induction ws with
  | nil => rfl
  | cons w ws ih =>
      cases ws with
      | nil => rw [List.map_singleton, List.intercalate_singleton, List.intercalate_singleton]
      | cons v ws =>
          rw [List.map_cons, List.map_cons, List.intercalate_cons_cons, List.intercalate_cons_cons,
            ← List.map_cons, ih, Text.small_append, Text.small_append]
          rfl

theorem normalize_eq (type : String) : normalize type = normalForm small type := by
  have hwords (ws : List (List Char)) :
      (ws.map fun w => String.ofList (w.map Char.toLower)).map String.toList = ws.map small := by
    rw [List.map_map]
    exact List.map_congr_left fun w _ => String.toList_ofList
  have hspace : " ".toList = [' '] := rfl
  apply String.toList_inj.mp
  rw [normalize, String.toList_intercalate, hwords, hspace, intercalate_small, normalForm,
    String.toList_ofList, spacedOnce]

theorem toList_normalize (type : String) :
    (normalize type).toList = small (spacedOnce type.toList) := by
  rw [normalize_eq, normalForm, String.toList_ofList]

theorem words_normalize (type : String) :
    words (normalize type).toList = (words type.toList).map small := by
  rw [toList_normalize, Text.words_small, Text.words_spacedOnce]

/-! ### Modes and their names -/

theorem exists_of_words_map_pair {v w : List Char} (h : (words type.toList).map small = [v, w]) :
    ∃ v' gap w', IsPair type.toList v' gap w' ∧ small v' = v ∧ small w' = w ∧
      words type.toList = [v', w'] := by
  obtain ⟨v', ws, hwords, hv, hws⟩ := List.map_eq_cons_iff.mp h
  obtain ⟨w', ws', rfl, hw, hnil⟩ := List.map_eq_cons_iff.mp hws
  obtain rfl := List.map_eq_nil_iff.mp hnil
  obtain ⟨gap, hpair⟩ := Text.isPair_of_words_pair hwords
  exact ⟨v', gap, w', hpair, hv, hw, hwords⟩

/-- A name is recognised as the mode that it names.  How depends on the name: one word, or two with
one space, is recognised by its small letters, and two words with other white space by finding
them where they stand. -/
theorem recognise_of_mem_names (hname : normalize type ∈ m.names) (hletter : normalize type ≠ "m")
    (hspaced : normalize type ∈ abbreviated → SpacedOnce type) :
    Mode.recognise type.toList = some m := by
  have hwordy := Mode.wordy_name m _ hname hletter
  have hwords := words_normalize type
  rcases Mode.name_cases m _ hname with hone | habbreviated | ⟨hfull, rfl⟩ | ⟨hfull, rfl⟩
  · rw [hone] at hwords
    obtain ⟨w, ws, hw, hsmall, hnil⟩ := List.map_eq_cons_iff.mp hwords.symm
    obtain rfl := List.map_eq_nil_iff.mp hnil
    obtain ⟨-, htrim⟩ := Text.trim_of_words_singleton hw
    rw [Mode.recognise_of_small (htrim ▸ hsmall) hwordy, Mode.recognise_name m _ hname hletter]
  · have htrim : small (trim type.toList) = (normalize type).toList := by
      rw [hspaced habbreviated, toList_normalize]
    rw [Mode.recognise_of_small htrim hwordy, Mode.recognise_name m _ hname hletter]
  · rw [hfull] at hwords
    obtain ⟨v, gap, w, hpair, hv, hw, -⟩ := exists_of_words_map_pair hwords.symm
    exact Mode.recognise_harmonic hpair hv hw
  · rw [hfull] at hwords
    obtain ⟨v, gap, w, hpair, hv, hw, -⟩ := exists_of_words_map_pair hwords.symm
    exact Mode.recognise_melodic hpair hv hw

/-- An abbreviated name is not recognised with other white space than one space. -/
theorem spacedOnce_of_recognise (hname : normalize type ∈ m.names)
    (habbreviated : normalize type ∈ abbreviated) (h : Mode.recognise type.toList = some m) :
    SpacedOnce type := by
  have hwords := words_normalize type
  have hspaced {v gap w : List Char} (hpair : IsPair type.toList v gap w)
      (hvw : words type.toList = [v, w]) (hgap : gap = [' ']) : SpacedOnce type := by
    rw [SpacedOnce, hpair.trimmed, hgap, spacedOnce, hvw, List.intercalate_cons_cons,
      List.intercalate_singleton]
  rcases Mode.abbreviated_cases m _ hname habbreviated with ⟨hfull, rfl⟩ | ⟨hfull, rfl⟩
  · rw [hfull] at hwords
    obtain ⟨v, gap, w, hpair, hv, hw, hvw⟩ := exists_of_words_map_pair hwords.symm
    exact hspaced hpair hvw
      (Decidable.not_not.mp fun hgap => Mode.recognise_har_minor_ne hpair hv hw hgap h)
  · rw [hfull] at hwords
    obtain ⟨v, gap, w, hpair, hv, hw, hvw⟩ := exists_of_words_map_pair hwords.symm
    exact hspaced hpair hvw
      (Decidable.not_not.mp fun hgap => Mode.recognise_mel_minor_ne hpair hv hw hgap h)

/-- A type names a mode by its normal form, and if this is abbreviated, by its spaces. -/
theorem mode?_eq_some_iff (hletter : normalize type ≠ "m") :
    mode? type = some m ↔
      normalize type ∈ m.names ∧ (normalize type ∈ abbreviated → SpacedOnce type) := by
  constructor
  · intro h
    obtain ⟨m', hm', hif⟩ := Option.bind_eq_some_iff.mp h
    split at hif
    · rename_i hname
      obtain rfl := Option.some.inj hif
      have hname := List.contains_iff_mem.mp hname
      exact ⟨hname, fun habbreviated => spacedOnce_of_recognise hname habbreviated hm'⟩
    · cases hif
  · rintro ⟨hname, hspaced⟩
    refine Option.bind_eq_some_iff.mpr ⟨m, recognise_of_mem_names hname hletter hspaced, ?_⟩
    rw [if_pos (List.contains_iff_mem.mpr hname)]

/-! ### Intervals -/

/-- What the intervals of a type depend on: its normal form and the mode that it names. -/
theorem toOption_intervals_eq (hname : normalize s = normalize t) (hmode : mode? s = mode? t) :
    (intervals s).toOption = (intervals t).toOption := by
  simp only [intervals, hname, hmode]
  split_ifs
  · rfl
  · rfl
  · split
    · rfl
    · split <;> rfl

theorem mode?_eq_of_normalize (hname : normalize s = normalize t) (hletter : normalize s ≠ "m")
    (hspaced : normalize s ∈ abbreviated → (SpacedOnce s ↔ SpacedOnce t)) :
    mode? s = mode? t := by
  ext m
  rw [mode?_eq_some_iff hletter, mode?_eq_some_iff (hname ▸ hletter), ← hname]
  exact and_congr_right fun _ => forall_congr' hspaced

/-- A type that is accepted has the normal form of one of the names. -/
theorem name_of_intervals {l : List Interval} (h : intervals type = .ok l) :
    normalize type = "chromatic" ∨ (∃ entry ∈ spelled, normalize type ∈ entry.1) ∨
      ∃ m : Mode, normalize type ∈ m.names := by
  rw [intervals] at h
  split_ifs at h with hempty hchromatic
  · exact .inl hchromatic
  · split at h
    next hfound =>
      have hcontains := List.find?_some hfound
      exact .inr (.inl ⟨_, List.mem_of_find?_eq_some hfound, List.contains_iff_mem.mp hcontains⟩)
    next =>
      cases hmode : mode? type with
      | none =>
          rw [hmode] at h
          cases h
      | some m =>
          obtain ⟨m', -, hif⟩ := Option.bind_eq_some_iff.mp hmode
          split at hif
          · rename_i hname
            exact .inr (.inr ⟨m', List.contains_iff_mem.mp hname⟩)
          · cases hif

theorem native_chromatic : Text.Native "chromatic".toList := by
  decide

theorem native_spelled : ∀ entry ∈ spelled, ∀ n ∈ entry.1, Text.Native n.toList := by
  decide

theorem native_mode : ∀ m : Mode, ∀ n ∈ m.names, Text.Native n.toList := by
  intro m
  cases m <;> decide

/-- No name has a foreign character, so a type with one is not accepted. -/
theorem refused_of_foreign (h : ∃ c ∈ (normalize type).toList, Text.Foreign c) :
    (intervals type).toOption = none := by
  obtain ⟨c, hc, hforeign⟩ := h
  cases hintervals : intervals type with
  | error e => rfl
  | ok l =>
      exfalso
      rcases name_of_intervals hintervals with hname | ⟨entry, hentry, hname⟩ | ⟨m, hname⟩
      · rw [hname] at hc
        exact native_chromatic c hc hforeign
      · exact native_spelled entry hentry _ hname c hc hforeign
      · exact native_mode m _ hname c hc hforeign

/-- With another case map a type has the same normal form, or it is refused with either. -/
theorem normalForm_cases (h : Text.CaseMap lower) (type : String) :
    normalForm lower type = normalize type ∨
      (∃ c ∈ (normalForm lower type).toList, Text.Foreign c) ∧ (intervals type).toOption = none := by
  rcases h.eq_small_or (spacedOnce type.toList) with hsmall | ⟨hlower, hsmall⟩
  · rw [normalize_eq, normalForm, normalForm, hsmall]
    exact .inl rfl
  · refine .inr ⟨?_, refused_of_foreign ?_⟩
    · rwa [normalForm, String.toList_ofList]
    · rwa [toList_normalize]

theorem refused_of_foreign_normalForm (h : Text.CaseMap lower)
    (hforeign : ∃ c ∈ (normalForm lower type).toList, Text.Foreign c) :
    (intervals type).toOption = none := by
  rcases normalForm_cases h type with hsame | ⟨-, hrefused⟩
  · exact refused_of_foreign (hsame ▸ hforeign)
  · exact hrefused

theorem normalForm_eq_normalize (h : Text.CaseMap lower)
    (hforeign : ¬ ∃ c ∈ (normalForm lower type).toList, Text.Foreign c) :
    normalForm lower type = normalize type := by
  rcases normalForm_cases h type with hsame | ⟨hforeign', -⟩
  · exact hsame
  · exact absurd hforeign' hforeign

/-- An abbreviated name is accepted with one space between its words and with no other. -/
theorem isSome_intervals_of_abbreviated (h : normalize type ∈ abbreviated) :
    (intervals type).toOption.isSome = true ↔ SpacedOnce type := by
  have hmode : ∃ m : Mode, normalize type ∈ m.names ∧ ∃ first rest, ofMode m = first :: rest := by
    rcases List.mem_pair.mp h with hname | hname <;> rw [hname]
    · exact ⟨.harmonicMinor, by decide, _, _, rfl⟩
    · exact ⟨.melodicMinor, by decide, _, _, rfl⟩
  have hplain : normalize type ≠ "m" ∧ normalize type ≠ "" ∧ normalize type ≠ "chromatic" ∧
      ∀ entry ∈ spelled, normalize type ∉ entry.1 := by
    rcases List.mem_pair.mp h with hname | hname <;> rw [hname] <;> decide
  obtain ⟨hletter, hempty, hchromatic, hspelled⟩ := hplain
  obtain ⟨m, hname, first, rest, hrising⟩ := hmode
  rw [intervals, if_neg hempty, if_neg hchromatic]
  split
  next hfound =>
    have hcontains := List.find?_some hfound
    exact absurd (List.contains_iff_mem.mp hcontains)
      (hspelled _ (List.mem_of_find?_eq_some hfound))
  next =>
    by_cases hspaced : SpacedOnce type
    · rw [(mode?_eq_some_iff hletter).mpr ⟨hname, fun _ => hspaced⟩, Option.map_some, hrising]
      exact iff_of_true rfl hspaced
    · have hnone : mode? type = none := by
        rw [Option.eq_none_iff_forall_ne_some]
        exact fun m' hm' => hspaced (((mode?_eq_some_iff hletter).mp hm').2 h)
      rw [hnone]
      exact iff_of_false nofun hspaced

/-- Types of scales with the same normal form are accepted alike, with the same intervals, or
refused alike, except that an abbreviated name needs its one space.  This holds whatever the case
map makes of characters outside ASCII. -/
theorem intervals_up_to_spelling (hlower : Text.CaseMap lower)
    (hsame : normalForm lower s = normalForm lower t) (hletter : normalForm lower s ≠ "m") :
    ((normalForm lower s ∈ abbreviated → (SpacedOnce s ↔ SpacedOnce t)) →
        (intervals s).toOption = (intervals t).toOption) ∧
      (normalForm lower s ∈ abbreviated →
        ((intervals s).toOption.isSome = true ↔ SpacedOnce s)) := by
  -- With a foreign character both are refused; without one the case map does not matter.
  by_cases hforeign : ∃ c ∈ (normalForm lower s).toList, Text.Foreign c
  · have hs := refused_of_foreign_normalForm hlower hforeign
    have ht := refused_of_foreign_normalForm hlower (hsame ▸ hforeign)
    refine ⟨fun _ => hs.trans ht.symm, fun habbreviated => absurd hforeign ?_⟩
    rintro ⟨c, hc, hforeign⟩
    rcases List.mem_pair.mp habbreviated with hname | hname <;> rw [hname] at hc
    · exact native_mode .harmonicMinor "har minor" (by decide) c hc hforeign
    · exact native_mode .melodicMinor "mel minor" (by decide) c hc hforeign
  · have hs := normalForm_eq_normalize hlower hforeign
    have ht := normalForm_eq_normalize hlower (hsame ▸ hforeign)
    rw [hs, ht] at hsame
    rw [hs] at hletter ⊢
    exact ⟨fun hspaced => toOption_intervals_eq hsame (mode?_eq_of_normalize hsame hletter hspaced),
      isSome_intervals_of_abbreviated⟩

/-- Capitals and white space make no difference to the harmonic minor scale. -/
theorem intervals_up_to_spelling_harmonic :
    (intervals "\t Harmonic  MINOR").toOption = (intervals "harmonic minor").toOption :=
  (intervals_up_to_spelling Text.caseMap_small (by decide) (by decide)).1
    fun habbreviated => absurd habbreviated (by decide)

/-- With two spaces the abbreviated name is refused, although it has the same normal form. -/
theorem abbreviated_needs_one_space :
    normalForm small "har minor" = normalForm small "har  minor" ∧
      normalForm small "har minor" ≠ "m" ∧
      intervals "har minor" =
        .ok (degrees [(0, 0), (1, 2), (2, 3), (3, 5), (4, 7), (5, 8), (6, 11)]) ∧
      intervals "har  minor" = .error (.unknownScale "har  minor") := by
  decide +kernel

end Scale

end CyclePatterns

/-
Texts in small letters.

White space is neither small nor capital, so a text has the same words in small letters and the
same white space around and between them.  A case map is told apart from the one for the letters
of ASCII only by texts with other characters, and of these the only one that it may make ASCII of
is the sign of the kelvin, which becomes a `k`.
-/
import CyclePatterns.Proofs.Text.Words

namespace CyclePatterns.Text

/-! ### Characters -/

/-- A capital is thirty-two places in front of its small letter, and nothing else changes. -/
theorem toLower_cases (c : Char) :
    (¬ (65 ≤ c.toNat ∧ c.toNat ≤ 90) ∧ c.toLower = c) ∨
      (65 ≤ c.toNat ∧ c.toNat ≤ 90) ∧ c.toLower.toNat = c.toNat + 32 := by
  by_cases h : c.val ≥ 'A'.val ∧ c.val ≤ 'Z'.val
  · have hrange : 65 ≤ c.toNat ∧ c.toNat ≤ 90 := h
    have hval : c.val.toNat ≤ 90 := hrange.2
    refine .inr ⟨hrange, ?_⟩
    have hlower : c.toLower = ⟨c.val + ('a'.val - 'A'.val), _⟩ := dif_pos h
    rw [hlower]
    show (c.val.toNat + 32) % 4294967296 = c.val.toNat + 32
    omega
  · exact .inl ⟨h, dif_neg h⟩

theorem toLower_toLower (c : Char) : c.toLower.toLower = c.toLower := by
  rcases toLower_cases c with ⟨-, h⟩ | ⟨hcapital, h⟩
  · rw [h, h]
  · rcases toLower_cases c.toLower with ⟨-, h'⟩ | ⟨hcapital', -⟩
    · exact h'
    · omega

theorem isBlank_of_isLetter {c : Char} (h : 65 ≤ c.toNat ∧ c.toNat ≤ 122) : isBlank c = false := by
  simp only [isBlank, Bool.or_eq_false_iff, Bool.and_eq_false_iff, decide_eq_false_iff_not,
    beq_eq_false_iff_ne]
  omega

theorem isBlank_toLower (c : Char) : isBlank c.toLower = isBlank c := by
  rcases toLower_cases c with ⟨-, h⟩ | ⟨hcapital, h⟩
  · rw [h]
  · rw [isBlank_of_isLetter (c := c) (by omega), isBlank_of_isLetter (by omega)]

theorem toLower_of_isBlank {c : Char} (h : isBlank c = true) : c.toLower = c := by
  rcases toLower_cases c with ⟨-, h'⟩ | ⟨hcapital, -⟩
  · exact h'
  · rw [isBlank_of_isLetter (by omega)] at h
    exact Bool.noConfusion h

/-! ### Texts -/

/-- A text in small letters. -/
def small (cs : List Char) : List Char :=
  cs.map Char.toLower

variable {cs : List Char}

theorem small_append (cs ds : List Char) : small (cs ++ ds) = small cs ++ small ds :=
  List.map_append

theorem small_small (cs : List Char) : small (small cs) = small cs := by
  rw [small, small, List.map_map]
  exact List.map_congr_left fun c _ => toLower_toLower c

theorem small_of_blank (h : Blank cs) : small cs = cs :=
  (List.map_congr_left fun c hc => toLower_of_isBlank (h c hc)).trans (List.map_id cs)

theorem trimFront_small (cs : List Char) : trimFront (small cs) = small (trimFront cs) := by
  rw [trimFront, small, List.dropWhile_map, trimFront, small]
  congr 2
  funext c
  exact isBlank_toLower c

theorem trimBack_small (cs : List Char) : trimBack (small cs) = small (trimBack cs) := by
  have hreverse : (small cs).reverse = small cs.reverse := List.map_reverse.symm
  rw [trimBack, hreverse]
  exact (congrArg List.reverse (trimFront_small cs.reverse)).trans List.map_reverse.symm

theorem trim_small (cs : List Char) : trim (small cs) = small (trim cs) := by
  rw [trim, trimFront_small, trimBack_small, trim]

theorem stretches_small (cs : List Char) : stretches (small cs) = (stretches cs).map small := by
  induction cs with
  | nil => rfl
  | cons c cs ih =>
      show stretches (c.toLower :: small cs) = _
      rw [stretches, stretches, isBlank_toLower, ih]
      split
      · rfl
      · cases stretches cs <;> rfl

theorem words_small (cs : List Char) : words (small cs) = (words cs).map small := by
  rw [words, stretches_small, List.filter_map, words]
  congr 2
  funext w
  cases w <;> rfl

/-! ### Other alphabets -/

/-- A character that no case map makes of ASCII, or the one that a case map may make of a
character outside it. -/
def Foreign (c : Char) : Prop :=
  128 ≤ c.toNat ∨ c = 'k'

instance (c : Char) : Decidable (Foreign c) :=
  inferInstanceAs (Decidable (_ ∨ _))

/-- The text has no foreign characters. -/
def Native (cs : List Char) : Prop :=
  ∀ c ∈ cs, ¬ Foreign c

instance (cs : List Char) : Decidable (Native cs) :=
  decidable_of_iff (cs.all (fun c => !decide (Foreign c)) = true) <| by
    simp only [List.all_eq_true, Bool.not_eq_true', decide_eq_false_iff_not, Native]

/-- What is known of a map to small letters that covers all alphabets. -/
structure CaseMap (lower : List Char → List Char) : Prop where
  /-- The letters of ASCII are mapped one by one. -/
  ascii : ∀ cs, (∀ c ∈ cs, c.toNat < 128) → lower cs = small cs
  /-- Another character leaves its mark. -/
  other : ∀ cs, (∃ c ∈ cs, 128 ≤ c.toNat) → ∃ c ∈ lower cs, Foreign c

theorem caseMap_small : CaseMap small where
  ascii _ _ := rfl
  other cs := by
    rintro ⟨c, hc, hbig⟩
    refine ⟨c.toLower, List.mem_map_of_mem hc, .inl ?_⟩
    rcases toLower_cases c with ⟨-, h⟩ | ⟨hcapital, -⟩
    · rwa [h]
    · omega

/-- Unless a text has foreign characters in small letters, every case map takes it to these. -/
theorem CaseMap.eq_small_or {lower : List Char → List Char} (h : CaseMap lower) (cs : List Char) :
    lower cs = small cs ∨ (∃ c ∈ lower cs, Foreign c) ∧ ∃ c ∈ small cs, Foreign c := by
  by_cases hother : ∃ c ∈ cs, 128 ≤ c.toNat
  · exact .inr ⟨h.other cs hother, caseMap_small.other cs hother⟩
  · refine .inl (h.ascii cs fun c hc => ?_)
    exact Nat.lt_of_not_le fun hbig => hother ⟨c, hc, hbig⟩

end CyclePatterns.Text

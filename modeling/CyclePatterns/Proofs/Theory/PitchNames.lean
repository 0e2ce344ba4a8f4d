/-
Names of pitches that are written and read again.

The name of a pitch is its letter, a run of sharps or of flats, and the octave if it has one.
None of these begins like the next: an octave begins with a minus or with a digit, which are no
accidentals, and a run ends where they begin.  So a name says where each of its parts ends, and it
is read as the pitch that was written.  A name has neither spaces nor colons, so that as a tonic
in front of a type of scale it ends at the first of them.
-/
import CyclePatterns.Proofs.Text.Fractions
import CyclePatterns.Theory.Scale

namespace CyclePatterns

open Notation.Written (Decimal isDigit_ne isDigit_not_blank)
open Text (Blank isBlank trim trimBack)

namespace Pitch

variable {c : Char} {p : Pitch} {octave : Option Int32} {rest : List Char}

/-! ### Octaves -/

/-- The octave as the name of a pitch ends with it. -/
def octaveChars : Option Int32 → List Char
  | some o => (Text.integer o.toInt).toList
  | none => []

theorem mem_octaveChars (h : c ∈ octaveChars octave) : c = '-' ∨ c.isDigit = true := by
  cases octave with
  | none => exact absurd h List.not_mem_nil
  | some o =>
      rw [octaveChars, ← Decimal.chars_ofInt] at h
      exact Decimal.mem_ofInt h

theorem octave?_octaveChars (octave : Option Int32) :
    octave? (octaveChars octave) = some octave := by
  cases octave with
  | none => rfl
  | some o =>
      have hsigned := Decimal.signedDigits?_ofInt o.toInt
      rw [Decimal.chars_ofInt] at hsigned
      have hnarrow : narrow o.toInt = some o := narrow_eq_some_iff.mpr rfl
      unfold octave?
      split
      next hempty =>
        rw [octaveChars] at hempty
        rw [hempty] at hsigned
        cases hsigned
      next hplus =>
        rcases mem_octaveChars (hplus ▸ List.mem_cons_self) with h | h
        · exact absurd h (by decide)
        · exact absurd h (by decide)
      next =>
        rw [octaveChars, hsigned]
        simp only [Option.bind_eq_bind, Option.bind_some, hnarrow]
        rfl

/-! ### Accidentals -/

/-- A run of one accidental is taken as a whole, and nothing of what follows it. -/
theorem accidentals_replicate {a : Int} (hc : accidental? c = some a)
    (hrest : ∀ d ∈ rest.head?, accidental? d = none) (n : Nat) :
    accidentals (List.replicate n c ++ rest) = (a * n, rest) := by
  have hhead : ∀ d ∈ rest.head?, (d == c) = false := by
    intro d hd
    rw [beq_eq_false_iff_ne]
    rintro rfl
    exact absurd (hc.symm.trans (hrest d hd)) (Option.some_ne_none a)
  cases n with
  | zero =>
      -- Without a run it is what follows that is looked at, and that is no accidental.
      rw [List.replicate_zero, List.nil_append, Nat.cast_zero, mul_zero]
      cases rest with
      | nil => rfl
      | cons d r => rw [accidentals, hrest d rfl]
  | succ n =>
      have hrun : ∀ d ∈ List.replicate (n + 1) c, (d == c) = true :=
        fun d hd => beq_iff_eq.mpr (List.eq_of_mem_replicate hd)
      rw [List.replicate_succ, List.cons_append, accidentals, hc, ← List.cons_append,
        ← List.replicate_succ]
      simp only [List.takeWhile_append_of_pos hrun, List.dropWhile_append_of_pos hrun,
        Text.takeWhile_of_head? hhead, Text.dropWhile_of_head? hhead, List.append_nil,
        List.length_replicate]

/-- The sign of the accidentals that an alteration is written with. -/
def accidentalChar (alteration : Int) : Char :=
  if 0 ≤ alteration then '#' else 'b'

theorem accidentals_written (alteration : Int)
    (hrest : ∀ d ∈ rest.head?, accidental? d = none) :
    accidentals (List.replicate alteration.natAbs (accidentalChar alteration) ++ rest)
      = (alteration, rest) := by
  rw [accidentalChar]
  split
  · rw [accidentals_replicate (a := 1) rfl hrest, one_mul, Int.natAbs_of_nonneg ‹_›]
  · rw [accidentals_replicate (a := -1) rfl hrest]
    congr 1
    omega

theorem accidental?_octaveChars : ∀ d ∈ (octaveChars octave).head?, accidental? d = none := by
  intro d hd
  have hmem : d ∈ octaveChars octave := List.mem_of_mem_head? hd
  unfold accidental?
  split
  · rcases mem_octaveChars hmem with h | h <;> exact absurd h (by decide)
  · rcases mem_octaveChars hmem with h | h <;> exact absurd h (by decide)
  · rcases mem_octaveChars hmem with h | h <;> exact absurd h (by decide)
  · rfl

/-! ### Names -/

theorem toList_name (p : Pitch) :
    p.name.toList = p.letter.toChar ::
      (List.replicate p.alteration.toInt.natAbs (accidentalChar p.alteration.toInt)
        ++ octaveChars p.octave) := by
  rw [name, String.toList_append, String.toList_ofList, List.cons_append]
  cases p.octave <;> rfl

/-- What a name is made of: none of it is white space or a colon. -/
theorem solid_name (h : c ∈ p.name.toList) : isBlank c = false ∧ c ≠ ' ' ∧ c ≠ ':' := by
  rw [toList_name, List.mem_cons, List.mem_append] at h
  rcases h with rfl | h | h
  · cases p.letter <;> decide
  · rw [List.eq_of_mem_replicate h, accidentalChar]
    split <;> decide
  · rcases mem_octaveChars h with rfl | hdigit
    · decide
    · exact ⟨isDigit_not_blank hdigit, isDigit_ne hdigit rfl, isDigit_ne hdigit rfl⟩

theorem ofChars?_name (p : Pitch) : ofChars? p.name.toList = some p := by
  have htrim : trim p.name.toList = p.name.toList :=
    Text.trim_eq_self fun _ hc => (solid_name hc).1
  have hletter : Letter.ofChar? p.letter.toChar = some p.letter := by
    cases p.letter <;> rfl
  have hhead : ∀ d ∈ (octaveChars p.octave).head?, accidental? d = none := accidental?_octaveChars
  have haccidentals := accidentals_written p.alteration.toInt hhead
  rw [toList_name] at htrim ⊢
  rw [ofChars?, htrim]
  simp only [hletter, haccidentals, octave?_octaveChars, Option.bind_eq_bind, Option.bind_some,
    Int32.ofInt_toInt]
  rfl

/-- The name of a pitch is read as that pitch. -/
theorem ofText_name (p : Pitch) : ofText p.name = .ok p := by
  rw [ofText, ofChars?_name]

end Pitch

namespace Scale

variable {cs front back : List Char}

/-! ### Where a tonic ends -/

/-- The character does not end a tonic. -/
def Inner (c : Char) : Bool :=
  !(c = ' ' || c = ':')

/-- A text as a tonic and what comes behind the character that ends it. -/
theorem split?_eq (cs : List Char) :
    (split? cs).getD (cs, []) = (cs.takeWhile Inner, (cs.dropWhile Inner).tail) := by
  induction cs with
  | nil => rfl
  | cons c cs ih =>
      rw [split?, List.takeWhile_cons, List.dropWhile_cons]
      by_cases hc : (c = ' ' || c = ':') = true
      · rw [if_pos hc, Inner, hc]
        rfl
      · rw [if_neg hc, Inner, Bool.eq_false_iff.mpr hc]
        cases hsplit : split? cs with
        | none =>
            rw [hsplit] at ih
            obtain ⟨hfront, hback⟩ := Prod.mk.inj ih
            exact Prod.ext (congrArg (c :: ·) hfront) hback
        | some entry =>
            rw [hsplit] at ih
            obtain ⟨hfront, hback⟩ := Prod.mk.inj ih
            exact Prod.ext (congrArg (c :: ·) hfront) hback

theorem takeWhile_inner_name (p : Pitch) (cs : List Char) :
    (p.name.toList ++ cs).takeWhile Inner = p.name.toList ++ cs.takeWhile Inner :=
  List.takeWhile_append_of_pos fun c hc => by simp [Inner, (Pitch.solid_name hc).2]

theorem dropWhile_inner_name (p : Pitch) (cs : List Char) :
    (p.name.toList ++ cs).dropWhile Inner = cs.dropWhile Inner :=
  List.dropWhile_append_of_pos fun c hc => by simp [Inner, (Pitch.solid_name hc).2]

/-- A separator ends the tonic, also if it is the space that trimming takes away. -/
theorem behind_separator {sep : Char} (hsep : Inner sep = false) (rest : List Char) :
    (trimBack (sep :: rest)).takeWhile Inner = [] ∧
      trim ((trimBack (sep :: rest)).dropWhile Inner).tail = trim rest := by
  -- The separator is at the end if nothing but white space is behind it.
  have hback : trimBack (sep :: rest)
      = if trimBack rest = [] then trimBack [sep] else sep :: trimBack rest :=
    Text.trimBack_append [sep] rest
  rw [hback, ← Text.trim_trimBack rest]
  split
  · rename_i hrest
    rw [hrest]
    by_cases hblank : isBlank sep = true
    · rw [Text.trimBack_eq_nil_iff.mpr (List.forall_mem_singleton.mpr hblank)]
      exact ⟨rfl, rfl⟩
    · have hkept : trimBack [sep] = [sep] := by
        rw [trimBack, List.reverse_singleton, List.dropWhile_cons, if_neg hblank]
        rfl
      rw [hkept, List.takeWhile_cons, List.dropWhile_cons, hsep]
      exact ⟨rfl, rfl⟩
  · rw [List.takeWhile_cons, List.dropWhile_cons, hsep]
    exact ⟨rfl, rfl⟩

/-! ### Tonics -/

theorem tokenize_of_front {name : String} {tonic : Pitch}
    (h : Pitch.ofChars? ((trim name.toList).takeWhile Inner) = some tonic) :
    tokenize name =
      (some tonic, String.ofList (trim ((trim name.toList).dropWhile Inner).tail)) := by
  simp only [tokenize, split?_eq, h]

/-- A name that does not begin with a pitch is all type. -/
theorem tokenize_refused {name : String} {e : TheoryError}
    (h : Pitch.ofText (String.ofList ((trim name.toList).takeWhile Inner)) = .error e) :
    tokenize name = (none, String.ofList (trim name.toList)) := by
  rw [Pitch.ofText, String.toList_ofList] at h
  cases hfront : Pitch.ofChars? ((trim name.toList).takeWhile Inner) with
  | none => simp only [tokenize, split?_eq, hfront]
  | some p =>
      rw [hfront] at h
      cases h

/-- A pitch in front of a separator is the tonic, and the rest without the white space around it
is the type. -/
theorem tokenize_written (p : Pitch) {sep : Char} (hsep : Inner sep = false) {type : String}
    (htype : trim type.toList = type.toList) {before after : List Char} (hbefore : Blank before)
    (hafter : Blank after) :
    tokenize (p.name ++ String.ofList (sep :: before) ++ type ++ String.ofList after)
      = (some p, type) := by
  have hname : p.name.toList ≠ [] := by
    rw [Pitch.toList_name]
    exact List.cons_ne_nil _ _
  have hbare : Text.Bare p.name.toList :=
    Text.bare_of_trim_eq (Text.trim_eq_self fun _ hc => (Pitch.solid_name hc).1)
  have hchars : (p.name ++ String.ofList (sep :: before) ++ type ++ String.ofList after).toList
      = p.name.toList ++ sep :: (before ++ type.toList ++ after) := by
    simp only [String.toList_append, String.toList_ofList, List.append_assoc, List.cons_append]
  have htrim : trim (p.name ++ String.ofList (sep :: before) ++ type ++ String.ofList after).toList
      = p.name.toList ++ trimBack (sep :: (before ++ type.toList ++ after)) := by
    rw [hchars, hbare.trim_append hname]
  obtain ⟨hfront, hback⟩ := behind_separator hsep (before ++ type.toList ++ after)
  have htonic : Pitch.ofChars? ((trim (p.name ++ String.ofList (sep :: before) ++ type
      ++ String.ofList after).toList).takeWhile Inner) = some p := by
    rw [htrim, takeWhile_inner_name, hfront, List.append_nil, Pitch.ofChars?_name]
  rw [tokenize_of_front htonic, htrim, dropWhile_inner_name, hback,
    Text.trim_surrounded hbefore hafter, htype, String.ofList_toList]

/-- **What is written of pitches and scales is read again.**  The name of a pitch is read as that
pitch, also in front of a type of scale, and a text that does not begin with a pitch is left to be
a type. -/
theorem names_read_back :
    (∀ p : Pitch, Pitch.ofText p.name = .ok p) ∧
      (∀ (p : Pitch) (sep : Char) (type : String) (before after : List Char),
        sep = ' ' ∨ sep = ':' → trim type.toList = type.toList → Blank before → Blank after →
          tokenize (p.name ++ String.ofList (sep :: before) ++ type ++ String.ofList after)
            = (some p, type)) ∧
      ∀ (name : String) (e : TheoryError),
        Pitch.ofText (String.ofList ((trim name.toList).takeWhile Inner)) = .error e →
          tokenize name = (none, String.ofList (trim name.toList)) := by
  refine ⟨Pitch.ofText_name, fun p sep type before after hsep htype hbefore hafter => ?_,
    fun name e h => tokenize_refused h⟩
  have hinner : Inner sep = false := by
    rcases hsep with rfl | rfl <;> rfl
  exact tokenize_written p hinner htype hbefore hafter

/-- A scale on B flat, and a type without a tonic that begins like a pitch. -/
theorem names_read_back_b_flat :
    Pitch.ofText "Bb-1" = .ok ⟨.b, -1, some (-1)⟩ ∧
      tokenize "Bb-1: har minor " = (some ⟨.b, -1, some (-1)⟩, "har minor") ∧
      tokenize " blues" = (none, "blues") :=
  ⟨names_read_back.1 ⟨.b, -1, some (-1)⟩,
    names_read_back.2.1 ⟨.b, -1, some (-1)⟩ ':' "har minor" [' '] [' '] (by decide) (by decide)
      (by decide) (by decide),
    names_read_back.2.2 " blues" (.invalidNote "blues") (by decide)⟩

end Scale

end CyclePatterns

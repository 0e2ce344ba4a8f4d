/-
Fractions that are written as JSON and read again.

A fraction is written as a string, which holds its text.  So it is read back exactly, from a value
in memory as from a JSON text, and at any depth.
-/
import CyclePatterns.Json.FractionReader
import CyclePatterns.Proofs.Json.Strings
import CyclePatterns.Proofs.Text.Fractions

namespace CyclePatterns

open Json (Document Draft ReadError Room readFraction)
open Notation.Written (Digits Sign)
open Text (Blank)

namespace Json

theorem readFraction_string (room : Room) {s : String} {x : Rat}
    (h : Fraction.ofText? s = some x) : readFraction room (.string (.clean s)) = .ok x := by
  rw [readFraction]
  simp only [Token.clean, Read.ofFault, Except.mapError, bind, Except.bind, h]
  rfl

/-- **A written fraction is read as what it is.** -/
theorem readFraction_ofFraction (room : Room) (x : Rat) :
    readFraction room (Draft.ofJson (ofFraction x)) = .ok x :=
  readFraction_string room (Fraction.ofText?_text x)

theorem read_compact_ofFraction (x : Rat) :
    (Document.ofText (compact (ofFraction x))).read .fault readFraction = .ok x := by
  have hread := readFraction_string Room.ofText (Fraction.ofText?_text x)
  rw [ofFraction, compact, ofText_stringText, Document.read]
  simp only [hread]
  rfl

end Json

namespace Fraction

/-- **Fractions are written and read exactly.**  What is written of a fraction is read as that
fraction, with white space around it and around its slash, and as JSON; it is in lowest terms, so
that no two fractions have one text.  A decimal is read as the number that its digits and its sign
say, whatever is in front of its point. -/
theorem written_and_read_exactly :
    (∀ (x : Rat) (before after left right : List Char),
        Blank before → Blank after → Blank left → Blank right →
          ofText? (String.ofList (before ++ spread left right (text x).toList ++ after))
            = some x) ∧
      (∀ (x : Rat) (room : Room), readFraction room (Draft.ofJson (Json.ofFraction x)) = .ok x ∧
        (Document.ofText (Json.compact (Json.ofFraction x))).read .fault readFraction = .ok x) ∧
      (∀ x : Rat, ∃ (n : Int) (d : Nat), 0 < d ∧ n.natAbs.Coprime d ∧ x = n / d ∧
        text x = if d = 1 then Text.integer n
          else Text.integer n ++ "/" ++ Text.natural d) ∧
      (∀ x y : Rat, text x = text y ↔ x = y) ∧
      ∀ (s : Sign) (w f : List Char), (∀ c ∈ w, c.isDigit = true) → (∀ c ∈ f, c.isDigit = true) →
        f ≠ [] → ofText? (String.ofList (s.chars ++ w ++ '.' :: f))
          = some (s.apply (((Nat.ofDigitChars 10 w 0 : Nat) * 10 ^ f.length
              + (Nat.ofDigitChars 10 f 0 : Nat)) / 10 ^ f.length)) := by
  refine ⟨fun x before after left right hbefore hafter hleft hright => ?_,
    fun x room => ⟨Json.readFraction_ofFraction room x, Json.read_compact_ofFraction x⟩,
    fun x => ⟨x.num, x.den, x.den_pos, x.reduced, (Rat.num_div_den x).symm, rfl⟩,
    fun x y => text_inj, fun s w f hw hf hne => ?_⟩
  · rw [ofText?, String.toList_ofList]
    exact ofChars?_spread_text x hbefore hleft hright hafter
  · rw [ofText?, String.toList_ofList]
    exact ofChars?_decimal s hw ⟨f, hne, hf⟩

/-- Three halves below zero with white space, and a half below zero that has no digit in front of
its point. -/
theorem written_and_read_exactly_below_zero :
    ofText? " -3 / 2 " = some (-3 / 2) ∧ ofText? "-.50" = some (-(50 / 100)) := by
  constructor
  · have hread := written_and_read_exactly.1 (-3 / 2) [' '] [' '] [' '] [' '] (by decide)
      (by decide) (by decide) (by decide)
    have hchars : String.ofList ([' '] ++ spread [' '] [' '] (text (-3 / 2)).toList ++ [' '])
        = " -3 / 2 " := by
      decide +kernel
    rwa [hchars] at hread
  · have hread := written_and_read_exactly.2.2.2.2 .minus [] ['5', '0'] nofun
      (List.all_eq_true.mp rfl) (by decide)
    refine hread.trans ?_
    decide +kernel

end Fraction

end CyclePatterns

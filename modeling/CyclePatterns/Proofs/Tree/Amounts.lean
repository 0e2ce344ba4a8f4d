/-
Integers as amounts and weights.

A tree has fractions in three places: as the amount of a stretch, as the amount of an operator and
as a weight.  Each is read by the one reader of fractions, so an integer of 64 bits in any of these
places is the integer that it spells, or it is refused.
-/
import CyclePatterns.Proofs.Json.Integers
import CyclePatterns.Tree.Form

namespace CyclePatterns

open Json (Document Draft Ends IntegerLiteral Read ReadError Room isSpace readFraction valueDraft)
open Notation.Written (Digits)

variable {n : IntegerLiteral}

/-- The amount of a stretch; its arguments are values already. -/
theorem Sketch.amount_number (n : IntegerLiteral) {arguments : List (String × Json)}
    (h : Entries.get? "amount" arguments = some (.number n.number)) :
    Sketch.amount arguments =
      if int64Max < n.value then .error (.invalidAmount (some (.reason "integer out of range")))
      else .ok n.value := by
  have hread : readFraction none (Draft.ofJson (.number n.number)) = n.reading :=
    n.readFraction_number none
  rw [IntegerLiteral.reading] at hread
  rw [Sketch.amount]
  simp only [h, hread]
  by_cases hrange : int64Max < n.value
  · rw [if_pos hrange, if_pos hrange]
    rfl
  · rw [if_neg hrange, if_neg hrange]

theorem Operator.entry_amount (room : Room) (n : IntegerLiteral) :
    Operator.argumentsRecord.entry room none "amount" (.number (.clean n.number))
      = n.reading.map fun x => some (some x) := by
  show (readFraction room (.number (.clean n.number)) |>.map some |>.map some) >>= pure = _
  rw [n.readFraction_number room]
  cases n.reading <;> rfl

theorem Options.takeUp_weight (room : Room) (n : IntegerLiteral) {s : Options.Entry}
    (h : s.weight = none) :
    Options.takeUp room s "weight" (.number (.clean n.number))
      = n.reading.map fun x => { s with weight := some (some x) } := by
  show (Json.readOnce "weight" s.weight (readFraction room (.number (.clean n.number)) |>.map some))
    >>= (fun v => pure { s with weight := v }) = _
  rw [h, n.readFraction_number room]
  cases n.reading <;> rfl

namespace Json.IntegerLiteral

/-- **An integer of 64 bits is read as a fraction exactly, or not at all.**  It is found wherever
it stands in a text, and read alike as a text of its own, as the amount of a stretch or of an
operator and as a weight.  A longer one is read as what the shortest text of a double says. -/
theorem read_exactly_or_refused (n : IntegerLiteral) :
    (n.Fits →
      (∀ before after : List Char, (∀ b ∈ before, isSpace b = true) →
        (∀ a ∈ after, isSpace a = true) →
          (Document.ofText (String.ofList (before ++ (n.chars ++ after)))).read .fault readFraction
            = n.reading) ∧
      (∀ (fuel : Nat) (before rest : List Char), (∀ b ∈ before, isSpace b = true) → Ends rest →
        valueDraft (fuel + 1) (before ++ (n.chars ++ rest))
          = (.number (.clean n.number), some rest)) ∧
      (∀ room : Room, (Draft.number (.clean n.number)).toJson room = .ok (.number n.number) ∧
        readFraction room (.number (.clean n.number)) = n.reading ∧
        Operator.argumentsRecord.entry room none "amount" (.number (.clean n.number))
          = n.reading.map (fun x => some (some x)) ∧
        ∀ s : Options.Entry, s.weight = none →
          Options.takeUp room s "weight" (.number (.clean n.number))
            = n.reading.map fun x => { s with weight := some (some x) }) ∧
      ∀ arguments : List (String × Json),
        Entries.get? "amount" arguments = some (.number n.number) →
          Sketch.amount arguments =
            if int64Max < n.value then
              .error (.invalidAmount (some (.reason "integer out of range")))
            else .ok n.value) ∧
    (¬ n.Fits → ∃ x : Option Binary64, ∀ (room : Room) (rest : List Char), Ends rest →
      readFraction room (.number (Literal.token (n.chars ++ rest)).1)
        = x.elim (.error (.fault .malformed)) fun x => fractionOfNumber (.float x)) :=
  ⟨fun h => ⟨fun _ _ hbefore hafter => read_ofText h hbefore hafter,
      fun fuel _ _ hbefore hrest => valueDraft_append h hrest hbefore fuel,
      fun room => ⟨rfl, n.readFraction_number room, Operator.entry_amount room n,
        fun _ hweight => Options.takeUp_weight room n hweight⟩,
      fun _ hamount => Sketch.amount_number n hamount⟩,
    exists_readFraction_of_not_fits⟩

/-- The least integer with a sign is read, and the greatest without one is refused. -/
theorem read_exactly_or_refused_ends :
    (Document.ofText "-9223372036854775808").read .fault readFraction
        = .ok (-9223372036854775808) ∧
      (Document.ofText " 18446744073709551615 ").read .fault readFraction
        = .error (.shape (.reason "integer out of range")) := by
  constructor
  · let n : IntegerLiteral :=
      ⟨true, ⟨"9223372036854775808".toList, by decide, List.all_eq_true.mp rfl⟩, by decide⟩
    have hread := ((read_exactly_or_refused n).1 (by decide)).1 [] [] nofun nofun
    exact hread
  · let n : IntegerLiteral :=
      ⟨false, ⟨"18446744073709551615".toList, by decide, List.all_eq_true.mp rfl⟩, by decide⟩
    have hread := ((read_exactly_or_refused n).1 (by decide)).1 [' '] [' ']
      (List.all_eq_true.mp rfl) (List.all_eq_true.mp rfl)
    exact hread

/-- One more than that is read, too, but not exactly. -/
theorem read_beyond_word :
    (Document.ofText "18446744073709551616").read .fault readFraction
        = .ok 18446744073709552000 ∧
      (18446744073709552000 : Rat) ≠ 18446744073709551616 := by
  decide +kernel

end Json.IntegerLiteral

end CyclePatterns

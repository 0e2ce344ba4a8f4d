/-
Compilations that answer alike.

Two slots or two patterns in which everything is related stay related, whatever the relation,
as long as it is one between answers that lasts.
-/
import CyclePatterns.Proofs.Compile.Walk
import CyclePatterns.Proofs.Pattern.Related

namespace CyclePatterns.Compilation

variable {L : List (Hap Value) → List (Hap Value) → Prop} (hL : Lasting L)

include hL

/-- The same options do the same to both. -/
theorem related_slot {c d : Compilation} (h : c.pattern.Related L d.pattern)
    (options : Option Options) :
    (slot options (.ok c)).pattern.Related L (slot options (.ok d)).pattern := by
  simp only [slot]
  rcases Score.decorated_cases options with ⟨e, he⟩ | ⟨found, he⟩ | ⟨amount, found, -, he⟩
  · rw [he, he]
    exact Pattern.related_silence hL
  · rw [he, he]
    exact h
  · rw [he, he]
    exact h.slow hL amount

theorem related_combine (alignment : Alignment) {slots slots' : List Compilation}
    (h : List.Forall₂ (fun c d => c.pattern.Related L d.pattern) slots slots') :
    (combine alignment slots).pattern.Related L (combine alignment slots').pattern := by
  have hpatterns : List.Forall₂ (Pattern.Related L) (slots.map (·.pattern))
      (slots'.map (·.pattern)) := by
    rw [List.forall₂_map_left_iff, List.forall₂_map_right_iff]
    exact h
  cases alignment with
  | horizontal => exact Pattern.related_fastcat hL hpatterns
  | vertical => exact Pattern.related_stack hL hpatterns

end CyclePatterns.Compilation

/-
Answers in order of time.

The answer for a cycle is the answer for its span, put in order of where the parts start.
The sorting is stable, so leaving haps out before it or after it makes no difference, and
haps that are found in order stay as they are.
-/
import CyclePatterns.Pattern.Query
import Mathlib.Algebra.Order.Field.Rat
import Mathlib.Data.List.Basic

namespace CyclePatterns

variable {ρ α : Type}

/-! ### Stable sorting -/

/-- A list that falls into a front with a property and a back without it falls so in one
way only. -/
theorem filter_append_eq_left {q : α → Bool} {l₁ l₂ : List α} (h₁ : ∀ a ∈ l₁, q a = true)
    (h₂ : ∀ a ∈ l₂, q a = false) : (l₁ ++ l₂).filter q = l₁ := by
  rw [List.filter_append, List.filter_eq_self.mpr h₁, List.filter_eq_nil_iff.mpr, List.append_nil]
  exact fun a ha => Bool.eq_false_iff.mp (h₂ a ha)

section Sorting

variable {le : α → α → Bool} (trans : ∀ a b c, le a b = true → le b c = true → le a c = true)
  (total : ∀ a b, (le a b || le b a) = true)

include trans total

/-- What stands behind an element in a sorted list is not smaller. -/
theorem le_of_mergeSort_eq {a : α} {l l₁ l₂ : List α} (h : l.mergeSort le = l₁ ++ a :: l₂) :
    ∀ b ∈ l₂, le a b = true := by
  have hsorted := List.pairwise_mergeSort trans total l
  rw [h, List.pairwise_append, List.pairwise_cons] at hsorted
  exact hsorted.2.1.1

/-- Elements can be left out before sorting as well as after it. -/
theorem filter_mergeSort (keep : α → Bool) (l : List α) :
    (l.mergeSort le).filter keep = (l.filter keep).mergeSort le := by
  induction l with
  | nil => simp
  | cons a l ih =>
      obtain ⟨l₁, l₂, hcons, hl, hless⟩ := List.mergeSort_cons trans total a l
      rw [hl, List.filter_append] at ih
      by_cases ha : keep a = true
      · obtain ⟨k₁, k₂, hkcons, hk, hkless⟩ := List.mergeSort_cons trans total a (l.filter keep)
        -- The element goes in front of all that is not smaller, and that fixes its place.
        have hmore : ∀ b ∈ l₂, (!le a b) = false := fun b hb => by
          rw [le_of_mergeSort_eq trans total hcons b hb, Bool.not_true]
        have hkmore : ∀ b ∈ k₂, (!le a b) = false := fun b hb => by
          rw [le_of_mergeSort_eq trans total hkcons b hb, Bool.not_true]
        have hsame : l₁.filter keep ++ l₂.filter keep = k₁ ++ k₂ := ih.trans hk
        have hfront : l₁.filter keep = k₁ := by
          rw [← filter_append_eq_left hkless hkmore, ← hsame]
          exact (filter_append_eq_left (fun b hb => hless b (List.mem_filter.mp hb).1)
            fun b hb => hmore b (List.mem_filter.mp hb).1).symm
        have hback : l₂.filter keep = k₂ := List.append_cancel_left (hfront ▸ hsame)
        rw [List.filter_cons_of_pos ha, hkcons, hcons, List.filter_append,
          List.filter_cons_of_pos ha, hfront, hback]
      · rw [List.filter_cons_of_neg ha, ← ih, hcons, List.filter_append,
          List.filter_cons_of_neg ha]

end Sorting

/-! ### The answer to a question -/

namespace Query

theorem startsBefore_trans (h k l : Hap α) (hhk : decide (h.part.start ≤ k.part.start) = true)
    (hkl : decide (k.part.start ≤ l.part.start) = true) :
    decide (h.part.start ≤ l.part.start) = true :=
  decide_eq_true (le_trans (of_decide_eq_true hhk) (of_decide_eq_true hkl))

theorem startsBefore_total (h k : Hap α) :
    (decide (h.part.start ≤ k.part.start) || decide (k.part.start ≤ h.part.start)) = true := by
  rw [Bool.or_eq_true, decide_eq_true_iff, decide_eq_true_iff]
  exact le_total _ _

/-- The answer is in order of the starts of the parts, if a cycle is asked for. -/
def arrange (q : Query) (hs : List (Hap α)) : List (Hap α) :=
  match q with
  | cycle _ => hs.mergeSort fun h k => h.part.start ≤ k.part.start
  | arc _ => hs

theorem haps_eq_arrange (q : Query) (p : Pattern ρ α) : q.haps p = q.arrange (p.query q.span) := by
  cases q <;> rfl

/-- Haps can be left out of the answer or of what is found. -/
theorem filter_arrange (q : Query) (keep : Hap α → Bool) (hs : List (Hap α)) :
    (q.arrange hs).filter keep = q.arrange (hs.filter keep) := by
  cases q with
  | cycle c => exact filter_mergeSort startsBefore_trans startsBefore_total keep hs
  | arc s => rfl

/-- Haps that are found in order of time stay as they are. -/
theorem arrange_of_pairwise (q : Query) {hs : List (Hap α)}
    (h : hs.Pairwise fun h k => h.part.start ≤ k.part.start) : q.arrange hs = hs := by
  cases q with
  | cycle c => exact List.mergeSort_of_pairwise (h.imp decide_eq_true)
  | arc s => rfl

end Query

end CyclePatterns

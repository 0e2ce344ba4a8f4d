/-
Answers with fewer haps.

That one answer is left of another when haps are taken out is a relation that lasts.  Which haps
are taken out may depend on where they stand and not on what they are, so a hap is marked before
the answers are put in order of time: the marks go along with the haps.
-/
import CyclePatterns.Proofs.Pattern.Answer
import CyclePatterns.Proofs.Pattern.Related

namespace CyclePatterns

variable {ρ α : Type}

/-- To take haps out is a relation between answers that lasts. -/
theorem lasting_sublist : Lasting (List.Sublist : List (Hap α) → List (Hap α) → Prop) where
  nil := List.Sublist.refl []
  append := List.Sublist.append
  moved := fun _ _ _ h => h.map _

/-- What is left of a list is what is marked in it. -/
theorem exists_marked {l l' : List α} (h : l.Sublist l') :
    ∃ marked : List (α × Bool), marked.map Prod.fst = l' ∧
      (marked.filter Prod.snd).map Prod.fst = l := by
  induction h with
  | slnil => exact ⟨[], rfl, rfl⟩
  | cons a h ih =>
      obtain ⟨marked, rfl, rfl⟩ := ih
      exact ⟨(a, false) :: marked, rfl, rfl⟩
  | cons_cons a h ih =>
      obtain ⟨marked, rfl, rfl⟩ := ih
      exact ⟨(a, true) :: marked, rfl, rfl⟩

/-- Elements can be taken out before sorting: the others stay in the order that they are
sorted into. -/
theorem mergeSort_sublist {le : α → α → Bool}
    (trans : ∀ a b c, le a b = true → le b c = true → le a c = true)
    (total : ∀ a b, (le a b || le b a) = true) {l l' : List α} (h : l.Sublist l') :
    (l.mergeSort le).Sublist (l'.mergeSort le) := by
  obtain ⟨marked, rfl, rfl⟩ := exists_marked h
  let before (a b : α × Bool) : Bool := le a.1 b.1
  have hsort (ms : List (α × Bool)) :
      (ms.map Prod.fst).mergeSort le = (ms.mergeSort before).map Prod.fst := by
    refine (List.map_mergeSort fun a _ b _ => ?_).symm
    rfl
  rw [hsort, hsort, ← filter_mergeSort (fun a b c => trans a.1 b.1 c.1)
    (fun a b => total a.1 b.1) Prod.snd marked]
  exact List.filter_sublist.map _

namespace Query

/-- A pattern that finds fewer haps gives fewer haps in answer. -/
theorem haps_sublist (q : Query) {p p' : Pattern ρ α} (h : p.Related List.Sublist p') :
    (q.haps p).Sublist (q.haps p') := by
  rw [haps_eq_arrange, haps_eq_arrange]
  cases q with
  | cycle c => exact mergeSort_sublist startsBefore_trans startsBefore_total (h _)
  | arc s => exact h s

end Query

end CyclePatterns

/-
Haps at the same times.

Two haps are alike if they stand at the same times and what they carry, a value and the place
it comes from, is related in some way.  Answers are alike hap by hap.  That is a lasting
relation, and putting an answer in order keeps it too, because the order depends on times only.
-/
import CyclePatterns.Proofs.Pattern.Answer
import CyclePatterns.Proofs.Pattern.Related

namespace CyclePatterns

variable {ρ α : Type}

/-- A relation between what two haps carry: a value and a place for each. -/
abbrev CarriedRelation (α : Type) :=
  α → Option SourceSpan → α → Option SourceSpan → Prop

/-- The haps stand at the same times and carry related things. -/
structure Hap.Alike (R : CarriedRelation α) (h k : Hap α) : Prop where
  whole : h.whole = k.whole
  part : h.part = k.part
  carried : R h.value h.source k.value k.source

variable {R : CarriedRelation α}

theorem Hap.Alike.mapSpan {h k : Hap α} (hhk : h.Alike R k) (f : Span → Span) :
    (h.mapSpan f).Alike R (k.mapSpan f) :=
  ⟨congrArg (Option.map f) hhk.whole, congrArg f hhk.part, hhk.carried⟩

theorem Hap.Alike.map {S : CarriedRelation α} {h k : Hap α} (hhk : h.Alike R k) {f g : α → α}
    (hfg : ∀ v place v' place', R v place v' place' → S (f v) place (g v') place') :
    (h.map f).Alike S (k.map g) :=
  ⟨hhk.whole, hhk.part, hfg _ _ _ _ hhk.carried⟩

theorem lasting_alike : Lasting (List.Forall₂ (Hap.Alike R)) where
  nil := .nil
  append := fun h h' => List.rel_append h h'
  moved := by
    intro e hs ks h
    rw [List.forall₂_map_left_iff, List.forall₂_map_right_iff]
    exact h.imp fun _ _ hhk => hhk.mapSpan _

namespace Pattern

theorem related_pure {value value' : α} {source source' : Option SourceSpan}
    (h : R value source value' source') :
    Related (List.Forall₂ (Hap.Alike R)) (Pattern.pure value source : Pattern ρ α)
      (Pattern.pure value' source') := by
  intro s
  refine List.forall₂_map_left_iff.mpr (List.forall₂_map_right_iff.mpr ?_)
  exact List.forall₂_same.mpr fun _ _ => ⟨rfl, rfl, h⟩

end Pattern

/-! ### Answers in order of time -/

namespace Query

/-- Elements that are related in pairs are the two sides of one list of pairs. -/
theorem exists_pairs {β γ : Type} {S : β → γ → Prop} {l : List β} {l' : List γ}
    (h : List.Forall₂ S l l') :
    ∃ pairs : List (β × γ), (∀ p ∈ pairs, S p.1 p.2) ∧ pairs.map Prod.fst = l ∧
      pairs.map Prod.snd = l' := by
  induction h with
  | nil => exact ⟨[], by simp⟩
  | @cons b c l l' hbc hrest ih =>
      obtain ⟨pairs, hpairs, rfl, rfl⟩ := ih
      exact ⟨(b, c) :: pairs, List.forall_mem_cons.mpr ⟨hbc, hpairs⟩, rfl, rfl⟩

/-- Answers that are alike are put into order in the same way. -/
theorem alike_arrange (q : Query) {hs ks : List (Hap α)} (h : List.Forall₂ (Hap.Alike R) hs ks) :
    List.Forall₂ (Hap.Alike R) (q.arrange hs) (q.arrange ks) := by
  cases q with
  | arc s => exact h
  | cycle c =>
      obtain ⟨pairs, hpairs, rfl, rfl⟩ := exists_pairs h
      let before (p p' : Hap α × Hap α) : Bool := p.1.part.start ≤ p'.1.part.start
      -- Both sides are sorted as the pairs are by the part that their haps have in common.
      have hfst : (pairs.map Prod.fst).mergeSort (fun h k => h.part.start ≤ k.part.start)
          = (pairs.mergeSort before).map Prod.fst := by
        refine (List.map_mergeSort fun p hp p' hp' => ?_).symm
        rfl
      have hsnd : (pairs.map Prod.snd).mergeSort (fun h k => h.part.start ≤ k.part.start)
          = (pairs.mergeSort before).map Prod.snd := by
        refine (List.map_mergeSort fun p hp p' hp' => ?_).symm
        rw [← (hpairs p hp).part, ← (hpairs p' hp').part]
      rw [arrange, arrange, hfst, hsnd, List.forall₂_map_left_iff, List.forall₂_map_right_iff]
      exact List.forall₂_same.mpr fun p hp => hpairs p (List.mem_mergeSort.mp hp)

theorem alike_haps (q : Query) {p p' : Pattern ρ α}
    (h : p.Related (List.Forall₂ (Hap.Alike R)) p') :
    List.Forall₂ (Hap.Alike R) (q.haps p) (q.haps p') := by
  rw [haps_eq_arrange, haps_eq_arrange]
  exact q.alike_arrange (h q.span)

end Query

end CyclePatterns

/-
What haps carry with them.

A hap carries a value and the place that it comes from.  Combining patterns moves haps about
in time but makes none up, so whatever holds of all that the parts carry holds of all that
the whole carries.
-/
import CyclePatterns.Proofs.Pattern.Moved

namespace CyclePatterns.Pattern

variable {ρ α β : Type} {Q : α → Option SourceSpan → Prop}

/-- The value and the place of every hap are so related. -/
def Carries (Q : α → Option SourceSpan → Prop) (p : Pattern ρ α) : Prop :=
  ∀ s, ∀ h ∈ p.query s, Q h.value h.source

theorem Carries.mono {Q' : α → Option SourceSpan → Prop} {p : Pattern ρ α} (hp : p.Carries Q)
    (h : ∀ value source, Q value source → Q' value source) : p.Carries Q' :=
  fun s k hk => h _ _ (hp s k hk)

theorem carries_silence : (silence : Pattern ρ α).Carries Q :=
  fun _ _ h => absurd h List.not_mem_nil

theorem carries_pure {value : α} {source : Option SourceSpan} (h : Q value source) :
    (Pattern.pure value source : Pattern ρ α).Carries Q := by
  intro s k hk
  obtain ⟨piece, -, rfl⟩ := List.mem_map.mp hk
  exact h

theorem Carries.mapReporting {Q' : β → Option SourceSpan → Prop} {p : Pattern ρ α}
    (hp : p.Carries Q) {f : α → β × List ρ}
    (h : ∀ value source, Q value source → Q' (f value).1 source) :
    (p.mapReporting f).Carries Q' := by
  intro s k hk
  obtain ⟨l, hl, rfl⟩ := List.mem_map.mp hk
  exact h _ _ (hp s l hl)

theorem Carries.moved {p : Pattern ρ α} (hp : p.Carries Q) (e : Rat ≃o Rat) :
    (p.moved e).Carries Q := by
  intro s k hk
  rw [query_moved] at hk
  obtain ⟨l, hl, rfl⟩ := List.mem_map.mp hk
  exact hp _ l hl

theorem Carries.fast {p : Pattern ρ α} (hp : p.Carries Q) (a : Rat) : (p.fast a).Carries Q :=
  fast_of_moved carries_silence hp.moved a

theorem Carries.slow {p : Pattern ρ α} (hp : p.Carries Q) (a : Rat) : (p.slow a).Carries Q :=
  slow_of_moved carries_silence hp.moved a

theorem carries_stack {ps : List (Pattern ρ α)} (hps : ∀ p ∈ ps, p.Carries Q) :
    (stack ps).Carries Q := by
  intro s k hk
  obtain ⟨p, hp, hk⟩ := List.mem_flatMap.mp hk
  exact hps p hp s k hk

theorem carries_inCycle {ps : List (Pattern ρ α)} (hps : ∀ p ∈ ps, p.Carries Q) (c : Int) :
    (inCycle ps c).Carries Q :=
  inCycle_of_moved carries_silence (fun _ e hp => hp.moved e) hps c

theorem carries_fastcat {ps : List (Pattern ρ α)} (hps : ∀ p ∈ ps, p.Carries Q) :
    (fastcat ps).Carries Q := by
  unfold fastcat
  split
  · exact hps _ (List.mem_singleton.mpr rfl)
  · refine Carries.fast (fun s k hk => ?_) _
    obtain ⟨piece, -, hk⟩ := List.mem_flatMap.mp hk
    exact carries_inCycle hps _ piece k hk

end CyclePatterns.Pattern

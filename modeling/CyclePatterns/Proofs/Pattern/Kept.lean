/-
Patterns with some haps left out.

`Kept keep p q` says that the pattern `q` answers every query as `p` does, only without the
haps whose places are not to be kept.  All that combines patterns leaves this relation as it
is, because it moves haps in time and never looks at where they come from: leaving haps out is
a relation between answers that lasts.  Where all places are kept, the two patterns have the
same haps.
-/
import CyclePatterns.Proofs.Pattern.Carried
import CyclePatterns.Proofs.Pattern.Order
import CyclePatterns.Proofs.Pattern.Related

namespace CyclePatterns.Pattern

variable {ρ α β : Type} {keep : Option SourceSpan → Bool}

/-- The second pattern has those haps of the first that come from places to be kept. -/
def Kept (keep : Option SourceSpan → Bool) (p q : Pattern ρ α) : Prop :=
  ∀ s, q.query s = p.queryFrom keep s

/-- A pattern with nothing to leave out. -/
theorem Carries.kept {p : Pattern ρ α} (hp : p.Carries fun _ place => keep place = true) :
    Kept keep p p :=
  fun s => (List.filter_eq_self.mpr fun h hh => hp s h hh).symm

/-- A pattern with nothing to be kept. -/
theorem Carries.kept_of_silent {p q : Pattern ρ α}
    (hp : p.Carries fun _ place => keep place = false) (hq : q.Carries fun _ _ => False) :
    Kept keep p q := by
  intro s
  rw [queryFrom, List.filter_eq_nil_iff.mpr fun h hh => Bool.eq_false_iff.mp (hp s h hh)]
  exact List.eq_nil_iff_forall_not_mem.mpr fun h hh => hq s h hh

/-- To leave haps out is a relation between answers that lasts. -/
theorem lasting_kept :
    Lasting fun hs ks : List (Hap α) => ks = hs.filter fun h => keep h.source where
  nil := rfl
  append := by
    rintro hs ks hs' ks' rfl rfl
    exact (List.filter_append _ _).symm
  moved := by
    rintro e hs ks rfl
    rw [List.filter_map]
    rfl

theorem kept_silence : Kept keep (silence : Pattern ρ α) silence :=
  (related_silence (@lasting_kept α keep) :)

theorem Kept.mapReporting {p q : Pattern ρ α} (h : Kept keep p q) (f : α → β × List ρ) :
    Kept keep (p.mapReporting f) (q.mapReporting f) := by
  intro s
  rw [queryFrom_mapReporting, ← h s]
  rfl

theorem Kept.slow {p q : Pattern ρ α} (h : Kept keep p q) (a : Rat) :
    Kept keep (p.slow a) (q.slow a) :=
  (Related.slow (@lasting_kept α keep) h a :)

end CyclePatterns.Pattern

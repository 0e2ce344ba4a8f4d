/-
Two patterns that answer alike.

Whatever combines patterns only moves answers in time and puts them one behind another.  So a
relation between answers that these two keep is kept by all of it, if it holds between the
patterns that are combined, one by one.  Nothing is asked of the relation beyond that: the
answers may differ by what the haps carry, by the places they come from, or by some haps that
only one of them has.
-/
import CyclePatterns.Proofs.Pattern.Moved
import Mathlib.Data.List.Forall2

namespace CyclePatterns

variable {ρ α : Type}

/-- A relation between answers that is kept by putting answers together and by moving them. -/
structure Lasting (L : List (Hap α) → List (Hap α) → Prop) : Prop where
  nil : L [] []
  append : ∀ {hs ks hs' ks' : List (Hap α)}, L hs ks → L hs' ks' → L (hs ++ hs') (ks ++ ks')
  moved : ∀ (e : Rat ≃o Rat) {hs ks : List (Hap α)}, L hs ks →
    L (hs.map (Hap.mapSpan (Span.mapTime e))) (ks.map (Hap.mapSpan (Span.mapTime e)))

variable {L : List (Hap α) → List (Hap α) → Prop}

theorem Lasting.flatMap (hL : Lasting L) {β : Type} {f g : β → List (Hap α)} (l : List β)
    (h : ∀ b ∈ l, L (f b) (g b)) : L (l.flatMap f) (l.flatMap g) := by
  induction l with
  | nil => exact hL.nil
  | cons b l ih =>
      rw [List.flatMap_cons, List.flatMap_cons]
      exact hL.append (h b List.mem_cons_self) (ih fun c hc => h c (List.mem_cons_of_mem b hc))

namespace Pattern

/-- The patterns give related answers to every query. -/
def Related (L : List (Hap α) → List (Hap α) → Prop) (p q : Pattern ρ α) : Prop :=
  ∀ s, L (p.query s) (q.query s)

variable {p q : Pattern ρ α} {ps qs : List (Pattern ρ α)} (hL : Lasting L)

include hL

theorem related_silence : Related L (silence : Pattern ρ α) silence :=
  fun _ => hL.nil

theorem Related.moved (h : Related L p q) (e : Rat ≃o Rat) : Related L (p.moved e) (q.moved e) := by
  intro s
  rw [query_moved, query_moved]
  exact hL.moved e (h _)

theorem Related.fast (h : Related L p q) (a : Rat) : Related L (p.fast a) (q.fast a) := by
  rcases lt_or_ge 0 a with ha | ha
  · rw [fast_eq_moved ha, fast_eq_moved ha]
    exact h.moved hL _
  · rw [fast_of_nonpos ha, fast_of_nonpos ha]
    exact related_silence hL

theorem Related.slow (h : Related L p q) (a : Rat) : Related L (p.slow a) (q.slow a) := by
  rw [slow_eq_fast, slow_eq_fast]
  exact h.fast hL _

theorem related_stack (h : List.Forall₂ (Related L) ps qs) :
    Related L (stack ps) (stack qs) := by
  intro s
  induction h with
  | nil => exact hL.nil
  | cons hpq hrest ih => exact hL.append (hpq s) ih

/-- As many patterns on both sides take turns in the same way. -/
theorem related_inCycle (h : List.Forall₂ (Related L) ps qs) (c : Int) :
    Related L (inCycle ps c) (inCycle qs c) := by
  rw [inCycle, inCycle, later_eq_moved, later_eq_moved, ← h.length_eq]
  refine Related.moved hL ?_ _
  by_cases hturn : turn ps.length c < ps.length
  · have hturn' : turn ps.length c < qs.length := h.length_eq ▸ hturn
    rw [List.getElem?_eq_getElem hturn, List.getElem?_eq_getElem hturn']
    exact List.forall₂_iff_get.mp h |>.2 _ hturn hturn'
  · have hturn' : ¬ turn ps.length c < qs.length := h.length_eq ▸ hturn
    rw [List.getElem?_eq_none (Nat.le_of_not_lt hturn),
      List.getElem?_eq_none (Nat.le_of_not_lt hturn')]
    exact related_silence hL

theorem related_slowcat (h : List.Forall₂ (Related L) ps qs) :
    Related L (slowcat ps) (slowcat qs) := by
  intro s
  exact hL.flatMap _ fun piece _ => related_inCycle hL h _ piece

theorem related_fastcat (h : List.Forall₂ (Related L) ps qs) :
    Related L (fastcat ps) (fastcat qs) := by
  cases h with
  | nil => exact (related_slowcat hL .nil).fast hL _
  | cons hpq hrest =>
      cases hrest with
      | nil => exact hpq
      | cons hpq' hrest =>
          have hall := List.Forall₂.cons hpq (.cons hpq' hrest)
          rw [fastcat, fastcat, hall.length_eq]
          · exact (related_slowcat hL hall).fast hL _
          · simp
          · simp

end Pattern

end CyclePatterns

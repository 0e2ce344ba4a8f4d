/-
The order of entries.

`Entries.ofList` puts entries in the order of their keys.  Where no key is repeated it only
moves them, and it does not matter where they stood before.  Going through the entries of an
object does not depend on their order either, as long as what is done for one key does not
get into the way of what is done for another.
-/
import CyclePatterns.Json.Shape
import CyclePatterns.Proofs.Outcome
import Mathlib.Data.List.Perm.Basic
import Mathlib.Data.List.Nodup
import Mathlib.Data.String.Basic

namespace CyclePatterns

namespace Entries

variable {α : Type} {k k' : String}

/-! ### Putting entries in their places -/

theorem insert_of_lt (h : k < k') (v w : α) (es : List (String × α)) :
    insert k v ((k', w) :: es) = (k, v) :: (k', w) :: es :=
  if_pos h

theorem insert_self (v w : α) (es : List (String × α)) :
    insert k v ((k, w) :: es) = (k, v) :: es := by
  rw [insert, if_neg (lt_irrefl k), if_pos rfl]

theorem insert_of_gt (h : k' < k) (v w : α) (es : List (String × α)) :
    insert k v ((k', w) :: es) = (k', w) :: insert k v es := by
  rw [insert, if_neg (lt_asymm h), if_neg (ne_of_gt h)]

theorem insert_comm_of_lt (h : k < k') (v v' : α) (es : List (String × α)) :
    insert k v (insert k' v' es) = insert k' v' (insert k v es) := by
  induction es with
  | nil =>
      rw [insert, insert, insert_of_lt h, insert_of_gt h]
      rfl
  | cons e es ih =>
      obtain ⟨a, w⟩ := e
      rcases lt_trichotomy k' a with hlt | rfl | hgt
      · rw [insert_of_lt hlt, insert_of_lt (h.trans hlt), insert_of_lt h, insert_of_gt h,
          insert_of_lt hlt]
      · rw [insert_self, insert_of_lt h, insert_of_lt h, insert_of_gt h, insert_self]
      · rw [insert_of_gt hgt]
        rcases lt_trichotomy k a with hlt | rfl | hgt'
        · rw [insert_of_lt hlt, insert_of_lt hlt, insert_of_gt h, insert_of_gt hgt]
        · rw [insert_self, insert_self, insert_of_gt h]
        · rw [insert_of_gt hgt', insert_of_gt hgt', insert_of_gt hgt, ih]

/-- Of two entries with different keys either can be put in first. -/
theorem insert_comm (hne : k ≠ k') (v v' : α) (es : List (String × α)) :
    insert k v (insert k' v' es) = insert k' v' (insert k v es) := by
  rcases lt_or_gt_of_ne hne with hlt | hgt
  · exact insert_comm_of_lt hlt v v' es
  · exact (insert_comm_of_lt hgt v' v es).symm

/-- An entry with a new key takes no other away. -/
theorem perm_insert (v : α) {es : List (String × α)} (h : k ∉ es.map Prod.fst) :
    (insert k v es).Perm ((k, v) :: es) := by
  induction es with
  | nil => exact List.Perm.refl _
  | cons e es ih =>
      obtain ⟨a, w⟩ := e
      rw [List.map_cons, List.mem_cons, not_or] at h
      rcases lt_or_gt_of_ne h.1 with hlt | hgt
      · rw [insert_of_lt hlt]
      · rw [insert_of_gt hgt]
        exact ((ih h.2).cons _).trans (List.Perm.swap _ _ _)

/-! ### All entries in the order of their keys -/

theorem perm_foldl_insert {es before : List (String × α)}
    (h : ((es ++ before).map Prod.fst).Nodup) :
    (es.foldl (fun es (e : String × α) => insert e.1 e.2 es) before).Perm (es ++ before) := by
  induction es generalizing before with
  | nil => exact List.Perm.refl _
  | cons e es ih =>
      have hmoved : (es ++ e :: before).Perm (e :: (es ++ before)) := List.perm_middle
      have hnew : e.1 ∉ before.map Prod.fst := by
        intro hmem
        rw [List.cons_append, List.map_cons, List.map_append] at h
        exact (List.nodup_cons.mp h).1 (List.mem_append_right _ hmem)
      have hinsert : (es ++ insert e.1 e.2 before).Perm (e :: (es ++ before)) :=
        ((perm_insert e.2 hnew).append_left es).trans hmoved
      have hnodup : ((es ++ insert e.1 e.2 before).map Prod.fst).Nodup :=
        (hinsert.map Prod.fst).nodup_iff.mpr h
      exact (ih hnodup).trans hinsert

/-- Entries without repeated keys are only moved. -/
theorem perm_ofList {es : List (String × α)} (h : (es.map Prod.fst).Nodup) :
    (ofList es).Perm es := by
  have happend : ((es ++ []).map Prod.fst).Nodup := by rwa [List.append_nil]
  have hperm := perm_foldl_insert happend
  rwa [List.append_nil] at hperm

/-- It does not matter where entries without repeated keys stood. -/
theorem ofList_congr {es es' : List (String × α)} (hperm : es.Perm es')
    (h : (es.map Prod.fst).Nodup) : ofList es = ofList es' := by
  refine hperm.foldl_eq' (fun e he e' he' before => ?_) []
  by_cases hkey : e.1 = e'.1
  · obtain rfl : e = e' := List.inj_on_of_nodup_map h he he' hkey
    rfl
  · exact insert_comm (Ne.symm hkey) _ _ _

theorem insert_of_forall_lt (v : α) {es : List (String × α)} (h : ∀ e ∈ es, e.1 < k) :
    insert k v es = es ++ [(k, v)] := by
  induction es with
  | nil => rfl
  | cons e es ih =>
      obtain ⟨he, hes⟩ := List.forall_mem_cons.mp h
      rw [insert_of_gt he, ih hes, List.cons_append]

/-- Entries that are in the order of their keys stay where they are. -/
theorem ofList_of_pairwise {es : List (String × α)} (h : (es.map Prod.fst).Pairwise (· < ·)) :
    ofList es = es := by
  have hbehind : ∀ before, ((before ++ es).map Prod.fst).Pairwise (· < ·) →
      es.foldl (fun es (e : String × α) => insert e.1 e.2 es) before = before ++ es := by
    clear h
    induction es with
    | nil => exact fun before _ => (List.append_nil before).symm
    | cons e es ih =>
        intro before h
        have hlast : ∀ e' ∈ before, e'.1 < e.1 := by
          intro e' he'
          rw [List.map_append, List.pairwise_append] at h
          exact h.2.2 _ (List.mem_map_of_mem he') _ (List.mem_map_of_mem List.mem_cons_self)
        rw [List.append_cons] at h
        rw [List.foldl_cons, insert_of_forall_lt _ hlast, ih _ h, List.append_assoc]
        rfl
  exact hbehind [] h

/-- Entries that have been put in order stay in order. -/
theorem ofList_ofList {es : List (String × α)} (h : (es.map Prod.fst).Nodup) :
    ofList (ofList es) = ofList es :=
  ofList_congr (perm_ofList h) (((perm_ofList h).map Prod.fst).nodup_iff.mpr h)

end Entries

end CyclePatterns

/-
Reading objects that have been written.

Whoever writes an object lists its entries in an order of his own, and they are then put in
the order of their keys.  Readers do not mind, so what is read can be followed in the order of
the list: each entry goes into the slot of its field, and an entry that may be missing is
taken up if it is there.
-/
import CyclePatterns.Proofs.Json.Steady

namespace CyclePatterns.Json

/-! ### Entries one by one -/

variable {σ α : Type} {step : σ → String → Draft → Read σ} {s s' : σ}

/-- One entry is taken up and then the others. -/
theorem walk_entry {key : String} {j : Json} (h : step s key (Draft.ofJson j) = .ok s')
    (rest : List (String × Json)) :
    (Fields.ofJson ((key, j) :: rest)).walk step s = (Fields.ofJson rest).walk step s' := by
  rw [Fields.ofJson, Fields.walk]
  show step s key (Draft.ofJson j) >>= _ = _
  rw [h]
  rfl

/-- An entry that may be missing is taken up if it is there. -/
theorem walk_optional {key : String} {x : Option α} {write : α → Json} (s' : σ)
    (hnone : x = none → s' = s)
    (hsome : ∀ a, x = some a → step s key (Draft.ofJson (write a)) = .ok s')
    (rest : List (String × Json)) :
    (Fields.ofJson ((x.map fun a => (key, write a)).toList ++ rest)).walk step s
      = (Fields.ofJson rest).walk step s' := by
  cases x with
  | none =>
      rw [hnone rfl]
      rfl
  | some a => exact walk_entry (hsome a rfl) rest

theorem keys_optional_sublist (key : String) (x : Option α) (write : α → Json) :
    ((x.map fun a => (key, write a)).toList.map Prod.fst).Sublist [key] := by
  cases x with
  | none => exact List.nil_sublist _
  | some a => exact List.Sublist.refl _

/-- It does not matter that entries are written in the order of their keys. -/
theorem Indifferent.walk_ofList (h : Indifferent step) {es : List (String × Json)}
    (hnodup : (es.map Prod.fst).Nodup) (hwalk : (Fields.ofJson es).walk step s = .ok s') :
    (Fields.ofJson (Entries.ofList es)).walk step s = .ok s' := by
  refine ok_of_toOption ?_
  rw [← h.walk_perm (Entries.perm_ofList hnodup).symm hnodup s, hwalk]
  rfl

/-- The entry of a field that can be read goes into its slot. -/
theorem stepOf_field {fields : FieldList σ} {other : Room → σ → String → Draft → Read σ}
    {name : String} {slot : Slot σ α} {read : Room → Draft → Read α} {room : Room} {d : Draft}
    {v : α} (hread : read room d = .ok v) (hempty : slot.get s = none) :
    stepOf (field name slot read :: fields) other room s name d = .ok (slot.set s (some v)) := by
  rw [field, stepOf_cons, if_pos rfl]
  simp only [readOnce, hempty, hread]
  rfl

/-- The entry of another field is left to the fields that follow. -/
theorem stepOf_later {fields : FieldList σ} {other : Room → σ → String → Draft → Read σ}
    {name key : String} {slot : Slot σ α} {read : Room → Draft → Read α} {room : Room} {d : Draft}
    (hne : key ≠ name) : stepOf (field name slot read :: fields) other room s key d
      = stepOf fields other room s key d := by
  rw [field, stepOf_cons, if_neg hne]

/-- A value that may be missing is read where there is one. -/
theorem readOptional_eq_ok {read : Draft → Read α} {j : Json} {a : α}
    (h : read (Draft.ofJson j) = .ok a) (hnull : j ≠ .null) :
    readOptional read (Draft.ofJson j) = .ok (some a) := by
  rw [readOptional_ofJson read hnull, h]
  rfl

/-- A record that is written as an object. -/
theorem Record.Orderly.read_object {r : Record σ} (h : r.Orderly) {es : List (String × Json)}
    (hwalk : (Fields.ofJson es).walk (stepOf r.fields passing none) s = .ok s') :
    r.read s none (Draft.ofJson (.object es)) = .ok s' := by
  refine ok_of_toOption ?_
  rw [Draft.ofJson, Record.toOption_read_object rfl, h.entry_eq, hwalk]
  rfl

/-- A record that is written as an object whose entries have been put in order. -/
theorem Record.Orderly.read_ofList {r : Record σ} (h : r.Orderly) {es : List (String × Json)}
    (hnodup : (es.map Prod.fst).Nodup)
    (hwalk : (Fields.ofJson es).walk (stepOf r.fields passing none) s = .ok s') :
    r.read s none (Draft.ofJson (.object (Entries.ofList es))) = .ok s' :=
  h.read_object ((indifferent_passing h.commute none).walk_ofList hnodup hwalk)

end CyclePatterns.Json

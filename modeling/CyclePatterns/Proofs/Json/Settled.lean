/-
Values as texts spell them, and values that have been read.

A text gives the entries of an object in any order, a value that has been read has them in the
order of their keys.  `Settles` ties the two together for values without repeated keys: an
array settles item by item, and the entries of an object settle one by one and are then put
in order.  A value that has settled stays as it is.
-/
import CyclePatterns.Proofs.Json.Entries
import Mathlib.Data.List.Forall2

namespace CyclePatterns.Json

theorem forall_mem_of_forall₂ {α β : Type} {P : β → Prop} {as : List α} {bs : List β}
    (h : List.Forall₂ (fun _ b => P b) as bs) : ∀ b ∈ bs, P b := by
  induction h with
  | nil => exact fun b hb => absurd hb List.not_mem_nil
  | cons hb _ ih => exact List.forall_mem_cons.mpr ⟨hb, ih⟩

/-- A property of all items and of all entries carries over to a value. -/
theorem induction {motive : Json → Prop} (null : motive .null) (bool : ∀ b, motive (.bool b))
    (number : ∀ n, motive (.number n)) (string : ∀ s, motive (.string s))
    (array : ∀ items, (∀ j ∈ items, motive j) → motive (.array items))
    (object : ∀ entries, (∀ e ∈ entries, motive e.2) → motive (.object entries)) (j : Json) :
    motive j := by
  refine Json.rec (motive_1 := motive) (motive_2 := fun js => ∀ j ∈ js, motive j)
    (motive_3 := fun es => ∀ e ∈ es, motive e.2) (motive_4 := fun e => motive e.2)
    null bool number string array object ?_ ?_ ?_ ?_ ?_ j
  · exact fun j hj => absurd hj List.not_mem_nil
  · exact fun j js hj hjs => List.forall_mem_cons.mpr ⟨hj, hjs⟩
  · exact fun e he => absurd he List.not_mem_nil
  · exact fun e es he hes => List.forall_mem_cons.mpr ⟨he, hes⟩
  · exact fun _ _ h => h

/-! ### Objects that repeat no key -/

/-- The keys of what is left of an object, as far as they can be read. -/
def Fields.keys : Fields → List String
  | .field key _ rest => key.read.toOption.toList ++ rest.keys
  | _ => []

mutual
/-- No object in the draft repeats a key. -/
def Draft.distinct : Draft → Bool
  | .array items => items.distinct
  | .object fields => decide fields.keys.Nodup && fields.distinct
  | _ => true
termination_by structural d => d

/-- No object in what is left of an array repeats a key. -/
def Items.distinct : Items → Bool
  | .item d rest => d.distinct && rest.distinct
  | _ => true
termination_by structural items => items

/-- No object in the values of what is left of an object repeats a key. -/
def Fields.distinct : Fields → Bool
  | .field _ d rest => d.distinct && rest.distinct
  | _ => true
termination_by structural fields => fields
end

theorem keys_ofJson (es : List (String × Json)) : (Fields.ofJson es).keys = es.map Prod.fst := by
  induction es with
  | nil => rfl
  | cons e es ih => exact congrArg (e.1 :: ·) ih

theorem distinct_items_iff (js : List Json) :
    (Items.ofJson js).distinct = true ↔ ∀ j ∈ js, (Draft.ofJson j).distinct = true := by
  induction js with
  | nil => simp [Items.ofJson, Items.distinct]
  | cons j js ih => rw [Items.ofJson, Items.distinct, Bool.and_eq_true, ih, List.forall_mem_cons]

theorem distinct_fields_iff (es : List (String × Json)) :
    (Fields.ofJson es).distinct = true ↔ ∀ e ∈ es, (Draft.ofJson e.2).distinct = true := by
  induction es with
  | nil => simp [Fields.ofJson, Fields.distinct]
  | cons e es ih => rw [Fields.ofJson, Fields.distinct, Bool.and_eq_true, ih, List.forall_mem_cons]

/-! ### What a value settles to -/

/-- Read from a text with so much room, the value is a good one without repeated keys and comes
out as the other. -/
structure Settles (room : Room) (raw j : Json) : Prop where
  distinct : (Draft.ofJson raw).distinct = true
  read : (Draft.ofJson raw).toJson room = .ok j

/-- An entry settles as its value does. -/
def SettlesEntry (room : Room) (e e' : String × Json) : Prop :=
  e'.1 = e.1 ∧ Settles room e.2 e'.2

namespace Settles

variable {room : Room} {raw j : Json}

theorem items {raws js : List Json} (hread : (Items.ofJson raws).toJson room = .ok js)
    (hdistinct : ∀ j ∈ raws, (Draft.ofJson j).distinct = true) :
    List.Forall₂ (Settles room) raws js := by
  induction raws generalizing js with
  | nil =>
      obtain rfl := Except.ok.inj hread
      exact .nil
  | cons raw raws ih =>
      obtain ⟨j, hj, hread⟩ := ok_of_bind_eq_ok hread
      obtain ⟨rest, hrest, hjs⟩ := ok_of_bind_eq_ok hread
      obtain rfl := Except.ok.inj hjs
      obtain ⟨hraw, hraws⟩ := List.forall_mem_cons.mp hdistinct
      exact .cons ⟨hraw, hj⟩ (ih hrest hraws)

theorem entries {raws before es : List (String × Json)}
    (hread : (Fields.ofJson raws).toJson room before = .ok es)
    (hdistinct : ∀ e ∈ raws, (Draft.ofJson e.2).distinct = true) :
    ∃ settled, List.Forall₂ (SettlesEntry room) raws settled ∧
      es = settled.foldl (fun es (e : String × Json) => Entries.insert e.1 e.2 es) before := by
  induction raws generalizing before with
  | nil => exact ⟨[], .nil, (Except.ok.inj hread).symm⟩
  | cons e raws ih =>
      obtain ⟨k, hk, hread⟩ := ok_of_bind_eq_ok hread
      obtain rfl : e.1 = k := Except.ok.inj hk
      obtain ⟨j, hj, hrest⟩ := ok_of_bind_eq_ok hread
      obtain ⟨he, hraws⟩ := List.forall_mem_cons.mp hdistinct
      obtain ⟨settled, hsettled, rfl⟩ := ih hrest hraws
      exact ⟨(e.1, j) :: settled, .cons ⟨rfl, he, hj⟩ hsettled, rfl⟩

/-- An array settles item by item. -/
theorem array {raws : List Json} (h : Settles room (.array raws) j) :
    ∃ inner js, room.enter = .ok inner ∧ j = .array js ∧ List.Forall₂ (Settles inner) raws js := by
  obtain ⟨inner, hinner, hread⟩ := ok_of_bind_eq_ok h.read
  obtain ⟨js, hjs, hread⟩ := ok_of_bind_eq_ok hread
  exact ⟨inner, js, hinner, (Except.ok.inj hread).symm,
    items hjs ((distinct_items_iff raws).mp h.distinct)⟩

/-- The entries of an object settle one by one and are put in order. -/
theorem object {raws : List (String × Json)} (h : Settles room (.object raws) j) :
    ∃ inner es, room.enter = .ok inner ∧ j = .object (Entries.ofList es) ∧
      (raws.map Prod.fst).Nodup ∧ List.Forall₂ (SettlesEntry inner) raws es := by
  obtain ⟨inner, hinner, hread⟩ := ok_of_bind_eq_ok h.read
  obtain ⟨es, hes, hread⟩ := ok_of_bind_eq_ok hread
  obtain ⟨hkeys, hdistinct⟩ := (Bool.and_eq_true _ _).mp h.distinct
  rw [keys_ofJson] at hkeys
  obtain ⟨settled, hsettled, rfl⟩ := entries hes ((distinct_fields_iff raws).mp hdistinct)
  exact ⟨inner, settled, hinner, (Except.ok.inj hread).symm, of_decide_eq_true hkeys, hsettled⟩

/-- The keys are the same before and after. -/
theorem keys_eq {raws es : List (String × Json)} (h : List.Forall₂ (SettlesEntry room) raws es) :
    es.map Prod.fst = raws.map Prod.fst := by
  induction h with
  | nil => rfl
  | cons he _ ih => rw [List.map_cons, List.map_cons, he.1, ih]

end Settles

/-- The value is no array and no object. -/
def IsScalar : Json → Prop
  | .array _ | .object _ => False
  | _ => True

theorem IsScalar.toJson {j : Json} (h : j.IsScalar) (room : Room) :
    (Draft.ofJson j).toJson room = .ok j := by
  cases j with
  | null | bool | number | string => rfl
  | array | object => exact h.elim

/-- A relation that carries over from items and entries to arrays and objects holds between
every value and what it settles to. -/
theorem Settles.induction {motive : Room → Json → Json → Prop}
    (scalar : ∀ room j, IsScalar j → motive room j j)
    (array : ∀ room inner raws js, Room.enter room = .ok inner →
      List.Forall₂ (Settles inner) raws js → List.Forall₂ (motive inner) raws js →
      motive room (.array raws) (.array js))
    (object : ∀ room inner raws es, Room.enter room = .ok inner → (raws.map Prod.fst).Nodup →
      List.Forall₂ (SettlesEntry inner) raws es →
      List.Forall₂ (fun e e' => motive inner e.2 e'.2) raws es →
      motive room (.object raws) (.object (Entries.ofList es)))
    {room : Room} {raw j : Json} (h : Settles room raw j) : motive room raw j := by
  have hscalar : ∀ {room raw j}, IsScalar raw → Settles room raw j → motive room raw j := by
    intro room raw j hraw h
    obtain rfl := Except.ok.inj ((hraw.toJson room).symm.trans h.read)
    exact scalar room raw hraw
  induction raw using Json.induction generalizing room j with
  | null | bool | number | string => exact hscalar trivial h
  | array raws ih =>
      obtain ⟨inner, js, hinner, rfl, hjs⟩ := h.array
      refine array room inner raws js hinner hjs ?_
      exact ((List.forall₂_and_left _ _).mpr ⟨fun raw hraw => @ih raw hraw, hjs⟩).imp
        fun raw j h => h.1 h.2
  | object raws ih =>
      obtain ⟨inner, es, hinner, rfl, hnodup, hes⟩ := h.object
      refine object room inner raws es hinner hnodup hes ?_
      exact ((List.forall₂_and_left _ _).mpr ⟨fun e he => @ih e he, hes⟩).imp
        fun e e' h => h.1 h.2.2

namespace Settles

variable {room : Room} {raw j : Json}

/-! ### Reading again -/

theorem items_toJson {raws js : List Json}
    (h : List.Forall₂ (fun raw j => (Draft.ofJson raw).toJson room = .ok j) raws js) :
    (Items.ofJson raws).toJson room = .ok js := by
  induction h with
  | nil => rfl
  | cons hj _ ih =>
      rw [Items.ofJson, Items.toJson, hj, ih]
      rfl

theorem fields_toJson {raws es before : List (String × Json)}
    (h : List.Forall₂ (fun e e' => e'.1 = e.1 ∧ (Draft.ofJson e.2).toJson room = .ok e'.2)
      raws es) :
    (Fields.ofJson raws).toJson room before
      = .ok (es.foldl (fun es (e : String × Json) => Entries.insert e.1 e.2 es) before) := by
  induction h generalizing before with
  | nil => rfl
  | @cons e e' raws es he _ ih =>
      obtain ⟨k, raw⟩ := e
      obtain ⟨rfl, hj⟩ := he
      rw [Fields.ofJson, Fields.toJson, hj]
      exact ih

theorem toJson_array {raws js : List Json} (h : (Items.ofJson raws).toJson none = .ok js) :
    (Draft.ofJson (.array raws)).toJson none = .ok (.array js) := by
  rw [Draft.ofJson, Draft.toJson, Room.enter]
  simp only [bind, Except.bind, h]
  rfl

theorem toJson_object {raws es : List (String × Json)}
    (h : (Fields.ofJson raws).toJson none [] = .ok es) :
    (Draft.ofJson (.object raws)).toJson none = .ok (.object es) := by
  rw [Draft.ofJson, Draft.toJson, Room.enter]
  simp only [bind, Except.bind, h]
  rfl

/-- With any more room the value comes out the same. -/
theorem widen (h : Settles room raw j) : Settles none raw j := by
  refine ⟨h.distinct, ?_⟩
  refine Settles.induction (motive := fun _ raw j => (Draft.ofJson raw).toJson none = .ok j)
    ?_ ?_ ?_ h
  · exact fun room j hj => hj.toJson none
  · intro room inner raws js _ _ ih
    exact toJson_array (items_toJson ih)
  · intro room inner raws es _ _ hes ih
    exact toJson_object (fields_toJson (hes.mp (fun e e' he hj => ⟨he.1, hj⟩) ih))

/-- A value that has settled comes out as it is. -/
theorem again (h : Settles room raw j) : (Draft.ofJson j).toJson none = .ok j := by
  refine Settles.induction (motive := fun _ _ j => (Draft.ofJson j).toJson none = .ok j)
    ?_ ?_ ?_ h
  · exact fun room j hj => hj.toJson none
  · intro room inner raws js _ _ ih
    exact toJson_array (items_toJson (List.forall₂_same.mpr (forall_mem_of_forall₂ ih)))
  · intro room inner raws es _ hnodup hes ih
    have hkeys : (es.map Prod.fst).Nodup := by rwa [keys_eq hes]
    have hsettled := forall_mem_of_forall₂ ih
    have hread : (Fields.ofJson (Entries.ofList es)).toJson none []
        = .ok (Entries.ofList (Entries.ofList es)) := by
      refine fields_toJson (List.forall₂_same.mpr fun e he => ⟨rfl, hsettled e ?_⟩)
      exact (Entries.perm_ofList hkeys).mem_iff.mp he
    rw [Entries.ofList_ofList hkeys] at hread
    exact toJson_object hread

end Settles

/-! ### Values in memory -/

/-- Every object in the value has its keys in order, each of them once. -/
inductive Ordered : Json → Prop
  | null : Ordered .null
  | bool (b : Bool) : Ordered (.bool b)
  | number (n : Number) : Ordered (.number n)
  | string (s : String) : Ordered (.string s)
  | array {items : List Json} (h : ∀ j ∈ items, Ordered j) : Ordered (.array items)
  | object {entries : List (String × Json)} (hkeys : (entries.map Prod.fst).Pairwise (· < ·))
      (h : ∀ e ∈ entries, Ordered e.2) : Ordered (.object entries)

/-- A value in order is read as it is. -/
theorem Ordered.toJson {j : Json} (h : j.Ordered) : (Draft.ofJson j).toJson none = .ok j := by
  induction h with
  | null | bool | number | string => rfl
  | array _ ih => exact Settles.toJson_array (Settles.items_toJson (List.forall₂_same.mpr ih))
  | @object entries hkeys _ ih =>
      have hread : (Fields.ofJson entries).toJson none [] = .ok (Entries.ofList entries) :=
        Settles.fields_toJson (List.forall₂_same.mpr fun e he => ⟨rfl, ih e he⟩)
      rw [Entries.ofList_of_pairwise hkeys] at hread
      exact Settles.toJson_object hread

/-- Every value can be read where there is room for any nesting. -/
theorem exists_toJson (j : Json) : ∃ read, (Draft.ofJson j).toJson none = .ok read := by
  induction j using Json.induction with
  | null | bool | number | string => exact ⟨_, rfl⟩
  | array items ih =>
      obtain ⟨js, hjs⟩ : ∃ js, (Items.ofJson items).toJson none = .ok js := by
        induction items with
        | nil => exact ⟨[], rfl⟩
        | cons j items ihitems =>
            obtain ⟨hj, hitems⟩ := List.forall_mem_cons.mp ih
            obtain ⟨read, hread⟩ := hj
            obtain ⟨js, hjs⟩ := ihitems hitems
            refine ⟨read :: js, ?_⟩
            rw [Items.ofJson, Items.toJson, hread, hjs]
            rfl
      exact ⟨.array js, Settles.toJson_array hjs⟩
  | object entries ih =>
      obtain ⟨es, hes⟩ : ∃ es, (Fields.ofJson entries).toJson none [] = .ok es := by
        generalize ([] : List (String × Json)) = before
        induction entries generalizing before with
        | nil => exact ⟨before, rfl⟩
        | cons e entries ihentries =>
            obtain ⟨⟨read, hread⟩, hentries⟩ := List.forall_mem_cons.mp ih
            obtain ⟨es, hes⟩ := ihentries hentries (Entries.insert e.1 read before)
            refine ⟨es, ?_⟩
            rw [Fields.ofJson, Fields.toJson, hread]
            exact hes
      exact ⟨.object es, Settles.toJson_object hes⟩

end CyclePatterns.Json

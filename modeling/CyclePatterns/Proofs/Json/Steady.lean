/-
Readers that do not mind the order of entries.

A reader is steady if it gets the same from a value as a text spells it and from the value
that has been read, as far as it gets anything; what error it meets first may depend on the
order.  Reading a record is steady because each field is kept in a slot of its own: what is
done for one key commutes with what is done for another, so the entries may be gone through
in any order.
-/
import CyclePatterns.Proofs.Json.Settled
import Mathlib.Data.List.Pairwise

namespace CyclePatterns.Json

variable {σ α β : Type}

/-! ### Steps that commute -/

/-- Two steps that may fail give the same in either order. -/
def Commute (f g : σ → Option σ) : Prop :=
  ∀ s, (f s).bind g = (g s).bind f

theorem Commute.symm {f g : σ → Option σ} (h : Commute f g) : Commute g f :=
  fun s => (h s).symm

/-- A check that keeps the state commutes with everything. -/
theorem commute_check (f : σ → Option σ) (check : Option Unit) :
    Commute f fun s => check.map fun _ => s := by
  intro s
  cases check with
  | none => cases f s <;> rfl
  | some u =>
      show (f s).bind some = f s
      exact Option.bind_fun_some (f s)

/-- What is done for one key commutes with what is done for another. -/
def Indifferent (step : σ → String → Draft → Read σ) : Prop :=
  ∀ k k' d d', k ≠ k' →
    Commute (fun s => (step s k d).toOption) fun s => (step s k' d').toOption

/-- Going through the entries of a value is a fold. -/
theorem walk_ofJson (step : σ → String → Draft → Read σ) (s : σ) (es : List (String × Json)) :
    (Fields.ofJson es).walk step s
      = es.foldlM (fun s e => step s e.1 (Draft.ofJson e.2)) s := by
  induction es generalizing s with
  | nil => rfl
  | cons e es ih =>
      rw [Fields.ofJson, Fields.walk, List.foldlM_cons]
      exact bind_congr fun s => ih s

theorem toOption_foldlM {ε : Type} (f : σ → α → Except ε σ) (s : σ) (as : List α) :
    (as.foldlM f s).toOption = as.foldlM (fun s a => (f s a).toOption) s := by
  induction as generalizing s with
  | nil => rfl
  | cons a as ih =>
      rw [List.foldlM_cons, List.foldlM_cons, toOption_bind]
      exact congrArg _ (funext ih)

/-- Where no key is repeated, steps that commute may be taken in any order. -/
theorem foldlM_perm {f : σ → String × α → Option σ}
    (hcommute : ∀ e e', e.1 ≠ e'.1 → Commute (f · e) (f · e')) {es es' : List (String × α)}
    (hperm : es.Perm es') (hnodup : (es.map Prod.fst).Nodup) (s : σ) :
    es.foldlM f s = es'.foldlM f s := by
  induction hperm generalizing s with
  | nil => rfl
  | cons e _ ih =>
      rw [List.foldlM_cons, List.foldlM_cons]
      exact congrArg _ (funext (ih (List.nodup_cons.mp hnodup).2))
  | swap e e' es =>
      have hne : e'.1 ≠ e.1 := fun hkey =>
        (List.nodup_cons.mp hnodup).1 (hkey ▸ List.mem_cons_self)
      have hswap := hcommute e' e hne s
      simp only [List.foldlM_cons, bind, ← Option.bind_assoc]
      rw [hswap]
  | trans hperm _ ih ih' =>
      rw [ih hnodup, ih' ((hperm.map Prod.fst).nodup_iff.mp hnodup)]

theorem Indifferent.walk_perm {step : σ → String → Draft → Read σ} (h : Indifferent step)
    {es es' : List (String × Json)} (hperm : es.Perm es') (hnodup : (es.map Prod.fst).Nodup)
    (s : σ) :
    ((Fields.ofJson es).walk step s).toOption = ((Fields.ofJson es').walk step s).toOption := by
  rw [walk_ofJson, walk_ofJson, toOption_foldlM, toOption_foldlM]
  exact foldlM_perm (fun e e' hne => h _ _ _ _ hne) hperm hnodup s

/-! ### Slots -/

/-- Two fields are kept apart. -/
structure Slot.Apart (a : Slot σ α) (b : Slot σ β) : Prop where
  left : ∀ s v, a.get (b.set s v) = a.get s
  right : ∀ s v, b.get (a.set s v) = b.get s
  both : ∀ s v w, a.set (b.set s w) v = b.set (a.set s v) w

theorem Slot.apart_iff {a : Slot σ α} {b : Slot σ β} :
    a.Apart b ↔ (∀ s v, a.get (b.set s v) = a.get s) ∧ (∀ s v, b.get (a.set s v) = b.get s) ∧
      ∀ s v w, a.set (b.set s w) v = b.set (a.set s v) w :=
  ⟨fun h => ⟨h.left, h.right, h.both⟩, fun ⟨hleft, hright, hboth⟩ => ⟨hleft, hright, hboth⟩⟩

theorem toOption_field (name : String) (slot : Slot σ α) (read : Room → Draft → Read α)
    (room : Room) (s : σ) (d : Draft) :
    ((field name slot read).2 room s d).toOption
      = if (slot.get s).isSome then none
        else (read room d).toOption.map fun v => slot.set s (some v) := by
  unfold field readOnce
  dsimp only
  split
  · rfl
  · cases read room d <;> rfl

/-- Two fields commute. -/
def FieldsCommute (f g : String × (Room → σ → Draft → Read σ)) : Prop :=
  ∀ room d d', Commute (fun s => (f.2 room s d).toOption) fun s => (g.2 room s d').toOption

theorem Slot.Apart.commute {a : Slot σ α} {b : Slot σ β} (h : a.Apart b) (name name' : String)
    (read : Room → Draft → Read α) (read' : Room → Draft → Read β) :
    FieldsCommute (field name a read) (field name' b read') := by
  intro room d d' s
  simp only [toOption_field]
  -- Either slot may be taken already and either value may fail.
  by_cases ha : (a.get s).isSome = true <;> by_cases hb : (b.get s).isSome = true <;>
    cases (read room d).toOption <;> cases (read' room d').toOption <;>
    simp [ha, hb, h.left, h.right, h.both]

/-! ### Entries by the names of fields -/

/-- The fields of a record by name. -/
abbrev FieldList (σ : Type) := List (String × (Room → σ → Draft → Read σ))

/-- An entry is taken up by the field of its name, or else in another way. -/
def stepOf (fields : FieldList σ) (other : Room → σ → String → Draft → Read σ) (room : Room)
    (s : σ) (key : String) (d : Draft) : Read σ :=
  match fields.lookup key with
  | some take => take room s d
  | none => other room s key d

/-- A field commutes with whatever leaves its slot alone. -/
theorem commute_update {a : Slot σ α} (update : σ → β → σ)
    (hget : ∀ s w, a.get (update s w) = a.get s)
    (hset : ∀ s v w, a.set (update s w) v = update (a.set s v) w) (name : String)
    (read : Room → Draft → Read α) (room : Room) (d : Draft) (value : Option β) :
    Commute (fun s => ((field name a read).2 room s d).toOption)
      fun s => value.map (update s) := by
  intro s
  simp only [toOption_field]
  by_cases ha : (a.get s).isSome = true <;> cases (read room d).toOption <;> cases value <;>
    simp [ha, hget, hset]

instance : Std.Symm (@FieldsCommute σ) where
  symm _ _ h room d d' := (h room d' d).symm

theorem stepOf_cons (name : String) (take : Room → σ → Draft → Read σ) (fields : FieldList σ)
    (other : Room → σ → String → Draft → Read σ) (room : Room) (s : σ) (key : String) (d : Draft) :
    stepOf ((name, take) :: fields) other room s key d
      = if key = name then take room s d else stepOf fields other room s key d := by
  unfold stepOf
  rw [List.lookup_cons]
  by_cases h : key = name
  · rw [if_pos h, beq_iff_eq.mpr h]
  · rw [if_neg h, beq_false_of_ne h]

theorem mem_of_lookup {fields : FieldList σ} {key : String} {take : Room → σ → Draft → Read σ}
    (h : fields.lookup key = some take) : (key, take) ∈ fields := by
  obtain ⟨before, after, rfl, -⟩ := List.lookup_eq_some_iff.mp h
  exact List.mem_append_right _ List.mem_cons_self

theorem indifferent_stepOf {fields : FieldList σ}
    {other : Room → σ → String → Draft → Read σ} {room : Room}
    (hfields : fields.Pairwise FieldsCommute)
    (hother : ∀ f ∈ fields, ∀ d k' d', Commute (fun s => (f.2 room s d).toOption)
      fun s => (other room s k' d').toOption)
    (hothers : Indifferent (other room)) : Indifferent (stepOf fields other room) := by
  intro k k' d d' hne
  unfold stepOf
  cases hk : fields.lookup k with
  | none =>
      cases hk' : fields.lookup k' with
      | none => exact hothers k k' d d' hne
      | some take' => exact (hother (k', take') (mem_of_lookup hk') d' k d).symm
  | some take =>
      have hmem := mem_of_lookup hk
      cases hk' : fields.lookup k' with
      | none => exact hother (k, take) hmem d k' d'
      | some take' =>
          have hmem' := mem_of_lookup hk'
          have hkeys : (k, take) ≠ (k', take') := fun h => hne (congrArg Prod.fst h)
          exact hfields.forall hmem hmem' hkeys room d d'

/-! ### Steady readers -/

/-- The reader gets the same from a value and from what it settles to. -/
def SteadyAt (read : Room → Draft → Read α) (raw : Json) : Prop :=
  ∀ room j, Settles room raw j →
    (read room (Draft.ofJson raw)).toOption = (read none (Draft.ofJson j)).toOption

/-- The reader gets the same from every value and from what that settles to. -/
def Steady (read : Room → Draft → Read α) : Prop :=
  ∀ raw, SteadyAt read raw

/-- A field takes up the same from a value and from what it settles to. -/
def SteadyField (f : String × (Room → σ → Draft → Read σ)) (raw : Json) : Prop :=
  ∀ room j s, Settles room raw j →
    (f.2 room s (Draft.ofJson raw)).toOption = (f.2 none s (Draft.ofJson j)).toOption

theorem SteadyAt.field {read : Room → Draft → Read α} {raw : Json} (h : SteadyAt read raw)
    (name : String) (slot : Slot σ α) : SteadyField (Json.field name slot read) raw := by
  intro room j s hj
  rw [toOption_field, toOption_field, h room j hj]

theorem toOption_foldlM_congr {f f' : σ → String → Draft → Read σ}
    {R : String × Json → String × Json → Prop} {es es' : List (String × Json)}
    (hes : List.Forall₂ R es es')
    (h : ∀ e e', R e e' → ∀ s, (f s e.1 (Draft.ofJson e.2)).toOption
      = (f' s e'.1 (Draft.ofJson e'.2)).toOption) (s : σ) :
    ((Fields.ofJson es).walk f s).toOption = ((Fields.ofJson es').walk f' s).toOption := by
  rw [walk_ofJson, walk_ofJson, toOption_foldlM, toOption_foldlM]
  induction hes generalizing s with
  | nil => rfl
  | cons he _ ih =>
      rw [List.foldlM_cons, List.foldlM_cons, h _ _ he s]
      exact congrArg _ (funext ih)

/-- **The entries of an object may be gone through in any order.** -/
theorem walk_settled {step : Room → σ → String → Draft → Read σ} {room : Room}
    {raws es : List (String × Json)} (hindifferent : Indifferent (step none))
    (hsteady : ∀ e ∈ raws, ∀ j s, Settles room e.2 j →
      (step room s e.1 (Draft.ofJson e.2)).toOption = (step none s e.1 (Draft.ofJson j)).toOption)
    (hnodup : (raws.map Prod.fst).Nodup) (hes : List.Forall₂ (SettlesEntry room) raws es) (s : σ) :
    ((Fields.ofJson raws).walk (step room) s).toOption
      = ((Fields.ofJson (Entries.ofList es)).walk (step none) s).toOption := by
  have hkeys : (es.map Prod.fst).Nodup := by rwa [Settles.keys_eq hes]
  rw [← hindifferent.walk_perm (Entries.perm_ofList hkeys).symm hkeys s]
  refine toOption_foldlM_congr ((List.forall₂_and_left _ _).mpr ⟨hsteady, hes⟩) ?_ s
  rintro e e' ⟨he, hkey, hsettles⟩ s
  rw [hkey]
  exact he _ s hsettles

/-! ### Single values -/

/-- One who passes over a value meets no fault. -/
theorem skim_ofJson (j : Json) : (Draft.ofJson j).skim = none := by
  induction j using Json.induction with
  | null | bool | number | string => rfl
  | array items ih =>
      have hitems : (Items.ofJson items).skim = none := by
        induction items with
        | nil => rfl
        | cons j items ihitems =>
            obtain ⟨hj, hrest⟩ := List.forall_mem_cons.mp ih
            rw [Items.ofJson, Items.skim, hj, Option.none_or]
            exact ihitems hrest
      exact hitems
  | object entries ih =>
      have hentries : (Fields.ofJson entries).skim = none := by
        induction entries with
        | nil => rfl
        | cons e entries ihentries =>
            obtain ⟨he, hrest⟩ := List.forall_mem_cons.mp ih
            rw [Fields.ofJson, Fields.skim, he]
            exact ihentries hrest
      exact hentries

theorem passOver_ofJson (j : Json) : passOver (Draft.ofJson j) = .ok () := by
  rw [passOver, skim_ofJson]

/-- A reader of single values, which takes neither arrays nor objects, is steady. -/
theorem steady_of_scalar {read : Room → Draft → Read α}
    (hscalar : ∀ room j, IsScalar j → read room (Draft.ofJson j) = read none (Draft.ofJson j))
    (harray : ∀ room items, (read room (.array items)).toOption = none)
    (hobject : ∀ room fields, (read room (.object fields)).toOption = none) : Steady read := by
  intro raw room j h
  refine Settles.induction (motive := fun room raw j =>
    (read room (Draft.ofJson raw)).toOption = (read none (Draft.ofJson j)).toOption) ?_ ?_ ?_ h
  · exact fun room j hj => congrArg Except.toOption (hscalar room j hj)
  · exact fun room _ _ _ _ _ _ => (harray room _).trans (harray none _).symm
  · exact fun room _ _ _ _ _ _ _ => (hobject room _).trans (hobject none _).symm

theorem Settles.eq_of_scalar {room : Room} {raw j : Json} (h : Settles room raw j)
    (hraw : raw.IsScalar) : j = raw :=
  Except.ok.inj (h.read.symm.trans (hraw.toJson room))

theorem Settles.eq_null_iff {room : Room} {raw j : Json} (h : Settles room raw j) :
    raw = .null ↔ j = .null := by
  refine Settles.induction (motive := fun _ raw j => raw = .null ↔ j = .null) ?_ ?_ ?_ h
  · exact fun _ _ _ => Iff.rfl
  · exact fun _ _ _ _ _ _ _ => ⟨nofun, nofun⟩
  · exact fun _ _ _ _ _ _ _ _ => ⟨nofun, nofun⟩

theorem readOptional_ofJson (read : Draft → Read α) {j : Json} (h : j ≠ .null) :
    readOptional read (Draft.ofJson j) = (read (Draft.ofJson j)).map some := by
  cases j with
  | null => exact absurd rfl h
  | bool | number | string | array | object => rfl

theorem SteadyAt.optional {read : Room → Draft → Read α} {raw : Json} (h : SteadyAt read raw) :
    SteadyAt (fun room => readOptional (read room)) raw := by
  intro room j hj
  by_cases hnull : raw = .null
  · rw [hnull, hj.eq_null_iff.mp hnull]
    rfl
  · have hj' : j ≠ .null := fun hj' => hnull (hj.eq_null_iff.mpr hj')
    dsimp only
    rw [readOptional_ofJson _ hnull, readOptional_ofJson _ hj', toOption_map, toOption_map,
      h room j hj]

theorem Steady.optional {read : Room → Draft → Read α} (h : Steady read) :
    Steady fun room => readOptional (read room) :=
  fun raw => (h raw).optional

/-- What is done with what has been read does not matter. -/
theorem Steady.bind {read : Room → Draft → Read α} (h : Steady read) (f : α → Read β) :
    Steady fun room d => read room d >>= f := by
  intro raw room j hj
  dsimp only
  rw [toOption_bind, toOption_bind, h raw room j hj]

/-- One who passes over entries with other names. -/
def passing (_ : Room) (s : σ) (_ : String) (d : Draft) : Read σ := do
  passOver d
  return s

theorem toOption_passing (room : Room) (s : σ) (key : String) (d : Draft) :
    (passing room s key d).toOption = (passOver d).toOption.map fun _ => s := by
  unfold passing
  cases passOver d <;> rfl

theorem indifferent_passing {fields : FieldList σ} (h : fields.Pairwise FieldsCommute)
    (room : Room) : Indifferent (stepOf fields passing room) := by
  refine indifferent_stepOf h ?_ ?_
  · intro f _ d key d'
    simp only [toOption_passing]
    exact commute_check _ _
  · intro key key' d d' _
    simp only [toOption_passing]
    exact commute_check _ _

theorem steady_stepOf {fields : FieldList σ} {other : Room → σ → String → Draft → Read σ}
    {raw : Json} (hfields : ∀ f ∈ fields, SteadyField f raw)
    (hother : ∀ room j s key, Settles room raw j → (other room s key (Draft.ofJson raw)).toOption
      = (other none s key (Draft.ofJson j)).toOption)
    {room : Room} {j : Json} (s : σ) (key : String) (hj : Settles room raw j) :
    (stepOf fields other room s key (Draft.ofJson raw)).toOption
      = (stepOf fields other none s key (Draft.ofJson j)).toOption := by
  unfold stepOf
  cases hlookup : fields.lookup key with
  | some take => exact hfields _ (mem_of_lookup hlookup) room j s hj
  | none => exact hother room j s key hj

theorem steady_passing (raw : Json) (room : Room) (j : Json) (s : σ) (key : String)
    (_ : Settles room raw j) : (passing room s key (Draft.ofJson raw)).toOption
      = (passing none s key (Draft.ofJson j)).toOption := by
  rw [toOption_passing, toOption_passing, passOver_ofJson, passOver_ofJson]

/-! ### Records -/

namespace Record

/-- Fields are kept apart and read steadily, and other entries are passed over. -/
structure Orderly (r : Record σ) : Prop where
  passes : r.other = fun _ d => passOver d
  commute : r.fields.Pairwise FieldsCommute
  steady : ∀ f ∈ r.fields, ∀ raw, SteadyField f raw

variable {r : Record σ} {room : Room}

/-- A record with one field. -/
theorem orderly_single {a : Slot σ α} {name : String} {read : Room → Draft → Read α}
    (hpasses : r.other = fun _ d => passOver d) (hfields : r.fields = [field name a read])
    (hread : Steady read) : r.Orderly where
  passes := hpasses
  commute := hfields ▸ List.pairwise_singleton _ _
  steady := hfields ▸ List.forall_mem_singleton.mpr fun raw => (hread raw).field name a

/-- A record with two fields in slots that are kept apart. -/
theorem orderly_pair {a : Slot σ α} {b : Slot σ β} {name name' : String}
    {read : Room → Draft → Read α} {read' : Room → Draft → Read β}
    (hpasses : r.other = fun _ d => passOver d)
    (hfields : r.fields = [field name a read, field name' b read']) (hapart : a.Apart b)
    (hread : Steady read) (hread' : Steady read') : r.Orderly where
  passes := hpasses
  commute := hfields ▸ List.pairwise_pair.mpr (hapart.commute name name' read read')
  steady := by
    rw [hfields, List.forall_mem_cons, List.forall_mem_singleton]
    exact ⟨fun raw => (hread raw).field name a, fun raw => (hread' raw).field name' b⟩

theorem Orderly.entry_eq (h : r.Orderly) : r.entry = stepOf r.fields passing := by
  funext room s key d
  unfold entry stepOf
  rw [h.passes]
  rfl

/-- The fields of a record in an array. -/
theorem walk_items_settled {fields : FieldList σ} {raws js : List Json}
    (hsteady : ∀ f ∈ fields, ∀ raw, SteadyField f raw)
    (hjs : List.Forall₂ (Settles room) raws js) (taken : Nat) (s : σ) :
    ((Items.ofJson raws).walk room taken (fields.map fun f => f.2 room) s).toOption
      = ((Items.ofJson js).walk none taken (fields.map fun f => f.2 none) s).toOption := by
  induction hjs generalizing fields taken s with
  | nil => cases fields <;> rfl
  | cons hj _ ih =>
      cases fields with
      | nil => cases room <;> rfl
      | cons f fields =>
          obtain ⟨hf, hfields⟩ := List.forall_mem_cons.mp hsteady
          rw [Items.ofJson, Items.ofJson, List.map_cons, List.map_cons, Items.walk, Items.walk,
            toOption_bind, toOption_bind, hf _ room _ s hj]
          exact congrArg _ (funext (ih hfields (taken + 1)))

theorem toOption_read_array {items : Items} {inner : Room} (hinner : room.enter = .ok inner)
    (start : σ) :
    (r.read start room (.array items)).toOption
      = (items.walk inner 0 (r.fields.map fun f => f.2 inner) start).toOption.bind fun result =>
          if result.2 < r.required then none else some result.1 := by
  rw [read, Room.enterOrFail, hinner, toOption_bind]
  show Except.toOption (_ >>= _) = _
  rw [toOption_bind]
  refine congrArg _ (funext fun result => ?_)
  dsimp only
  split <;> rfl

theorem toOption_read_object {fields : Fields} {inner : Room} (hinner : room.enter = .ok inner)
    (start : σ) :
    (r.read start room (.object fields)).toOption
      = (fields.walk (r.entry inner) start).toOption := by
  rw [read, Room.enterOrFail, hinner]
  rfl

/-- **Records are read steadily.** -/
theorem Orderly.read (h : r.Orderly) (start : σ) : Steady (r.read start) := by
  intro raw room j hj
  cases raw with
  | null | bool | number | string =>
      rw [hj.eq_of_scalar trivial]
      rfl
  | array raws =>
      obtain ⟨inner, js, hinner, rfl, hjs⟩ := hj.array
      rw [Draft.ofJson, Draft.ofJson, toOption_read_array hinner, toOption_read_array rfl,
        walk_items_settled h.steady hjs]
  | object raws =>
      obtain ⟨inner, es, hinner, rfl, hnodup, hes⟩ := hj.object
      rw [Draft.ofJson, Draft.ofJson, toOption_read_object hinner, toOption_read_object rfl,
        h.entry_eq]
      refine walk_settled (indifferent_passing h.commute none) (fun e _ j s hj => ?_) hnodup hes
        start
      exact steady_stepOf (fun f hf => h.steady f hf e.2) (steady_passing e.2) s e.1 hj

end Record

end CyclePatterns.Json

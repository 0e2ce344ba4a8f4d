/-
Options that are written as JSON and read again.

Fractions, counts and places are read as what they are, and so are operators and rhythms.  In
options the entries that have a meaning stand beside others that are kept as they are; as long
as none of those has the name of a known one, all of them come back.
-/
import CyclePatterns.Proofs.Json.Fractions
import CyclePatterns.Proofs.Json.Written
import CyclePatterns.Proofs.Tree.Steady
import CyclePatterns.Tree.Writer

namespace CyclePatterns

open Json

/-! ### The parts of a node -/

theorem readNatural_natCast {max n : Nat} (h : n ≤ max) (wanted : String) :
    readNatural max wanted (Draft.ofJson (.number (.integer n))) = .ok n := by
  show (if 0 ≤ (n : Int) ∧ (n : Int) ≤ max then Except.ok (n : Int).toNat
    else Read.wrong (.outOfRange n wanted)) = _
  rw [if_pos ⟨Int.natCast_nonneg n, Int.ofNat_le.mpr h⟩, Int.toNat_natCast]

theorem readCount_jsonOfCount (n : UInt32) :
    readCount (Draft.ofJson (jsonOfCount n)) = .ok n := by
  have hbound : n.toNat ≤ word32Max := Nat.le_of_lt_succ n.toNat_lt
  rw [readCount, jsonOfCount, readWord32, readNatural_natCast hbound]
  exact congrArg Except.ok UInt32.ofNat_toNat

/-- The place is one that a 64-bit machine can count. -/
def SourceSpan.Fits (l : SourceSpan) : Prop :=
  l.start ≤ word64Max ∧ l.stop ≤ word64Max

namespace Sketch

theorem readPosition_written {n : Nat} (h : n ≤ word64Max) :
    readPosition none (Draft.ofJson (.object [("offset", .number (.integer n))])) = .ok n := by
  have hstep : stepOf positionRecord.fields passing none none "offset"
      (Draft.ofJson (.number (.integer n))) = .ok (some n) :=
    stepOf_field (readNatural_natCast h _) rfl
  have hread := orderly_positionRecord.read_object (walk_entry hstep [])
  rw [readPosition, hread]
  rfl

/-- **A written place is read as what it is.** -/
theorem readLocation_toJson {l : SourceSpan} (h : l.Fits) :
    readLocation none (Draft.ofJson l.toJson) = .ok l := by
  have hend : stepOf locationRecord.fields passing none (none, none) "end"
      (Draft.ofJson (.object [("offset", .number (.integer l.stop))])) = .ok (none, some l.stop) :=
    (stepOf_later (by decide)).trans (stepOf_field (readPosition_written h.2) rfl)
  have hstart : stepOf locationRecord.fields passing none (none, some l.stop) "start"
      (Draft.ofJson (.object [("offset", .number (.integer l.start))]))
        = .ok (some l.start, some l.stop) :=
    stepOf_field (readPosition_written h.1) rfl
  have hread : locationRecord.read (none, none) none (Draft.ofJson l.toJson)
      = .ok (some l.start, some l.stop) := by
    refine orderly_locationRecord.read_object ?_
    exact (walk_entry hend _).trans (walk_entry hstart [])
  rw [readLocation, hread]
  rfl

end Sketch

/-! ### Options -/

theorem join_map_some {α : Type} (x : Option α) : (x.map some).join = x := by
  cases x <;> rfl

theorem Operator.readAmount_written (amount : Option Rat) :
    readAmount none (Draft.ofJson (.object (match amount with
      | some a => [("amount", ofFraction a)]
      | none => []))) = .ok amount := by
  cases amount with
  | none => rfl
  | some a =>
      have hvalue := readOptional_eq_ok (readFraction_ofFraction none a) nofun
      have hstep : stepOf argumentsRecord.fields passing none none "amount"
          (Draft.ofJson (ofFraction a)) = .ok (some (some a)) :=
        stepOf_field hvalue rfl
      have hread := orderly_argumentsRecord.read_object (walk_entry hstep [])
      rw [readAmount, hread]
      rfl

/-- A written operator is read as what it is. -/
theorem Operator.read_toJson (o : Operator) :
    Operator.read none (Draft.ofJson o.toJson) = .ok o := by
  obtain ⟨kind, amount⟩ := o
  have hkind : stepOf record.fields passing none (none, none) "type_"
      (Draft.ofJson (.string kind)) = .ok (some kind, none) :=
    stepOf_field rfl rfl
  have harguments : stepOf record.fields passing none (some kind, none) "arguments_" _
      = .ok (some kind, some amount) :=
    (stepOf_later (by decide)).trans (stepOf_field (readAmount_written amount) rfl)
  have hread : record.read (none, none) none (Draft.ofJson (Operator.toJson ⟨kind, amount⟩))
      = .ok (some kind, some amount) := by
    have hnodup : ["type_", "arguments_"].Nodup := by decide
    refine orderly_record.read_ofList hnodup ?_
    exact (walk_entry hkind _).trans (walk_entry harguments [])
  rw [Operator.read, hread]
  rfl

theorem Euclid.toJson_eq (e : Euclid) : e.toJson = .object (Entries.ofList
    [("pulses", jsonOfCount e.pulses), ("steps", jsonOfCount e.steps),
      ("rotation", e.rotation.elim .null jsonOfCount)]) := by
  obtain ⟨_, _, _ | _⟩ := e <;> rfl

/-- A written rhythm is read as what it is. -/
theorem Euclid.read_toJson (e : Euclid) : Euclid.read none (Draft.ofJson e.toJson) = .ok e := by
  obtain ⟨pulses, steps, rotation⟩ := e
  have hpulses : stepOf record.fields passing none (none, none, none) "pulses"
      (Draft.ofJson (jsonOfCount pulses)) = .ok (some pulses, none, none) :=
    stepOf_field (readCount_jsonOfCount pulses) rfl
  have hsteps : stepOf record.fields passing none (some pulses, none, none) "steps"
      (Draft.ofJson (jsonOfCount steps)) = .ok (some pulses, some steps, none) :=
    (stepOf_later (by decide)).trans (stepOf_field (readCount_jsonOfCount steps) rfl)
  have hvalue : readOptional readCount (Draft.ofJson (rotation.elim .null jsonOfCount))
      = .ok rotation := by
    cases rotation with
    | none => rfl
    | some r => exact readOptional_eq_ok (readCount_jsonOfCount r) nofun
  have hrotation : stepOf record.fields passing none (some pulses, some steps, none) "rotation"
      (Draft.ofJson (rotation.elim .null jsonOfCount))
        = .ok (some pulses, some steps, some rotation) :=
    (stepOf_later (by decide)).trans
      ((stepOf_later (by decide)).trans (stepOf_field hvalue rfl))
  have hread : record.read (none, none, none) none
      (Draft.ofJson (Euclid.toJson ⟨pulses, steps, rotation⟩))
        = .ok (some pulses, some steps, some rotation) := by
    have hnodup : ["pulses", "steps", "rotation"].Nodup := by decide
    rw [toJson_eq]
    refine orderly_record.read_ofList hnodup ?_
    exact (walk_entry hpulses _).trans ((walk_entry hsteps _).trans (walk_entry hrotation []))
  rw [Euclid.read, hread]
  rfl

/-- The names of the entries that have a meaning. -/
def Options.knownKeys : List String :=
  ["operator", "weight", "reps", "euclid"]

/-- What holds of all options in memory: the other entries are in the order of their names, and
so is every object in them. -/
structure Options.InMemory (o : Options) : Prop where
  keys : (o.extra.map Prod.fst).Pairwise (· < ·)
  values : ∀ e ∈ o.extra, e.2.Ordered

/-- No other entry has the name of a known one. -/
def Options.Unambiguous (o : Options) : Prop :=
  ∀ e ∈ o.extra, e.1 ∉ knownKeys

namespace Options

theorem storing_ofJson {j : Json} (h : j.Ordered) (s : Entry) (key : String) :
    storing none s key (Draft.ofJson j) = .ok { s with extra := Entries.insert key j s.extra } := by
  rw [storing, readJson, h.toJson]
  rfl

theorem stepOf_other {key : String} (h : key ∉ knownKeys) (s : Entry) (d : Draft) :
    stepOf fields storing none s key d = storing none s key d := by
  simp only [knownKeys, List.mem_cons, List.not_mem_nil, or_false, not_or] at h
  obtain ⟨hoperator, hweight, hreps, heuclid⟩ := h
  exact (stepOf_later hoperator).trans ((stepOf_later hweight).trans
    ((stepOf_later hreps).trans (stepOf_later heuclid)))

/-- Other entries are kept one by one. -/
theorem walk_other {es : List (String × Json)} (hkeys : ∀ e ∈ es, e.1 ∉ knownKeys)
    (hvalues : ∀ e ∈ es, e.2.Ordered) (s : Entry) :
    (Fields.ofJson es).walk (stepOf fields storing none) s
      = .ok { s with extra := es.foldl (fun es e => Entries.insert e.1 e.2 es) s.extra } := by
  induction es generalizing s with
  | nil => rfl
  | cons e es ih =>
      obtain ⟨hkey, hkeys⟩ := List.forall_mem_cons.mp hkeys
      obtain ⟨hvalue, hvalues⟩ := List.forall_mem_cons.mp hvalues
      have hstep := (stepOf_other hkey s _).trans (storing_ofJson hvalue s e.1)
      exact (walk_entry hstep es).trans (ih hkeys hvalues _)

/-- The entries for what is known of options. -/
def knownEntries (o : Options) : List (String × Json) :=
  (o.operator.map fun v => ("operator", v.toJson)).toList ++
    ((o.weight.map fun v => ("weight", ofFraction v)).toList ++
      ((o.reps.map fun v => ("reps", jsonOfCount v)).toList ++
        (o.euclid.map fun v => ("euclid", v.toJson)).toList))

theorem toJson_eq (o : Options) :
    o.toJson = .object (Entries.ofList (o.knownEntries ++ o.extra)) := by
  simp only [toJson, knownEntries, List.append_assoc]

/-- The known entries are taken up, and then the others are gone through. -/
theorem walk_known (o : Options) (rest : List (String × Json)) :
    (Fields.ofJson (o.knownEntries ++ rest)).walk (stepOf fields storing none)
        ⟨none, none, none, none, []⟩
      = (Fields.ofJson rest).walk (stepOf fields storing none)
        ⟨o.operator.map some, o.weight.map some, o.reps.map some, o.euclid.map some, []⟩ := by
  obtain ⟨operator, weight, reps, euclid, extra⟩ := o
  simp only [knownEntries, List.append_assoc]
  -- Entry by entry; each is looked for behind the fields of the entries before it.
  refine (walk_optional ⟨operator.map some, none, none, none, []⟩ ?_ ?_ _).trans ?_
  · rintro rfl
    rfl
  · rintro v rfl
    exact stepOf_field (readOptional_eq_ok v.read_toJson nofun) rfl
  refine (walk_optional ⟨operator.map some, weight.map some, none, none, []⟩ ?_ ?_ _).trans ?_
  · rintro rfl
    rfl
  · rintro v rfl
    refine (stepOf_later (by decide)).trans ?_
    exact stepOf_field (readOptional_eq_ok (readFraction_ofFraction none v) nofun) rfl
  refine (walk_optional ⟨operator.map some, weight.map some, reps.map some, none, []⟩
    ?_ ?_ _).trans ?_
  · rintro rfl
    rfl
  · rintro v rfl
    refine (stepOf_later (by decide)).trans ((stepOf_later (by decide)).trans ?_)
    exact stepOf_field (readOptional_eq_ok (readCount_jsonOfCount v) nofun) rfl
  refine (walk_optional ⟨operator.map some, weight.map some, reps.map some, euclid.map some, []⟩
    ?_ ?_ rest).trans rfl
  · rintro rfl
    rfl
  · rintro v rfl
    refine (stepOf_later (by decide)).trans ((stepOf_later (by decide)).trans
      ((stepOf_later (by decide)).trans ?_))
    exact stepOf_field (readOptional_eq_ok v.read_toJson nofun) rfl

/-- Written options repeat no key. -/
theorem nodup_written {o : Options} (hmemory : o.InMemory) (h : o.Unambiguous) :
    ((o.knownEntries ++ o.extra).map Prod.fst).Nodup := by
  have hknown : (o.knownEntries.map Prod.fst).Sublist knownKeys := by
    simp only [knownEntries, List.map_append]
    exact (keys_optional_sublist _ _ _).append ((keys_optional_sublist _ _ _).append
      ((keys_optional_sublist _ _ _).append (keys_optional_sublist _ _ _)))
  have hnodup : knownKeys.Nodup := by decide
  rw [List.map_append, List.nodup_append]
  refine ⟨hnodup.sublist hknown, hmemory.keys.imp ne_of_lt, fun key hkey key' hkey' heq => ?_⟩
  obtain ⟨e, he, rfl⟩ := List.mem_map.mp hkey'
  exact h e he (heq ▸ hknown.subset hkey)

/-- **Written options are read as what they are.** -/
theorem read_toJson {o : Options} (hmemory : o.InMemory) (h : o.Unambiguous) :
    read none (Draft.ofJson o.toJson) = .ok o := by
  have hwalk := (walk_known o o.extra).trans (walk_other h hmemory.values _)
  dsimp only at hwalk
  -- The other entries are in order already, so putting them in one by one moves none.
  rw [← Entries.ofList, Entries.ofList_of_pairwise hmemory.keys, ← takeUp_eq] at hwalk
  have hsorted := (indifferent_takeUp none).walk_ofList (nodup_written hmemory h) hwalk
  refine ok_of_toOption ?_
  rw [toJson_eq, Draft.ofJson, toOption_read_object rfl, hsorted]
  simp only [Except.toOption, Option.map_some, join_map_some]

end Options

end CyclePatterns

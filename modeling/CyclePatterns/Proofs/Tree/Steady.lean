/-
Trees that are read from a text and from a value.

A tree can be read from a JSON text in one go, or from the value that the text has been read
as.  The value has the entries of its objects in the order of their keys, and it has room for
any nesting.  Neither makes a difference, since all readers that take part are steady: those
of the parts of a node record by record, those of nodes by induction over the value.
-/
import CyclePatterns.Proofs.Json.Honest
import CyclePatterns.Proofs.Json.Steady
import CyclePatterns.Tree.Form

namespace CyclePatterns

open Json

/-! ### The parts of a node -/

theorem steady_readString : Steady fun _ => readString :=
  steady_of_scalar (fun _ _ _ => rfl) (fun _ _ => rfl) fun _ _ => rfl

theorem steady_readWord64 : Steady fun _ => readWord64 :=
  steady_of_scalar (fun _ _ _ => rfl) (fun _ _ => rfl) fun _ _ => rfl

theorem steady_readCount : Steady fun _ => readCount :=
  steady_of_scalar (fun _ _ _ => rfl) (fun _ _ => rfl) fun _ _ => rfl

theorem steady_readFraction : Steady readFraction := by
  refine steady_of_scalar ?_ ?_ ?_
  · intro room j hj
    cases j with
    | null | bool | number | string => rfl
    | array | object => exact hj.elim
  · intro room items
    rw [readFraction, toOption_bind]
    exact Option.bind_fun_none _
  · intro room fields
    rw [readFraction, toOption_bind]
    exact Option.bind_fun_none _

theorem Operator.orderly_argumentsRecord : argumentsRecord.Orderly :=
  Record.orderly_single rfl rfl steady_readFraction.optional

theorem Operator.steady_readAmount : Steady readAmount :=
  (orderly_argumentsRecord.read none).bind _

theorem Operator.orderly_record : record.Orderly :=
  Record.orderly_pair rfl rfl ⟨fun _ _ => rfl, fun _ _ => rfl, fun _ _ _ => rfl⟩
    steady_readString steady_readAmount

theorem Operator.steady_read : Steady Operator.read :=
  (orderly_record.read (none, none)).bind _

theorem Euclid.orderly_record : record.Orderly where
  passes := rfl
  commute := by simp [record, Slot.Apart.commute, Slot.apart_iff]
  steady := by
    simp only [record, List.forall_mem_cons]
    exact ⟨fun raw => (steady_readCount raw).field _ _, fun raw => (steady_readCount raw).field _ _,
      fun raw => (steady_readCount.optional raw).field _ _, List.forall_mem_nil _⟩

theorem Euclid.steady_read : Steady Euclid.read :=
  (orderly_record.read (none, none, none)).bind _

theorem Sketch.orderly_positionRecord : positionRecord.Orderly :=
  Record.orderly_single rfl rfl steady_readWord64

theorem Sketch.steady_readPosition : Steady readPosition :=
  (orderly_positionRecord.read none).bind _

theorem Sketch.orderly_locationRecord : locationRecord.Orderly :=
  Record.orderly_pair rfl rfl ⟨fun _ _ => rfl, fun _ _ => rfl, fun _ _ _ => rfl⟩
    steady_readPosition steady_readPosition

theorem Sketch.steady_readLocation : Steady readLocation :=
  (orderly_locationRecord.read (none, none)).bind _

/-! ### Values that are kept as they are -/

theorem toOption_readJson (room : Room) (d : Draft) :
    (readJson room d).toOption = (d.toJson room).toOption := by
  unfold readJson Read.ofFault
  cases d.toJson room <;> rfl

theorem steady_readJson : Steady readJson := by
  intro raw room j hj
  rw [toOption_readJson, toOption_readJson, hj.read, hj.again]

/-- The arguments of a node are the entries of its value. -/
theorem Sketch.toOption_readArguments (room : Room) (fields : Fields) :
    (readArguments room (.object fields)).toOption
      = ((Draft.object fields).toJson room).toOption.bind fun j =>
          match j with
          | .object entries => some entries
          | _ => none := by
  rw [readArguments, Room.enterOrFail, Draft.toJson]
  cases room.enter with
  | error f => rfl
  | ok inner =>
      simp only [Read.ofFault, bind, Except.bind, Except.mapError]
      cases fields.toJson inner [] <;> rfl

theorem Sketch.steady_readArguments : Steady readArguments := by
  intro raw room j hj
  cases raw with
  | null | bool | number | string =>
      rw [hj.eq_of_scalar trivial]
      rfl
  | array raws =>
      obtain ⟨inner, js, -, rfl, -⟩ := hj.array
      rfl
  | object raws =>
      have hagain := hj.again
      have hread := hj.read
      obtain ⟨inner, es, -, rfl, -, -⟩ := hj.object
      rw [Draft.ofJson] at hagain hread
      rw [Draft.ofJson, Draft.ofJson, toOption_readArguments, toOption_readArguments, hread, hagain]

/-! ### Options -/

namespace Options

/-- An entry that is kept as it is. -/
def storing (room : Room) (s : Entry) (key : String) (d : Draft) : Read Entry := do
  return { s with extra := Entries.insert key (← readJson room d) s.extra }

theorem toOption_storing (room : Room) (s : Entry) (key : String) (d : Draft) :
    (storing room s key d).toOption
      = (readJson room d).toOption.map fun j =>
          { s with extra := Entries.insert key j s.extra } := by
  unfold storing
  cases readJson room d <;> rfl

theorem takeUp_eq : takeUp = stepOf fields storing := by
  funext room s key d
  unfold takeUp stepOf storing
  cases fields.lookup key <;> rfl

theorem fields_commute : fields.Pairwise FieldsCommute := by
  simp [fields, Slot.Apart.commute, Slot.apart_iff]

/-- Known entries are kept apart from the others. -/
theorem commute_storing {f : String × (Room → Entry → Draft → Read Entry)} (hf : f ∈ fields)
    (room : Room) (d : Draft) (key : String) (d' : Draft) :
    Commute (fun s => (f.2 room s d).toOption) fun s => (storing room s key d').toOption := by
  simp only [toOption_storing]
  simp only [fields, List.mem_cons, List.not_mem_nil, or_false] at hf
  rcases hf with rfl | rfl | rfl | rfl <;>
    exact commute_update
      (fun (s : Entry) (j : Json) => { s with extra := Entries.insert key j s.extra })
      (fun _ _ => rfl) (fun _ _ _ => rfl) _ _ _ _ _

/-- Entries with different names may be kept in either order. -/
theorem indifferent_storing (room : Room) : Indifferent (storing room) := by
  intro key key' d d' hne s
  simp only [toOption_storing]
  cases (readJson room d).toOption with
  | none => exact (Option.bind_fun_none _).symm
  | some j =>
      cases (readJson room d').toOption with
      | none => rfl
      | some j' =>
          simp only [Option.map_some, Option.bind_some, Entries.insert_comm hne]

theorem indifferent_takeUp (room : Room) : Indifferent (takeUp room) := by
  rw [takeUp_eq]
  exact indifferent_stepOf fields_commute (fun _ hf d key d' => commute_storing hf room d key d')
    (indifferent_storing room)

theorem steady_fields (raw : Json) : ∀ f ∈ fields, SteadyField f raw := by
  simp only [fields, List.forall_mem_cons]
  exact ⟨(Operator.steady_read.optional raw).field _ _,
    (steady_readFraction.optional raw).field _ _, (steady_readCount.optional raw).field _ _,
    (Euclid.steady_read.optional raw).field _ _, List.forall_mem_nil _⟩

theorem steady_takeUp {room : Room} {raw j : Json} (s : Entry) (key : String)
    (hj : Settles room raw j) : (takeUp room s key (Draft.ofJson raw)).toOption
      = (takeUp none s key (Draft.ofJson j)).toOption := by
  rw [takeUp_eq]
  refine steady_stepOf (steady_fields raw) (fun room j s key hj => ?_) s key hj
  rw [toOption_storing, toOption_storing, steady_readJson raw room j hj]

theorem toOption_read_object {room inner : Room} (hinner : room.enter = .ok inner)
    (entries : Fields) :
    (read room (.object entries)).toOption
      = (entries.walk (takeUp inner) ⟨none, none, none, none, []⟩).toOption.map fun s =>
          ⟨s.operator.join, s.weight.join, s.reps.join, s.euclid.join, s.extra⟩ := by
  rw [read, Room.enterOrFail, hinner]
  simp only [Read.ofFault, bind, Except.bind, Except.mapError]
  cases entries.walk (takeUp inner) ⟨none, none, none, none, []⟩ <;> rfl

theorem steady_read : Steady read := by
  intro raw room j hj
  cases raw with
  | null | bool | number | string =>
      rw [hj.eq_of_scalar trivial]
      rfl
  | array raws =>
      obtain ⟨inner, js, -, rfl, -⟩ := hj.array
      rfl
  | object raws =>
      obtain ⟨inner, es, hinner, rfl, hnodup, hes⟩ := hj.object
      rw [Draft.ofJson, Draft.ofJson, toOption_read_object hinner, toOption_read_object rfl,
        walk_settled (indifferent_takeUp none) (fun e _ j s hj => steady_takeUp s e.1 hj) hnodup
          hes]

end Options

/-! ### Nodes -/

namespace Sketch

/-- The fields of a node. -/
def fields : FieldList Slots :=
  [field "type_" ⟨Slots.kind, fun s v => { s with kind := v }⟩ fun _ => readString,
   field "arguments_" ⟨Slots.arguments, fun s v => { s with arguments := v }⟩ readArguments,
   field "source_" ⟨Slots.source, fun s v => { s with source := v }⟩ readSource,
   field "options_" ⟨Slots.options, fun s v => { s with options := v }⟩ fun room =>
     readOptional (Options.read room),
   field "location_" ⟨Slots.location, fun s v => { s with location := v }⟩ fun room =>
     readOptional (readLocation room)]

/-- The entries of a node are gone through one by one. -/
theorem readFields_eq_walk (room : Room) (s : Slots) (entries : Fields) :
    readFields room s entries = entries.walk (stepOf fields passing room) s := by
  match entries with
  | .close => rfl
  | .stop f => rfl
  | .field key d rest =>
      have ih := fun s => readFields_eq_walk room s rest
      rw [readFields, Fields.walk]
      refine bind_congr fun key => ?_
      simp only [← ih]
      simp only [fields, field, stepOf_cons]
      split_ifs with htype harguments hsource hoptions hlocation
      · subst htype
        simp only [bind_assoc, pure_bind]
      · subst harguments
        simp only [bind_assoc, pure_bind]
      · subst hsource
        simp only [bind_assoc, pure_bind]
      · subst hoptions
        simp only [bind_assoc, pure_bind]
      · subst hlocation
        simp only [bind_assoc, pure_bind]
      · show _ = passing room s key d >>= _
        simp only [passing, bind_assoc, pure_bind]

theorem fields_commute : fields.Pairwise FieldsCommute := by
  simp [fields, Slot.Apart.commute, Slot.apart_iff]

theorem steady_fields {raw : Json} (h : SteadyAt readSource raw) :
    ∀ f ∈ fields, SteadyField f raw := by
  simp only [fields, List.forall_mem_cons]
  exact ⟨(steady_readString raw).field _ _, (steady_readArguments raw).field _ _, h.field _ _,
    (Options.steady_read.optional raw).field _ _, (steady_readLocation.optional raw).field _ _,
    List.forall_mem_nil _⟩

theorem readFields_settled {room : Room} {raws es : List (String × Json)}
    (h : ∀ e ∈ raws, SteadyAt readSource e.2) (hnodup : (raws.map Prod.fst).Nodup)
    (hes : List.Forall₂ (SettlesEntry room) raws es) (s : Slots) :
    (readFields room s (Fields.ofJson raws)).toOption
      = (readFields none s (Fields.ofJson (Entries.ofList es))).toOption := by
  rw [readFields_eq_walk, readFields_eq_walk]
  refine walk_settled (indifferent_passing fields_commute none) (fun e he j s hj => ?_) hnodup hes s
  exact steady_stepOf (steady_fields (h e he)) (steady_passing e.2) s e.1 hj

/-- The fields of a node in an array. -/
theorem readItems_settled {room : Room} {raws js : List Json}
    (h : ∀ raw ∈ raws, SteadyAt readSource raw) (hjs : List.Forall₂ (Settles room) raws js)
    (taken : Nat) (s : Slots) :
    (readItems room taken s (Items.ofJson raws)).toOption
      = (readItems none taken s (Items.ofJson js)).toOption := by
  induction hjs generalizing taken s with
  | nil => rfl
  | @cons raw j raws js hj _ ih =>
      obtain ⟨hraw, hraws⟩ := List.forall_mem_cons.mp h
      have hrest := ih hraws
      rw [Items.ofJson, Items.ofJson]
      rcases taken with _ | _ | _ | _ | _ | taken
      · exact toOption_bind_congr (steady_readString raw room j hj) fun v => hrest 1 _
      · exact toOption_bind_congr (steady_readArguments raw room j hj) fun v => hrest 2 _
      · exact toOption_bind_congr (hraw room j hj) fun v => hrest 3 _
      · exact toOption_bind_congr (Options.steady_read.optional raw room j hj) fun v => hrest 4 _
      · exact toOption_bind_congr (steady_readLocation.optional raw room j hj) fun v => hrest 5 _
      · cases room <;> rfl

theorem readNodes_settled {raws js : List Json} (h : ∀ raw ∈ raws, SteadyAt read raw)
    (hjs : List.Forall₂ (Settles none) raws js) :
    (readNodes (Items.ofJson raws)).toOption = (readNodes (Items.ofJson js)).toOption := by
  induction hjs with
  | nil => rfl
  | cons hj _ ih =>
      obtain ⟨hraw, hraws⟩ := List.forall_mem_cons.mp h
      refine toOption_bind_congr (hraw none _ hj) fun n => ?_
      exact toOption_bind_congr (ih hraws) fun ns => rfl

theorem toOption_read_object {room inner : Room} (hinner : room.enter = .ok inner)
    (entries : Fields) : (read room (.object entries)).toOption
      = (readFields inner .empty entries).toOption.bind fun s => s.node.toOption := by
  rw [read, Room.enterOrFail, hinner]
  show (readFields inner .empty entries >>= Slots.node).toOption = _
  exact toOption_bind _ _

theorem toOption_read_array {room inner : Room} (hinner : room.enter = .ok inner) (items : Items) :
    (read room (.array items)).toOption = (readItems inner 0 .empty items).toOption := by
  rw [read, Room.enterOrFail, hinner]
  rfl

/-- An array is read as several nodes or else as one. -/
theorem toOption_readSource_array {room : Room} {items : Items} {j : Json}
    (hj : (Draft.array items).toJson room = .ok j) :
    (readSource room (.array items)).toOption
      = ((readNodes items).toOption.map Source.nodes).or
          ((readItems none 0 .empty items).toOption.map Source.one) := by
  rw [readSource, readJson, hj]
  cases readNodes items with
  | ok ns => rfl
  | error e => cases readItems none 0 .empty items <;> rfl

/-- An object is read as one node. -/
theorem toOption_readSource_object {room : Room} {entries : Fields} {j : Json}
    (hj : (Draft.object entries).toJson room = .ok j) :
    (readSource room (.object entries)).toOption
      = ((readFields none .empty entries).toOption.bind fun s => s.node.toOption).map
          Source.one := by
  rw [readSource, readJson, hj]
  cases readFields none .empty entries with
  | error e => rfl
  | ok s =>
      simp only [Read.ofFault, Except.mapError, bind, Except.bind, Except.toOption,
        Option.bind_some]
      cases s.node <;> rfl

/-- **Nodes and sources are read steadily.** -/
theorem steady_read_source (raw : Json) : SteadyAt read raw ∧ SteadyAt readSource raw := by
  induction raw using Json.induction with
  | null | bool | number | string =>
      refine ⟨fun room j hj => ?_, fun room j hj => ?_⟩
      · rw [hj.eq_of_scalar trivial]
        rfl
      · rw [hj.eq_of_scalar trivial]
        rfl
  | array raws ih =>
      have hread := fun raw hraw => (ih raw hraw).1
      have hsource := fun raw hraw => (ih raw hraw).2
      refine ⟨fun room j hj => ?_, fun room j hj => ?_⟩
      · obtain ⟨inner, js, hinner, rfl, hjs⟩ := hj.array
        rw [Draft.ofJson, Draft.ofJson, toOption_read_array hinner, toOption_read_array rfl]
        exact readItems_settled hsource hjs 0 .empty
      · have hagain := hj.again
        obtain ⟨inner, js, hinner, rfl, hjs⟩ := hj.widen.array
        obtain rfl : none = inner := Except.ok.inj hinner
        rw [Draft.ofJson] at hagain
        rw [Draft.ofJson, Draft.ofJson, toOption_readSource_array hj.read,
          toOption_readSource_array hagain, readNodes_settled hread hjs,
          readItems_settled hsource hjs 0 .empty]
  | object raws ih =>
      have hsource : ∀ e ∈ raws, SteadyAt readSource e.2 := fun e he => (ih e he).2
      refine ⟨fun room j hj => ?_, fun room j hj => ?_⟩
      · obtain ⟨inner, es, hinner, rfl, hnodup, hes⟩ := hj.object
        rw [Draft.ofJson, Draft.ofJson, toOption_read_object hinner, toOption_read_object rfl,
          readFields_settled hsource hnodup hes]
      · have hagain := hj.again
        obtain ⟨inner, es, hinner, rfl, hnodup, hes⟩ := hj.widen.object
        obtain rfl : none = inner := Except.ok.inj hinner
        rw [Draft.ofJson] at hagain
        rw [Draft.ofJson, Draft.ofJson, toOption_readSource_object hj.read,
          toOption_readSource_object hagain, readFields_settled hsource hnodup hes]

end Sketch

/-! ### Both ways of reading a tree -/

namespace Node

/--
**A tree is the same from a text and from the value of the text.**  If a text is good JSON in
which no object repeats a key, then either neither the text nor its value is spelled as a tree,
or both give the same tree, or both are spelled as a tree that makes no sense for the same
reason.
-/
theorem ofText_eq_ofJson {text : String} {j : Json} (hread : (Document.ofText text).toJson = .ok j)
    (hdistinct : (Document.ofText text).value.distinct = true) :
    (∃ e e', ofText text = .error (.json e) ∧ ofJson j = .error (.json e')) ∨
      ofText text = ofJson j := by
  obtain ⟨raw, hdoc, hraw⟩ := Document.exists_ofJson hread
  have hsettles : Settles Room.ofText raw j := ⟨by rwa [hdoc] at hdistinct, hraw⟩
  have hsame := (Sketch.steady_read_source raw).1 Room.ofText j hsettles
  have htext : ofText text = ofSketch (Sketch.read Room.ofText (Draft.ofJson raw)) := by
    rw [ofText, hdoc, Document.read]
    cases Sketch.read Room.ofText (Draft.ofJson raw) <;> rfl
  rw [htext, ofJson]
  cases htext : Sketch.read Room.ofText (Draft.ofJson raw) with
  | ok s =>
      cases hvalue : Sketch.read none (Draft.ofJson j) with
      | ok s' =>
          rw [htext, hvalue] at hsame
          exact .inr (congrArg _ (congrArg _ (Option.some.inj hsame)))
      | error e' =>
          rw [htext, hvalue] at hsame
          cases hsame
  | error e =>
      cases hvalue : Sketch.read none (Draft.ofJson j) with
      | ok s' =>
          rw [htext, hvalue] at hsame
          cases hsame
      | error e' => exact .inl ⟨e, e', rfl, rfl⟩

/-- A text whose keys are not in order, which spells a pattern with one child. -/
theorem ofText_eq_ofJson_unordered :
    let text := "\x7b\"type_\":\"pattern\",\"source_\":[\"c\"],\"colour\":[0.5,null]\x7d"
    (∃ tree, ofText text = .ok tree) ∧ ∃ j, (Document.ofText text).toJson = .ok j ∧
      (Document.ofText text).value.distinct = true ∧
      ((∃ e e', ofText text = .error (.json e) ∧ ofJson j = .error (.json e')) ∨
        ofText text = ofJson j) := by
  intro text
  have hdistinct : (Document.ofText text).value.distinct = true := by decide +kernel
  obtain ⟨j, hj⟩ : ∃ j, (Document.ofText text).toJson = .ok j :=
    exists_of_isOk (by decide +kernel)
  exact ⟨exists_of_isOk (by decide +kernel), j, hj, hdistinct, ofText_eq_ofJson hj hdistinct⟩

end Node

end CyclePatterns

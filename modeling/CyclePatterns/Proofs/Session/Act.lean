/-
What an action does to a session.

An action depends on a session only by what its name stands for, and what comes of it is an
answer, findings, and perhaps a pattern.  Where the findings go is another matter: behind what
is in one sink, and which one it is depends on the session.  `Effect` lists the ways in which
a session may change, and `effect_act` says that there are no others.

From there on it matters only which sinks are written to.  In a session without a common sink
every compilation has one that no other has, so that a name sees nothing of what is done under
other names.
-/
import CyclePatterns.Proofs.Compile.Sink
import CyclePatterns.Session
import Mathlib.Data.List.Nodup

namespace CyclePatterns

/-- What comes of an action, wherever its findings go. -/
structure Response where
  answer : Session.Answer
  found : List Diagnostic
  /-- The pattern of a compilation that is made. -/
  made : Option Score

/-- What comes of an action under a name that stands for a pattern, or for none. -/
def Session.Action.respond (config : Config) (current : Option Score) : Action → Response
  | compile tree =>
    ⟨.compiled, (config.compile tree).diagnostics, some (config.compile tree).pattern⟩
  | tryCompile tree =>
    match config.tryCompile tree with
    | .ok c => ⟨.compiled, c.diagnostics, some c.pattern⟩
    | .error e => ⟨.failed e, [], none⟩
  | query q =>
    match current with
    | some p => ⟨.haps (q.haps p), q.reports p, none⟩
    | none => ⟨.noSuchName, [], none⟩

/-- The compilations made under a name, once the response is among them. -/
def Response.after (r : Response) (shown : List Compilation) : List Compilation :=
  match r.made, shown with
  | some p, shown => ⟨p, r.found⟩ :: shown
  | none, [] => []
  | none, c :: rest => ⟨c.pattern, c.diagnostics ++ r.found⟩ :: rest

namespace Session

/-- The pattern that a name stands for. -/
def current (s : Session) (name : String) : Option Score :=
  (s.find? name).map Stored.pattern

/-- The compilations that were made under a name, the last one first. -/
def under (s : Session) (name : String) : List Stored :=
  (s.stored.filter (·.1 == name)).map Prod.snd

/-- The compilations that were made under a name, with what they have found so far. -/
def shown (s : Session) (name : String) : List Compilation :=
  (s.under name).map fun c => ⟨c.pattern, s.logOf c⟩

/-- A session with findings behind what is in a sink. -/
def extend (s : Session) (sink : Nat) (found : List Diagnostic) : Session :=
  s.write sink (s.held sink ++ found)

/-- The ways in which a session may change by what comes of an action. -/
inductive Effect (s : Session) (name : String) : Response → Session → Prop
  | made {found : List Diagnostic} {p : Score} :
      Effect s name ⟨.compiled, found, some p⟩
        ((s.openSink.2.extend s.openSink.1 found).store name p s.openSink.1)
  | failed {e : CompileError} :
      Effect s name ⟨.failed e, [], none⟩ (s.openSink.2.extend s.openSink.1 [])
  | queried {c : Stored} {hs : List (Hap Value)} {found : List Diagnostic}
      (h : s.find? name = some c) :
      Effect s name ⟨.haps hs, found, none⟩ (s.extend c.sink found)
  | unknown (h : s.find? name = none) : Effect s name ⟨.noSuchName, [], none⟩ s

/-- The sink of a new compilation is the common one, or one that was not there before. -/
theorem openSink_cases (s : Session) :
    (∃ i, s.shared = some i ∧ s.openSink = (i, s)) ∨
      (s.shared = none ∧
        s.openSink = (s.sinks.length, { s with sinks := s.sinks ++ [[]] })) := by
  unfold openSink
  cases hshared : s.shared with
  | some i => exact .inl ⟨i, rfl, rfl⟩
  | none => exact .inr ⟨rfl, rfl⟩

theorem config_openSink (s : Session) : s.openSink.2.config = s.config := by
  rcases s.openSink_cases with ⟨i, -, hopen⟩ | ⟨-, hopen⟩ <;> rw [hopen]

/-- **An action gives its answer and has one of the effects.** -/
theorem effect_act (s : Session) (name : String) (a : Action) :
    (s.act name a).2 = (a.respond s.config (s.current name)).answer ∧
      Effect s name (a.respond s.config (s.current name)) (s.act name a).1 := by
  cases a with
  | compile tree =>
      simp only [act, Config.compileInto_eq, config_openSink]
      exact ⟨rfl, .made⟩
  | tryCompile tree =>
      simp only [act, Config.tryCompileInto_eq, config_openSink, Action.respond]
      cases s.config.tryCompile tree with
      | ok c => exact ⟨rfl, .made⟩
      | error e =>
          have hnothing : s.openSink.2.write s.openSink.1 (s.openSink.2.held s.openSink.1)
              = s.openSink.2.extend s.openSink.1 [] := by
            rw [extend, List.append_nil]
          simp only [Compilation.into, hnothing]
          exact ⟨trivial, .failed⟩
  | query q =>
      simp only [act, Action.respond, current]
      cases h : s.find? name with
      | some c => exact ⟨rfl, .queried h⟩
      | none => exact ⟨rfl, .unknown h⟩

/-! ### What all effects keep -/

variable {s s' : Session} {name : String} {r : Response}

theorem shared_openSink (s : Session) : s.openSink.2.shared = s.shared := by
  rcases s.openSink_cases with ⟨i, -, hopen⟩ | ⟨-, hopen⟩ <;> rw [hopen]

theorem stored_openSink (s : Session) : s.openSink.2.stored = s.stored := by
  rcases s.openSink_cases with ⟨i, -, hopen⟩ | ⟨-, hopen⟩ <;> rw [hopen]

theorem Effect.config_eq (h : Effect s name r s') : s'.config = s.config := by
  cases h with
  | made => exact s.config_openSink
  | failed => exact s.config_openSink
  | queried h => rfl
  | unknown h => rfl

theorem Effect.shared_eq (h : Effect s name r s') : s'.shared = s.shared := by
  cases h with
  | made => exact s.shared_openSink
  | failed => exact s.shared_openSink
  | queried h => rfl
  | unknown h => rfl

/-- The patterns that were made, under which names. -/
def history (s : Session) : List (String × Score) :=
  s.stored.map fun c => (c.1, c.2.pattern)

/-- What is done to sinks does not show in the history. -/
theorem Effect.history_eq (h : Effect s name r s') :
    s'.history = (r.made.toList.map fun p => (name, p)) ++ s.history := by
  cases h with
  | made => exact congrArg (fun l => (name, _) :: List.map _ l) s.stored_openSink
  | failed => exact congrArg (List.map _) s.stored_openSink
  | queried h => rfl
  | unknown h => rfl

/-! ### What a name stands for -/

theorem mem_under {c : Stored} : c ∈ s.under name ↔ (name, c) ∈ s.stored := by
  simp [under]

/-- A name stands for the last compilation that was made under it. -/
theorem find?_eq_head? (s : Session) (name : String) : s.find? name = (s.under name).head? := by
  unfold find? under
  induction s.stored with
  | nil => rfl
  | cons c rest ih =>
      rw [List.lookup_cons, List.filter_cons]
      by_cases hname : name = c.1
      · have hfirst : (name == c.1) = true := beq_iff_eq.mpr hname
        rw [hfirst, if_pos (beq_iff_eq.mpr hname.symm)]
        rfl
      · have hother : (name == c.1) = false := beq_false_of_ne hname
        rw [hother, if_neg (Bool.eq_false_iff.mp (beq_false_of_ne (Ne.symm hname))), ← ih]

theorem current_eq_head? (s : Session) (name : String) :
    s.current name = (s.shown name).head?.map Compilation.pattern := by
  rw [current, find?_eq_head?, shown]
  cases s.under name <;> rfl

theorem current_eq_lookup (s : Session) (name : String) :
    s.current name = s.history.lookup name := by
  unfold current find? history
  induction s.stored with
  | nil => rfl
  | cons c rest ih =>
      rw [List.map_cons, List.lookup_cons, List.lookup_cons, ← ih]
      cases name == c.1 <;> rfl

/-! ### Sinks -/

/-- Every sink that a session knows of is there. -/
structure Sound (s : Session) : Prop where
  common : ∀ i, s.shared = some i → i < s.sinks.length
  exist : ∀ c ∈ s.stored, c.2.sink < s.sinks.length

theorem held_openSink (s : Session) (i : Nat) : s.openSink.2.held i = s.held i := by
  rcases s.openSink_cases with ⟨_, -, hopen⟩ | ⟨-, hopen⟩
  · rw [hopen]
  · rw [hopen]
    show (s.sinks ++ [[]]).getD i [] = s.sinks.getD i []
    rw [List.getD_eq_getElem?_getD, List.getD_eq_getElem?_getD, List.getElem?_append]
    by_cases hi : i < s.sinks.length
    · rw [if_pos hi]
    · rw [if_neg hi, List.getElem?_eq_none (Nat.le_of_not_lt hi)]
      cases i - s.sinks.length <;> rfl

theorem length_extend (s : Session) (i : Nat) (found : List Diagnostic) :
    (s.extend i found).sinks.length = s.sinks.length :=
  List.length_set

theorem held_extend {i : Nat} (hi : i < s.sinks.length) (found : List Diagnostic) (j : Nat) :
    (s.extend i found).held j = if j = i then s.held j ++ found else s.held j := by
  unfold extend write held
  by_cases hj : j = i
  · rw [if_pos hj, hj]
    simp [List.getD_eq_getElem?_getD, hi]
  · rw [if_neg hj]
    simp [List.getD_eq_getElem?_getD, List.getElem?_set_ne (Ne.symm hj)]

theorem length_le_openSink (s : Session) : s.sinks.length ≤ s.openSink.2.sinks.length := by
  rcases s.openSink_cases with ⟨i, -, hopen⟩ | ⟨-, hopen⟩
  · simp only [hopen, Nat.le_refl]
  · simp [hopen]

/-- Sinks are opened and never taken away. -/
theorem Effect.length_le (h : Effect s name r s') : s.sinks.length ≤ s'.sinks.length := by
  cases h with
  | made => exact Nat.le_trans s.length_le_openSink (Nat.le_of_eq (length_extend _ _ _).symm)
  | failed => exact Nat.le_trans s.length_le_openSink (Nat.le_of_eq (length_extend _ _ _).symm)
  | queried h => exact Nat.le_of_eq (length_extend _ _ _).symm
  | unknown h => exact Nat.le_refl _

namespace Sound

theorem openSink_lt (h : Sound s) : s.openSink.1 < s.openSink.2.sinks.length := by
  rcases s.openSink_cases with ⟨i, hshared, hopen⟩ | ⟨-, hopen⟩
  · rw [hopen]
    exact h.common i hshared
  · rw [hopen]
    simp

theorem sink_lt (h : Sound s) {c : Stored} (hc : s.find? name = some c) :
    c.sink < s.sinks.length := by
  rw [find?_eq_head?] at hc
  exact h.exist _ (mem_under.mp (List.mem_of_head? hc))

theorem effect (h : Sound s) (heffect : Effect s name r s') : Sound s' := by
  have hlength := heffect.length_le
  constructor
  · intro i hi
    exact Nat.lt_of_lt_of_le (h.common i (heffect.shared_eq ▸ hi)) hlength
  · have hkept : ∀ c ∈ s.stored, c.2.sink < s'.sinks.length :=
      fun c hc => Nat.lt_of_lt_of_le (h.exist c hc) hlength
    cases heffect with
    | made =>
        refine List.forall_mem_cons.mpr ⟨?_, fun c hc => hkept c (s.stored_openSink ▸ hc)⟩
        exact Nat.lt_of_lt_of_eq h.openSink_lt (length_extend _ _ _).symm
    | failed => exact fun c hc => hkept c (s.stored_openSink ▸ hc)
    | queried hc => exact hkept
    | unknown hc => exact hkept

/-- **All that is found goes behind what is in one sink**, and nothing else is written. -/
theorem writes (h : Sound s) (heffect : Effect s name r s') :
    ∃ i, (i < s'.sinks.length ∨ r.found = []) ∧
      ∀ j, s'.held j = if j = i then s.held j ++ r.found else s.held j := by
  cases heffect with
  | @made found p =>
      refine ⟨s.openSink.1, .inl (Nat.lt_of_lt_of_eq h.openSink_lt (length_extend _ _ _).symm),
        fun j => ?_⟩
      have hheld := held_extend h.openSink_lt found j
      rwa [held_openSink] at hheld
  | failed =>
      refine ⟨s.openSink.1, .inr rfl, fun j => ?_⟩
      have hheld := held_extend h.openSink_lt [] j
      rwa [held_openSink] at hheld
  | @queried c hs found hc =>
      refine ⟨c.sink, .inl (Nat.lt_of_lt_of_eq (h.sink_lt hc) (length_extend _ _ _).symm), ?_⟩
      exact held_extend (h.sink_lt hc) found
  | unknown hc =>
      refine ⟨0, .inr rfl, fun j => ?_⟩
      rw [List.append_nil, ite_self]

end Sound

/-! ### Compilations with sinks of their own -/

/-- Every compilation has a sink that no other has. -/
structure Own (s : Session) : Prop extends Sound s where
  unshared : s.shared = none
  distinct : (s.stored.map (·.2.sink)).Nodup

theorem held_length (s : Session) : s.held s.sinks.length = [] := by
  simp [held]

theorem shown_congr {t : Session} {other : String} (hunder : t.under other = s.under other)
    (hheld : ∀ c ∈ s.under other, t.held c.sink = s.held c.sink) :
    t.shown other = s.shown other := by
  rw [shown, shown, hunder]
  exact List.map_congr_left fun c hc => congrArg (Compilation.mk c.pattern) (hheld c hc)

theorem shown_store (s : Session) (name : String) (p : Score) (i : Nat) (other : String) :
    (s.store name p i).shown other
      = if name = other then ⟨p, s.held i⟩ :: s.shown other else s.shown other := by
  simp only [shown, under, store, List.filter_cons, beq_iff_eq]
  by_cases h : name = other
  · rw [if_pos h, if_pos h]
    rfl
  · rw [if_neg h, if_neg h]
    rfl

namespace Own

theorem openSink_fst (h : Own s) : s.openSink.1 = s.sinks.length := by
  rcases s.openSink_cases with ⟨i, hshared, -⟩ | ⟨-, hopen⟩
  · rw [h.unshared] at hshared
    cases hshared
  · rw [hopen]

theorem effect (h : Own s) (heffect : Effect s name r s') : Own s' where
  toSound := h.toSound.effect heffect
  unshared := heffect.shared_eq.trans h.unshared
  distinct := by
    cases heffect with
    | made =>
        have hdistinct : (s.openSink.2.stored.map (·.2.sink)).Nodup := s.stored_openSink ▸ h.distinct
        refine List.nodup_cons.mpr ⟨?_, hdistinct⟩
        intro hmem
        obtain ⟨c, hc, hsink⟩ := List.mem_map.mp hmem
        have hlt := h.exist c (s.stored_openSink ▸ hc)
        dsimp only at hsink
        rw [hsink, h.openSink_fst] at hlt
        exact Nat.lt_irrefl _ hlt
    | failed =>
        show (s.openSink.2.stored.map (·.2.sink)).Nodup
        rw [stored_openSink]
        exact h.distinct
    | queried hc => exact h.distinct
    | unknown hc => exact h.distinct

/-- What is written behind a sink of one compilation shows in no other. -/
theorem eq_of_sink_eq (h : Own s) {c d : String × Stored} (hc : c ∈ s.stored) (hd : d ∈ s.stored)
    (hsink : c.2.sink = d.2.sink) : c = d :=
  List.inj_on_of_nodup_map h.distinct hc hd hsink

/-- A sink that is opened shows in no compilation that there is. -/
theorem shown_opened (h : Own s) (found : List Diagnostic) (other : String) :
    (s.openSink.2.extend s.openSink.1 found).shown other = s.shown other := by
  refine shown_congr (congrArg (fun l => (List.filter _ l).map _) s.stored_openSink) fun c hc => ?_
  have hold := h.exist _ (mem_under.mp hc)
  rw [held_extend h.openSink_lt, held_openSink, h.openSink_fst, if_neg (Nat.ne_of_lt hold)]

theorem held_opened (h : Own s) (found : List Diagnostic) :
    (s.openSink.2.extend s.openSink.1 found).held s.openSink.1 = found := by
  rw [held_extend h.openSink_lt, if_pos rfl, held_openSink, h.openSink_fst, held_length,
    List.nil_append]

theorem distinct_under (h : Own s) (name : String) :
    ((s.under name).map Stored.sink).Nodup := by
  rw [under, List.map_map]
  exact h.distinct.sublist (List.filter_sublist.map _)

/-- What a compilation goes on to report shows in it, and not in those it has replaced. -/
theorem shown_extend_self (h : Own s) {c : Stored} (hc : s.find? name = some c)
    (found : List Diagnostic) :
    ∃ rest, s.shown name = ⟨c.pattern, s.held c.sink⟩ :: rest ∧
      (s.extend c.sink found).shown name = ⟨c.pattern, s.held c.sink ++ found⟩ :: rest := by
  have hlt := h.sink_lt hc
  rw [find?_eq_head?] at hc
  obtain ⟨rest, hunder⟩ := List.head?_eq_some_iff.mp hc
  have hdistinct := h.distinct_under name
  rw [hunder, List.map_cons, List.nodup_cons] at hdistinct
  refine ⟨rest.map fun d => ⟨d.pattern, s.held d.sink⟩, ?_, ?_⟩
  · rw [shown, hunder]
    rfl
  · have hself : (s.extend c.sink found).under name = c :: rest := hunder
    rw [shown, hself, List.map_cons, logOf, held_extend hlt, if_pos rfl]
    refine congrArg (List.cons _) (List.map_congr_left fun d hd => ?_)
    rw [logOf, held_extend hlt, if_neg]
    intro hsink
    exact hdistinct.1 (List.mem_map.mpr ⟨d, hd, hsink⟩)

/-- What a compilation goes on to report shows under no other name. -/
theorem shown_extend_other (h : Own s) {c : Stored} (hc : s.find? name = some c)
    (found : List Diagnostic) {other : String} (hother : name ≠ other) :
    (s.extend c.sink found).shown other = s.shown other := by
  refine shown_congr rfl fun d hd => ?_
  rw [find?_eq_head?] at hc
  have hmem := mem_under.mp (List.mem_of_head? hc)
  rw [held_extend (h.exist _ hmem), if_neg]
  intro hsink
  exact hother (congrArg Prod.fst (h.eq_of_sink_eq hmem (mem_under.mp hd) hsink.symm))

/-- **An action adds to what its own name shows.** -/
theorem shown_self (h : Own s) (heffect : Effect s name r s') :
    s'.shown name = r.after (s.shown name) := by
  cases heffect with
  | made =>
      rw [shown_store, if_pos rfl, h.shown_opened, h.held_opened]
      rfl
  | failed =>
      rw [h.shown_opened]
      cases s.shown name with
      | nil => rfl
      | cons c rest =>
          show c :: rest = ⟨c.pattern, c.diagnostics ++ []⟩ :: rest
          rw [List.append_nil]
  | @queried c hs found hc =>
      obtain ⟨rest, hshown, hextended⟩ := h.shown_extend_self hc found
      rw [hextended, hshown]
      rfl
  | unknown hc =>
      rw [find?_eq_head?, List.head?_eq_none_iff] at hc
      rw [shown, hc]
      rfl

/-- **An action does not show under any other name.** -/
theorem shown_other (h : Own s) (heffect : Effect s name r s') {other : String}
    (hother : name ≠ other) : s'.shown other = s.shown other := by
  cases heffect with
  | made => rw [shown_store, if_neg hother, h.shown_opened]
  | failed => exact h.shown_opened [] other
  | queried hc => exact h.shown_extend_other hc _ hother
  | unknown hc => rfl

end Own

/-! ### Compilations with one sink in common -/

/-- All compilations write to the first sink. -/
structure Common (s : Session) : Prop where
  shared : s.shared = some 0
  opened : 0 < s.sinks.length
  stored : ∀ c ∈ s.stored, c.2.sink = 0

namespace Common

theorem sound (h : Common s) : Sound s where
  common := by
    intro i hi
    rw [h.shared] at hi
    exact Option.some.inj hi ▸ h.opened
  exist := fun c hc => (h.stored c hc).symm ▸ h.opened

theorem openSink_eq (h : Common s) : s.openSink = (0, s) := by
  rcases s.openSink_cases with ⟨i, hshared, hopen⟩ | ⟨hshared, -⟩
  · rw [hopen, Option.some.inj (hshared.symm.trans h.shared)]
  · rw [h.shared] at hshared
    cases hshared

theorem sink_eq (h : Common s) : s.sink = s.held 0 := by
  rw [sink, h.shared]
  rfl

theorem effect (h : Common s) (heffect : Effect s name r s') : Common s' where
  shared := heffect.shared_eq.trans h.shared
  opened := Nat.lt_of_lt_of_le h.opened heffect.length_le
  stored := by
    cases heffect with
    | made =>
        rw [h.openSink_eq]
        exact List.forall_mem_cons.mpr ⟨rfl, h.stored⟩
    | failed =>
        rw [h.openSink_eq]
        exact h.stored
    | queried hc => exact h.stored
    | unknown hc => exact h.stored

/-- **An action adds to the common sink what comes of it.** -/
theorem sink_effect (h : Common s) (heffect : Effect s name r s') :
    s'.sink = s.sink ++ r.found := by
  have hextend : ∀ found, (s.extend 0 found).held 0 = s.held 0 ++ found :=
    fun found => held_extend h.opened found 0
  rw [(h.effect heffect).sink_eq, h.sink_eq]
  cases heffect with
  | made =>
      rw [h.openSink_eq]
      exact hextend _
  | failed =>
      rw [h.openSink_eq]
      exact hextend _
  | @queried c hs found hc =>
      rw [find?_eq_head?] at hc
      have hsink : c.sink = 0 := h.stored _ (mem_under.mp (List.mem_of_head? hc))
      rw [hsink]
      exact hextend _
  | unknown hc => exact (List.append_nil _).symm

end Common

/-! ### What is added to sinks -/

/-- What the sinks of a session hold beyond what they held before. -/
def gained (before after : Session) : List Diagnostic :=
  (List.range after.sinks.length).flatMap fun i => (after.held i).drop (before.held i).length

theorem flatMap_range_ite {α : Type} (l : List α) (i n : Nat) :
    (List.range n).flatMap (fun j => if j = i then l else []) = if i < n then l else [] := by
  induction n with
  | zero => rfl
  | succ n ih =>
      rw [List.range_succ, List.flatMap_append, ih, List.flatMap_singleton]
      by_cases hi : i = n
      · rw [hi, if_neg (Nat.lt_irrefl n), if_pos rfl, if_pos (Nat.lt_succ_self n), List.nil_append]
      · have hiff : i < n ↔ i < n + 1 := by omega
        rw [if_neg (Ne.symm hi), List.append_nil, if_congr hiff rfl rfl]

/-- What is gained is what was found. -/
theorem Sound.gained_effect (h : Sound s) (heffect : Effect s name r s') :
    gained s s' = r.found := by
  obtain ⟨i, hi, hheld⟩ := h.writes heffect
  have hdrop : ∀ j, (s'.held j).drop (s.held j).length = if j = i then r.found else [] := by
    intro j
    rw [hheld]
    by_cases hj : j = i
    · rw [if_pos hj, if_pos hj, List.drop_left]
    · rw [if_neg hj, if_neg hj, List.drop_length]
  rw [gained, List.flatMap_congr fun j _ => hdrop j, flatMap_range_ite]
  rcases hi with hi | hnil
  · rw [if_pos hi]
  · rw [hnil, ite_self]

end Session

end CyclePatterns

/-
What names see of each other in a session.

Without a common sink they see nothing: leaving out all that is done under other names changes
neither the answers under a name nor what its compilations have found.  The induction is over
two runs at once, of which only one does what is done under other names, and what they agree in
is what the one name shows.

A common sink changes no answer, since answers depend on patterns only.  It is never shortened,
and what it holds at the end is what each action would have added to the sinks of a session
without it.
-/
import CyclePatterns.Proofs.Session.Act

namespace CyclePatterns

namespace Session

/-- Actions under names, one after another. -/
abbrev Script := List (String × Action)

/-- The session once all is done. -/
def run (s : Session) : Script → Session
  | [] => s
  | (name, a) :: rest => (s.act name a).1.run rest

/-- The answers, with the names that they are given under. -/
def transcript (s : Session) : Script → List (String × Answer)
  | [] => []
  | (name, a) :: rest => (name, (s.act name a).2) :: (s.act name a).1.transcript rest

/-- What the actions add to sinks, one action after another. -/
def gains (s : Session) : Script → List Diagnostic
  | [] => []
  | (name, a) :: rest => gained s (s.act name a).1 ++ (s.act name a).1.gains rest

/-- What is done under a name. -/
def Script.only (name : String) (steps : Script) : Script :=
  steps.filter (·.1 == name)

variable {s t : Session}

theorem run_append (s : Session) (before after : Script) :
    s.run (before ++ after) = (s.run before).run after := by
  induction before generalizing s with
  | nil => rfl
  | cons step rest ih => exact ih (s.act step.1 step.2).1

/-- Where every session starts, everything has its sink. -/
theorem own_start (config : Config) : Own (start config false) where
  common := fun _ h => nomatch h
  exist := fun _ h => nomatch h
  unshared := rfl
  distinct := List.nodup_nil

theorem common_start (config : Config) : Common (start config true) where
  shared := rfl
  opened := Nat.zero_lt_one
  stored := fun _ h => nomatch h

/-- What every action keeps, a whole script keeps. -/
theorem run_induction {motive : Session → Prop}
    (hact : ∀ s name a, motive s → motive (s.act name a).1) (h : motive s) (steps : Script) :
    motive (s.run steps) := by
  induction steps generalizing s with
  | nil => exact h
  | cons step rest ih => exact ih (hact s step.1 step.2 h)

theorem Own.after_run (h : Own s) (steps : Script) : Own (s.run steps) :=
  run_induction (fun s name a hs => hs.effect (effect_act s name a).2) h steps

theorem Common.after_run (h : Common s) (steps : Script) : Common (s.run steps) :=
  run_induction (fun s name a hs => hs.effect (effect_act s name a).2) h steps

theorem config_run (s : Session) (steps : Script) : (s.run steps).config = s.config :=
  run_induction (motive := fun t => t.config = s.config)
    (fun t name a ht => (effect_act t name a).2.config_eq.trans ht) rfl steps

theorem sound_run_start (config : Config) (shared : Bool) (steps : Script) :
    Sound ((start config shared).run steps) := by
  cases shared with
  | false => exact ((own_start config).after_run steps).toSound
  | true => exact ((common_start config).after_run steps).sound

/-! ### Two runs that agree under one name -/

/-- **A name sees only what is done under it.** -/
theorem Own.run_only (hs : Own s) (ht : Own t) (hconfig : s.config = t.config) {name : String}
    (hshown : s.shown name = t.shown name) (steps : Script) :
    (s.run steps).shown name = (t.run (steps.only name)).shown name ∧
      (s.transcript steps).filter (·.1 == name) = t.transcript (steps.only name) := by
  induction steps generalizing s t with
  | nil => exact ⟨hshown, rfl⟩
  | cons step rest ih =>
      obtain ⟨other, a⟩ := step
      obtain ⟨hanswer, heffect⟩ := effect_act s other a
      by_cases hname : other = name
      · subst hname
        obtain ⟨hanswer', heffect'⟩ := effect_act t other a
        have hcurrent : s.current other = t.current other := by
          rw [current_eq_head?, current_eq_head?, hshown]
        rw [← hconfig, ← hcurrent] at hanswer' heffect'
        have hrest := ih (hs.effect heffect) (ht.effect heffect')
          (by rw [heffect.config_eq, heffect'.config_eq, hconfig])
          (by rw [hs.shown_self heffect, ht.shown_self heffect', hshown])
        have honly : Script.only other ((other, a) :: rest) = (other, a) :: Script.only other rest :=
          List.filter_cons_of_pos (beq_self_eq_true other)
        rw [honly, transcript, transcript, hanswer, hanswer', ← hrest.2]
        exact ⟨hrest.1, List.filter_cons_of_pos (beq_self_eq_true other)⟩
      · have hrest := ih (hs.effect heffect) ht (heffect.config_eq.trans hconfig)
          ((hs.shown_other heffect hname).trans hshown)
        have hnot : ¬(other == name) = true := by simpa using hname
        have honly : Script.only name ((other, a) :: rest) = Script.only name rest :=
          List.filter_cons_of_neg hnot
        rw [honly, transcript, ← hrest.2]
        exact ⟨hrest.1, List.filter_cons_of_neg hnot⟩

/-! ### Two runs that agree in their patterns -/

/-- **A common sink takes what the actions add to other sinks**, and changes no answer. -/
theorem Common.run_gains (hs : Common s) (ht : Sound t) (hconfig : s.config = t.config)
    (hhistory : s.history = t.history) (steps : Script) :
    s.transcript steps = t.transcript steps ∧ (s.run steps).sink = s.sink ++ t.gains steps := by
  induction steps generalizing s t with
  | nil => exact ⟨rfl, (List.append_nil _).symm⟩
  | cons step rest ih =>
      obtain ⟨name, a⟩ := step
      obtain ⟨hanswer, heffect⟩ := effect_act s name a
      obtain ⟨hanswer', heffect'⟩ := effect_act t name a
      have hcurrent : s.current name = t.current name := by
        rw [current_eq_lookup, current_eq_lookup, hhistory]
      rw [← hconfig, ← hcurrent] at hanswer' heffect'
      have hrest := ih (hs.effect heffect) (ht.effect heffect')
        (by rw [heffect.config_eq, heffect'.config_eq, hconfig])
        (by rw [heffect.history_eq, heffect'.history_eq, hhistory])
      rw [transcript, transcript, hanswer, hanswer', hrest.1, run, gains, hrest.2,
        hs.sink_effect heffect, ht.gained_effect heffect', List.append_assoc]
      exact ⟨rfl, rfl⟩

/-! ### Compilations that fail -/

theorem Effect.stored_eq {s' : Session} {name : String} {r : Response} (h : Effect s name r s')
    (hmade : r.made = none) : s'.stored = s.stored := by
  cases h with
  | made => cases hmade
  | failed => exact s.stored_openSink
  | queried h => rfl
  | unknown h => rfl

/-- A compilation that fails leaves everything as it was. -/
theorem Sound.act_failing (h : Sound s) {tree : Node} {e : CompileError}
    (hfails : s.config.tryCompile tree = .error e) (name : String) :
    (s.act name (.tryCompile tree)).2 = .failed e ∧
      (s.act name (.tryCompile tree)).1.sink = s.sink ∧
        ∀ other, (s.act name (.tryCompile tree)).1.find? other = s.find? other ∧
          (s.act name (.tryCompile tree)).1.shown other = s.shown other := by
  obtain ⟨hanswer, heffect⟩ := effect_act s name (.tryCompile tree)
  have hrespond : (Action.tryCompile tree).respond s.config (s.current name)
      = ⟨.failed e, [], none⟩ := by
    rw [Action.respond, hfails]
  rw [hrespond] at hanswer heffect
  obtain ⟨i, -, hwrites⟩ := h.writes heffect
  have hheld : (s.act name (.tryCompile tree)).1.held = s.held := by
    funext j
    rw [hwrites, List.append_nil, ite_self]
  have hstored := heffect.stored_eq rfl
  refine ⟨hanswer, ?_, fun other => ⟨?_, ?_⟩⟩
  · rw [sink, sink, heffect.shared_eq, hheld]
  · rw [find?, find?, hstored]
  · refine shown_congr ?_ fun c _ => congrFun hheld c.sink
    rw [under, under, hstored]

/-! ### Sessions -/

/--
**Sessions are isolated.**  Take any actions under names.  Without a common sink, the answers
under a name, and the compilations that were made under it with all that they have found, are
those of the session in which only what names it is done.  With a common sink, every answer is
the same as without; what the sink holds is the beginning of all that it will hold; and in the
end it holds what each action adds to the sinks of the session without, one action after
another.  In either session a compilation that fails says so, adds nothing to the common sink,
and changes neither what a name stands for nor what has been found under it.
-/
theorem isolated (config : Config) (steps : Script) :
    (∀ name : String,
      ((start config false).transcript steps).filter (·.1 == name)
          = (start config false).transcript (steps.only name) ∧
        ((start config false).run steps).shown name
          = ((start config false).run (steps.only name)).shown name) ∧
    (start config true).transcript steps = (start config false).transcript steps ∧
    (∀ more : Script,
      ((start config true).run steps).sink <+: ((start config true).run (steps ++ more)).sink) ∧
    ((start config true).run steps).sink = (start config false).gains steps ∧
    (∀ (shared : Bool) (name : String) (tree : Node) (e : CompileError),
      config.tryCompile tree = .error e →
        let s := (start config shared).run steps
        let (after, answer) := s.act name (.tryCompile tree)
        answer = .failed e ∧ after.sink = s.sink ∧
          ∀ other, after.find? other = s.find? other ∧ after.shown other = s.shown other) := by
  obtain ⟨hanswers, hsink⟩ := (common_start config).run_gains (own_start config).toSound rfl rfl steps
  refine ⟨fun name => ?_, hanswers, ?_, hsink, ?_⟩
  · exact ((own_start config).run_only (own_start config) rfl rfl steps).symm
  · intro more
    have hcommon := (common_start config).after_run steps
    rw [run_append, (hcommon.run_gains hcommon.sound rfl rfl more).2]
    exact List.prefix_append _ _
  · intro shared name tree e hfails
    refine (sound_run_start config shared steps).act_failing ?_ name
    rw [config_run]
    cases shared <;> exact hfails

/-- What a query of one name finds, behind what compiling under another has found, in a common
sink that a failure leaves as it is. -/
theorem isolated_from_failure :
    let steps : Script :=
      [("a", .compile (.scale "C:major" (some (.scalar (.text "x") none none)))),
        ("b", .compile (.unknown "chord" [])), ("a", .query (.cycle 0))]
    let failing : Node := .group (.stretch 0 (some Node.rest)) none none
    let s := (start Config.default true).run steps
    let found : Sink := [.unknownNodeKind "chord", .nonNumericScaleStep "x"]
    Config.default.tryCompile failing = .error (.invalidStretchAmount 0) ∧
      (s.act "a" (.tryCompile failing)).2 = .failed (.invalidStretchAmount 0) ∧
      (s.act "a" (.tryCompile failing)).1.sink = found ∧
      (s.act "a" (.tryCompile failing)).1.find? "a" = s.find? "a" ∧
      (start Config.default false).gains steps = found := by
  intro steps failing s found
  have hfails : Config.default.tryCompile failing = .error (.invalidStretchAmount 0) := rfl
  have hfound : s.sink = found := by decide +kernel
  obtain ⟨-, -, -, hgains, hfailing⟩ := isolated Config.default steps
  obtain ⟨hanswer, hsink, hother⟩ := hfailing true "a" failing _ hfails
  exact ⟨hfails, hanswer, hsink.trans hfound, (hother "a").1, hgains.symm.trans hfound⟩

end Session

end CyclePatterns

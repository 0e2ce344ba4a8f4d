/-
Patterns with other values.

To map the values of a pattern and to change its times are two things that never meet, so it
does not matter which is done first, and patterns can be put together before their values are
mapped or after it.  The same is true of what is reported on single values, as long as it does
not get between reports of the patterns themselves: either the patterns are quiet, or nothing
is reported on their values.
-/
import CyclePatterns.Proofs.Pattern.Answer
import CyclePatterns.Proofs.Pattern.Carried

namespace CyclePatterns.Pattern

variable {ρ α β γ : Type}

/-- Patterns that answer and report alike are the same pattern. -/
theorem eq_of_answers {p q : Pattern ρ α} (hquery : ∀ s, p.query s = q.query s)
    (hreport : ∀ s, p.report s = q.report s) : p = q := by
  cases p
  cases q
  exact congrArg₂ Pattern.mk (funext hquery) (funext hreport)

/-! ### Quiet patterns -/

/-- The pattern itself has nothing to report. -/
def Quiet (p : Pattern ρ α) : Prop :=
  ∀ s, p.report s = []

theorem quiet_silence : (silence : Pattern ρ α).Quiet :=
  fun _ => rfl

theorem quiet_pure (value : α) (source : Option SourceSpan) :
    (Pattern.pure value source : Pattern ρ α).Quiet :=
  fun _ => rfl

theorem Quiet.moved {p : Pattern ρ α} (hp : p.Quiet) (e : Rat ≃o Rat) : (p.moved e).Quiet :=
  fun _ => hp _

theorem Quiet.fast {p : Pattern ρ α} (hp : p.Quiet) (a : Rat) : (p.fast a).Quiet :=
  fast_of_moved quiet_silence hp.moved a

theorem Quiet.slow {p : Pattern ρ α} (hp : p.Quiet) (a : Rat) : (p.slow a).Quiet :=
  slow_of_moved quiet_silence hp.moved a

theorem quiet_stack {ps : List (Pattern ρ α)} (hps : ∀ p ∈ ps, p.Quiet) : (stack ps).Quiet :=
  fun s => List.flatMap_eq_nil_iff.mpr fun p hp => hps p hp s

theorem quiet_inCycle {ps : List (Pattern ρ α)} (hps : ∀ p ∈ ps, p.Quiet) (c : Int) :
    (inCycle ps c).Quiet :=
  inCycle_of_moved quiet_silence (fun _ e hp => hp.moved e) hps c

theorem quiet_slowcat {ps : List (Pattern ρ α)} (hps : ∀ p ∈ ps, p.Quiet) : (slowcat ps).Quiet :=
  fun _ => List.flatMap_eq_nil_iff.mpr fun piece _ => quiet_inCycle hps _ piece

theorem quiet_fastcat {ps : List (Pattern ρ α)} (hps : ∀ p ∈ ps, p.Quiet) :
    (fastcat ps).Quiet := by
  unfold fastcat
  split
  · exact hps _ (List.mem_singleton_self _)
  · exact (quiet_slowcat hps).fast _

/-! ### Values and what there is to report on them -/

section Reporting

variable (f : α → β × List ρ)

theorem mapReporting_silence : (silence : Pattern ρ α).mapReporting f = silence := rfl

theorem mapReporting_pure {value : α} (h : (f value).2 = []) (source : Option SourceSpan) :
    (Pattern.pure value source).mapReporting f = Pattern.pure (f value).1 source := by
  refine eq_of_answers (fun s => List.map_map) fun s => ?_
  simp [mapReporting, Pattern.pure, h]

theorem mapReporting_moved (e : Rat ≃o Rat) (p : Pattern ρ α) :
    (p.moved e).mapReporting f = (p.mapReporting f).moved e := by
  refine eq_of_answers (fun s => ?_) fun s => ?_
  · simp only [query_moved, mapReporting, List.map_map]
    rfl
  · simp only [query_moved, mapReporting, List.flatMap_map]
    rfl

theorem mapReporting_fast (a : Rat) (p : Pattern ρ α) :
    (p.fast a).mapReporting f = (p.mapReporting f).fast a := by
  rcases lt_or_ge 0 a with ha | ha
  · rw [fast_eq_moved ha, fast_eq_moved ha, mapReporting_moved]
  · rw [fast_of_nonpos ha, fast_of_nonpos ha, mapReporting_silence]

theorem mapReporting_slow (a : Rat) (p : Pattern ρ α) :
    (p.slow a).mapReporting f = (p.mapReporting f).slow a := by
  rw [slow_eq_fast, slow_eq_fast, mapReporting_fast]

theorem mapReporting_inCycle (ps : List (Pattern ρ α)) (c : Int) :
    (inCycle ps c).mapReporting f = inCycle (ps.map (mapReporting f)) c := by
  rw [inCycle, inCycle, later_eq_moved, later_eq_moved, mapReporting_moved, List.length_map,
    List.getElem?_map]
  cases ps[turn ps.length c]? with
  | none => rfl
  | some p => rfl

/-- Lists that are put together pair by pair, if those on one side are all empty. -/
theorem flatMap_append_of_nil {l : List α} {g h : α → List β}
    (hnil : (∀ a ∈ l, h a = []) ∨ ∀ a ∈ l, g a = []) :
    l.flatMap (fun a => g a ++ h a) = l.flatMap g ++ l.flatMap h := by
  rcases hnil with hnil | hnil
  · rw [List.flatMap_eq_nil_iff.mpr hnil, List.append_nil]
    exact List.flatMap_congr fun a ha => by rw [hnil a ha, List.append_nil]
  · rw [List.flatMap_eq_nil_iff.mpr hnil, List.nil_append]
    exact List.flatMap_congr fun a ha => by rw [hnil a ha, List.nil_append]

variable {f} {ps : List (Pattern ρ α)}

/-- Where reports come from several patterns, those on the values stay with the pattern. -/
theorem report_mapReporting {l : List γ} {p : γ → Pattern ρ α} {piece : γ → Span}
    (h : (∀ v, (f v).2 = []) ∨ ∀ c ∈ l, (p c).Quiet) :
    (l.flatMap fun c => (p c).report (piece c)) ++
        (l.flatMap fun c => (p c).query (piece c)).flatMap (fun k => (f k.value).2)
      = l.flatMap fun c => ((p c).mapReporting f).report (piece c) := by
  rw [List.flatMap_assoc]
  refine (flatMap_append_of_nil ?_).symm
  rcases h with h | h
  · exact .inl fun c _ => List.flatMap_eq_nil_iff.mpr fun k _ => h k.value
  · exact .inr fun c hc => h c hc _

theorem mapReporting_splitQueries {p : Pattern ρ α} (h : (∀ v, (f v).2 = []) ∨ p.Quiet) :
    p.splitQueries.mapReporting f = (p.mapReporting f).splitQueries := by
  refine eq_of_answers (fun s => List.map_flatMap) fun s => ?_
  exact report_mapReporting (h.imp_right fun hp _ _ => hp)

theorem mapReporting_stack (h : (∀ v, (f v).2 = []) ∨ ∀ p ∈ ps, p.Quiet) :
    (stack ps).mapReporting f = stack (ps.map (mapReporting f)) := by
  refine eq_of_answers (fun s => ?_) fun s => ?_
  · simp only [mapReporting, stack, List.map_flatMap, List.flatMap_map]
  · simp only [stack, List.flatMap_map]
    exact report_mapReporting h

theorem mapReporting_slowcat (h : (∀ v, (f v).2 = []) ∨ ∀ p ∈ ps, p.Quiet) :
    (slowcat ps).mapReporting f = slowcat (ps.map (mapReporting f)) := by
  have hpiece (c : Int) : inCycle (ps.map (mapReporting f)) c = (inCycle ps c).mapReporting f :=
    (mapReporting_inCycle f ps c).symm
  refine eq_of_answers (fun s => ?_) fun s => ?_
  · simp only [slowcat, hpiece, mapReporting, List.map_flatMap]
  · simp only [slowcat, hpiece]
    exact report_mapReporting (h.imp_right fun hps _ _ => quiet_inCycle hps _)

theorem mapReporting_fastcat (h : (∀ v, (f v).2 = []) ∨ ∀ p ∈ ps, p.Quiet) :
    (fastcat ps).mapReporting f = fastcat (ps.map (mapReporting f)) := by
  match ps, h with
  | [], _ => rfl
  | [p], _ => rfl
  | p :: q :: ps, h =>
      rw [fastcat, mapReporting_fast, mapReporting_slowcat h, ← List.length_map (mapReporting f)]
      · rfl
      · simp

/-- Values are mapped one after the other, and what is found stays in that order. -/
theorem mapReporting_mapReporting {p : Pattern ρ α} (f : α → β) (g : β → γ × List ρ) :
    (p.mapReporting fun v => (f v, [])).mapReporting g = p.mapReporting fun v => g (f v) := by
  refine eq_of_answers (fun s => List.map_map) fun s => ?_
  simp only [mapReporting, List.flatMap_map, List.flatMap_eq_nil_iff.mpr fun _ _ => rfl,
    List.append_nil]
  rfl

/-- Only the values that there are matter. -/
theorem mapReporting_congr {p : Pattern ρ α} {f g : α → β × List ρ}
    (h : p.Carries fun v _ => f v = g v) : p.mapReporting f = p.mapReporting g := by
  refine eq_of_answers (fun s => ?_) fun s => ?_
  · exact List.map_congr_left fun k hk => by simp only [Hap.map, h s k hk]
  · refine congrArg (p.report s ++ ·) (List.flatMap_congr fun k hk => ?_)
    rw [h s k hk]

end Reporting

/-! ### Values alone -/

variable (f : α → β)

theorem map_eq_mapReporting (p : Pattern ρ α) : p.map f = p.mapReporting fun v => (f v, []) := by
  refine eq_of_answers (fun _ => rfl) fun s => ?_
  simp [map, mapReporting]

theorem map_fast (a : Rat) (p : Pattern ρ α) : (p.fast a).map f = (p.map f).fast a := by
  simp only [map_eq_mapReporting, mapReporting_fast]

theorem map_slow (a : Rat) (p : Pattern ρ α) : (p.slow a).map f = (p.map f).slow a := by
  simp only [map_eq_mapReporting, mapReporting_slow]

theorem map_splitQueries (p : Pattern ρ α) : p.splitQueries.map f = (p.map f).splitQueries := by
  rw [map_eq_mapReporting, mapReporting_splitQueries (.inl fun _ => rfl), ← map_eq_mapReporting]

variable (ps : List (Pattern ρ α))

theorem map_stack : (stack ps).map f = stack (ps.map (map f)) := by
  rw [map_eq_mapReporting, mapReporting_stack (.inl fun _ => rfl),
    ← funext fun p : Pattern ρ α => map_eq_mapReporting f p]

theorem map_slowcat : (slowcat ps).map f = slowcat (ps.map (map f)) := by
  rw [map_eq_mapReporting, mapReporting_slowcat (.inl fun _ => rfl),
    ← funext fun p : Pattern ρ α => map_eq_mapReporting f p]

theorem map_fastcat : (fastcat ps).map f = fastcat (ps.map (map f)) := by
  rw [map_eq_mapReporting, mapReporting_fastcat (.inl fun _ => rfl),
    ← funext fun p : Pattern ρ α => map_eq_mapReporting f p]

end CyclePatterns.Pattern

namespace CyclePatterns.Query

variable {ρ α β : Type}

/-- Values make no difference to the order of haps. -/
theorem haps_mapReporting (q : Query) (p : Pattern ρ α) (f : α → β × List ρ) :
    q.haps (p.mapReporting f) = (q.haps p).map (Hap.map fun v => (f v).1) := by
  cases q with
  | cycle c =>
      refine (List.map_mergeSort fun h _ k _ => ?_).symm
      rfl
  | arc s => rfl

/-- A quiet pattern leaves the reporting to its values. -/
theorem reports_mapReporting {q : Query} {p : Pattern ρ α} (hp : p.Quiet) (f : α → β × List ρ) :
    q.reports (p.mapReporting f) = (p.query q.span).flatMap fun h => (f h.value).2 := by
  simp only [reports, Pattern.mapReporting]
  rw [hp, List.nil_append]

end CyclePatterns.Query

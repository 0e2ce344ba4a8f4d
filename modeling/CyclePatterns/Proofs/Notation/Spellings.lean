/-
Two spellings of a stretch.

Whatever is bare notation by itself may stand in brackets with a mark behind it, and in quotes
with a call in front.  Both are read, although a body may be read that has no white space
between its steps, because layers are read as the same wherever they stand.  The one gives an
element with an operator and the other a node of its own, around the same child.
-/
import CyclePatterns.Proofs.Notation.Located

namespace CyclePatterns.Notation

open Reader
open Written (Gap Mark Decimal marksChars marksPhrase bracketed bodyOffset)

/-! ### Bodies -/

/-- The text is what layers are read from that say `ls` at an offset, and as much elsewhere,
in quotes and in brackets. -/
structure IsBody (text : List Char) (off : Nat) (ls : List (List Step)) : Prop where
  stops : ∀ ahead, Stops isSpace (text ++ ahead)
  takesTo : ∀ {depth : Nat} (d : Nat) {e : List Char}, text.length < depth → Ends e →
    TakesTo (layers depth) (off + d) text e (layersLocated (SourceSpan.moved d) ls)

/-- What is read in quotes are layers between white space. -/
theorem exists_of_quoted_result {depth off : Nat} {text : List Char} {a : Expression}
    {here : Cursor} (h : (quoted depth ⟨off, text⟩).result = some (a, here)) :
    ∃ (g : Gap) (cs : List Char) (g' : Gap) (ls : List (List Step)),
      text = '"' :: (g.chars ++ (cs ++ (g'.chars ++ '"' :: here.rest))) ∧
        Takes (layers depth) (bodyOffset off g) cs (g'.chars ++ '"' :: here.rest) ls ∧
          a = .quoted ls := by
  rw [quoted, result_rule] at h
  obtain ⟨_, ⟨off₁, text₁⟩, hquote, h₁⟩ := exists_of_bind h
  obtain ⟨_, htext, rfl, rfl⟩ := takesOnly_exactly _ _ _ hquote
  obtain ⟨_, ⟨off₂, text₂⟩, hgap, h₂⟩ := exists_of_bind h₁
  obtain ⟨_, rfl, rfl, g, rfl⟩ := takesOnly_space _ _ _ hgap
  obtain ⟨ls, ⟨off₃, text₃⟩, hbody, h₃⟩ := exists_of_bind h₂
  obtain ⟨cs, rfl, rfl, -⟩ := takesOnly_layers depth _ _ _ _ hbody
  obtain ⟨_, ⟨off₄, text₄⟩, hgap', h₄⟩ := exists_of_bind h₃
  obtain ⟨_, rfl, rfl, g', rfl⟩ := takesOnly_space _ _ _ hgap'
  obtain ⟨_, ⟨off₅, text₅⟩, hquote', h₅⟩ := exists_of_bind h₄
  obtain ⟨_, rfl, rfl, rfl⟩ := takesOnly_exactly _ _ _ hquote'
  obtain ⟨rfl, rfl⟩ := Prod.mk.inj (Option.some.inj h₅)
  exact ⟨g, cs, g', ls, htext, hbody, rfl⟩

/-- A text that is read is taken by an expression, white space around it set aside. -/
theorem exists_of_parse {text : List Char} {a : Expression} (h : parse text = .ok a) :
    ∃ (before after : Gap) (cs : List Char), text = before.chars ++ (cs ++ after.chars) ∧
      Stops isSpace (cs ++ after.chars) ∧
        Takes (expression (text.length + 1) (text.length + 1)) (bytes before.chars) cs after.chars
          a := by
  rw [parse] at h
  split at h
  · next found last hresult =>
      obtain rfl := Except.ok.inj h
      have hlast := rest_of_program hresult
      rw [program, result_rule] at hresult
      obtain ⟨_, mid, hspace, hresult₁⟩ := exists_of_bind hresult
      obtain ⟨_, htext, hmid, before, rfl⟩ := takesOnly_space _ _ _ hspace
      have hstops : Stops isSpace mid.rest := by
        rw [result_space] at hspace
        obtain ⟨-, rfl⟩ := Prod.mk.inj (Option.some.inj hspace)
        exact stops_dropWhile isSpace text
      obtain ⟨offset, ahead⟩ := mid
      obtain rfl : offset = bytes before.chars := hmid.trans (Nat.zero_add _)
      obtain ⟨_, ⟨off, behind⟩, hexpression, hresult₂⟩ := exists_of_bind hresult₁
      obtain ⟨_, ⟨off', behind'⟩, hgap, hresult₃⟩ := exists_of_bind hresult₂
      obtain ⟨_, _, hend, hresult₄⟩ := exists_of_bind hresult₃
      obtain ⟨rfl, rfl⟩ := Prod.mk.inj (Option.some.inj hresult₄)
      obtain ⟨cs, rfl, rfl, -⟩ := takesOnly_expression _ _ _ _ _ _ hexpression
      obtain ⟨_, hahead, -, after, rfl⟩ := takesOnly_space _ _ _ hgap
      obtain ⟨_, hbehind, -, rfl⟩ := takesOnly_atEnd.rule _ _ _ hend
      rw [hbehind, hlast, List.append_nil, List.append_nil] at hahead
      subst hahead
      exact ⟨before, after, cs, htext, hstops, hexpression⟩
  · cases h

/-- A text that begins with a quote is read in quotes to its end. -/
theorem exists_of_parse_quoted {text : List Char} {a : Expression}
    (h : parse ('"' :: text) = .ok a) :
    ∃ (depth : Nat) (here : Cursor) (g : Gap), ('"' :: text).length < depth ∧
      (quoted depth ⟨0, '"' :: text⟩).result = some (a, here) ∧ here.rest = g.chars := by
  obtain ⟨before, after, cs, htext, -, htakes⟩ := exists_of_parse h
  have hbefore : before.chars = [] := gap_eq_nil_of_cons rfl htext
  rw [hbefore, List.nil_append] at htext
  refine ⟨('"' :: text).length + 1, ⟨bytes cs, after.chars⟩, after, Nat.lt_succ_self _, ?_, rfl⟩
  have hcall : ∀ k : Call → Reader Expression,
      (rule (call >>= k) ⟨0, '"' :: text⟩).result = none :=
    fun k => Refuses.rule (Refuses.bind (refuses_call text))
  rw [Takes, hbefore, bytes_nil, Nat.zero_add, ← htext, expression] at htakes
  unfold Reader.orElse at htakes
  simpa only [hcall] using htakes

/-- What is read in quotes is read as the same anywhere else, white space behind it included. -/
theorem isBody_of_takes {depth off : Nat} {cs rest : List Char} {g : Gap} {ls : List (List Step)}
    (h : Takes (layers depth) off cs (g.chars ++ '"' :: rest) ls)
    (hdepth : (cs ++ g.chars).length < depth) : IsBody (cs ++ g.chars) off ls := by
  obtain ⟨w, g', hcs, -⟩ := (takesOnly_layers depth off).of_takes h
  refine ⟨fun ahead => ?_, fun {depth'} d {e} hdepth' he => ?_⟩
  · rw [hcs, List.append_assoc, List.append_assoc]
    exact stops_layers w _
  · have hquote : Ends ('"' :: rest) := .quote rest
    have hcloses : Closes 0 (cs ++ g.chars) := by
      rw [hcs]
      exact Nat.le_of_eq ((((level_layers w).append (level_gap g')).append (level_gap g)))
    obtain ⟨ls', htakes, rfl⟩ :=
      (agree_layers hquote he hdepth hdepth' (Nat.le_refl _) hcloses).of_takes h
    exact htakes.takesTo g (he.stops rfl rfl)

/-- **What is read as bare notation has a body**, which says what makes a tree. -/
theorem exists_body_of_ofMini {text : String} {tree : Node} (h : Node.ofMini text = .ok tree) :
    ∃ (g : Gap) (body : List Char) (ls : List (List Step)) (ns : List Node),
      text.toList = g.chars ++ body ∧ IsBody body (bodyOffset 0 g) ls ∧
        layersToNodes 0 ls = .ok ns := by
  rw [Node.ofMini, treeFrom, List.cons_append] at h
  split at h
  · next a hparse =>
      obtain ⟨depth, here, last, hdepth, hquoted, hlast⟩ := exists_of_parse_quoted hparse
      obtain ⟨g, cs, g', ls, htext, hbody, rfl⟩ := exists_of_quoted_result hquoted
      rw [hlast] at htext hbody
      have hconcat : ('"' :: text.toList) ++ ['"']
          = '"' :: (g.chars ++ (cs ++ (g'.chars ++ ['"']))) ++ last.chars := by
        simpa only [List.cons_append, List.append_assoc, List.nil_append] using htext
      have hnil : last.chars = [] := gap_eq_nil_of_concat rfl hconcat
      rw [hnil] at hbody htext
      have hsplit : text.toList = g.chars ++ (cs ++ g'.chars) := by
        rw [← List.append_assoc, ← List.append_assoc] at htext
        rw [← List.append_assoc]
        exact List.append_cancel_right (List.cons.inj htext).2
      have hshort : (cs ++ g'.chars).length < depth := by
        rw [List.length_cons, List.length_append, hsplit, List.length_append] at hdepth
        omega
      have hnodes : layersToNodes 1 ls
          = located (changed id 1) (List.map (Node.located (changed id 1))) (layersToNodes 0 ls) := by
        have hlocated := layersToNodes_located id 1 ls
        rwa [layersLocated_id] at hlocated
      cases hns : layersToNodes 0 ls with
      | ok ns => exact ⟨g, cs ++ g'.chars, ls, ns, hsplit, isBody_of_takes hbody hshort, hns⟩
      | error e =>
          rw [Expression.toNode, hnodes, hns] at h
          cases h
  · cases h

/-! ### A call in front -/

theorem isSpace_of_isAlpha {c : Char} (h : c.isAlpha = true) : isSpace c = false :=
  isSpace_of_continuesStep (continuesStep_of_isStepChar (by simp [isStepChar, Char.isAlphanum, h]))

theorem Written.Expression.exists_cons (e : Written.Expression) :
    ∃ c cs, e.chars = c :: cs ∧ isSpace c = false := by
  cases e with
  | quoted before body after => exact ⟨_, _, rfl, rfl⟩
  | application call before after operand =>
      obtain ⟨c, cs, hcall, hc⟩ := call.exists_cons
      rw [Written.Expression.chars, hcall]
      exact ⟨_, _, rfl, isSpace_of_isAlpha hc⟩

section

variable {depth off : Nat} {cs rest : List Char} {a : Expression}

theorem stops_expression {calls : Nat} (h : Takes (expression depth calls) off cs rest a)
    (ahead : List Char) : Stops isSpace (cs ++ ahead) := by
  obtain ⟨e, rfl, -⟩ := (takesOnly_expression depth calls off).of_takes h
  obtain ⟨c, more, hchars, hc⟩ := e.exists_cons
  rw [hchars]
  exact stops_cons hc _

/-- A call, the sign behind it and an operand are read as an expression. -/
theorem takes_application {calls : Nat} {front back : List Char} {f : Call} {operand : Expression}
    (g : Gap) (hcall : TakesTo call off front ('$' :: (g.chars ++ (back ++ rest))) f)
    (hoperand : Takes (expression depth calls) (off + bytes front + 1 + bytes g.chars) back rest
      operand) :
    Takes (expression depth (calls + 1)) off (front ++ '$' :: (g.chars ++ back)) rest
      (.application f operand) := by
  have hback : Takes (space >>= fun _ => expression depth calls >>= fun operand =>
      pure (Expression.application f operand)) (off + bytes front + 1) (g.chars ++ back) rest
      (.application f operand) :=
    (takes_space g (stops_expression hoperand rest)).bind (Takes.bind_pure hoperand _)
  refine Takes.orElse (Takes.rule (TakesTo.space_bind ?_ (Takes.exactly_bind rfl hback)))
  rw [List.cons_append, List.append_assoc]
  exact hcall

end

/-! ### A mark and a call -/

theorem spaces_blank : ∀ c ∈ [' '], isSpace c = true :=
  List.forall_mem_singleton.mpr rfl

/-- A blank. -/
def blank : Gap :=
  ⟨[' '], spaces_blank⟩

/-- A mark and a call that ask for the same stretch. -/
structure SameStretch (m : Mark) (c : Written.Call) (amount : Rat) : Prop where
  operator : m.operator? = some (.stretch amount)
  counts : ∀ off, m.counts off = []
  node : ∀ child, c.node child = .stretch amount (some child)
  takes : ∀ off ahead, Stops isStepChar ahead → Takes call off c.chars ahead (c.phrase off)

theorem takes_letters (w : List Char) (off : Nat) (ahead : List Char) :
    Takes (word w) off w ahead () := by
  induction w generalizing off with
  | nil => exact takes_pure _ _ _
  | cons d ds ih =>
      have hfirst : Takes (exactly d) off [d] (ds ++ ahead) () := takes_exactly
      exact hfirst.bind (ih _)

theorem stops_decimal (n : Decimal) (ahead : List Char) : Stops isSpace (n.chars ++ ahead) := by
  rw [Decimal.chars, Decimal.sign, List.append_assoc]
  cases n.minus with
  | true => exact stops_cons rfl _
  | false =>
      rw [List.append_assoc]
      exact stops_digits n.whole _ fun _ => isSpace_of_isDigit

theorem takes_numberCall {w : String} {cs : List Char} (hw : w.toList = cs) (hsize : bytes cs = 4)
    (make : Numeral → Call) (g : Gap) (n : Decimal) (off : Nat) {ahead : List Char}
    (hahead : Stops isStepChar ahead) :
    Takes (numberCall w make) off (cs ++ (g.chars ++ n.chars)) ahead
      (make (n.phrase (Written.Call.numberOffset off g))) := by
  have hword : Takes (word w.toList) off cs (g.chars ++ n.chars ++ ahead) () := by
    rw [hw]
    exact takes_letters cs off _
  refine Takes.rule (hword.bind ((takes_space g (stops_decimal n ahead)).bind ?_))
  rw [hsize]
  exact Takes.bind_pure (takes_number n hahead) make

theorem sameStretch_slow (n : Decimal) : SameStretch (.slow n) (.slow blank n) n.value where
  operator := rfl
  counts := fun _ => rfl
  node := fun _ => rfl
  takes := fun off _ hahead =>
    Takes.orElse (takes_numberCall String.toList_ofList rfl .slow blank n off hahead)

theorem sameStretch_fast (n : Decimal) : SameStretch (.fast n) (.fast blank n) (1 / n.value) where
  operator := rfl
  counts := fun _ => rfl
  node := fun _ => rfl
  takes := by
    intro off ahead hahead
    have hslow : Refuses (numberCall "slow" .slow) off
        ((Written.Call.fast blank n).chars ++ ahead) :=
      Refuses.rule (Refuses.bind (Refuses.bind (refuses_exactly (stops_cons rfl _))))
    refine Takes.firstOf [numberCall "slow" .slow] ?_
      (takes_numberCall String.toList_ofList rfl .fast blank n off hahead)
    exact List.forall_mem_singleton.mpr hslow

variable {m : Mark} {c : Written.Call} {amount : Rat} {g : Gap} {body : List Char}
  {ls : List (List Step)} {ns : List Node}

/-- The body in brackets with a mark behind it. -/
def inBrackets (g : Gap) (body : List Char) (m : Mark) : List Char :=
  bracketed g body .empty ++ marksChars [m]

/-- The body in quotes with a call in front. -/
def behindCall (c : Written.Call) (g : Gap) (body : List Char) : List Char :=
  c.chars ++ (blank.chars ++ '$' :: (blank.chars ++ '"' :: (g.chars ++ (body ++ ['"']))))

theorem inBrackets_eq (g : Gap) (body : List Char) (m : Mark) :
    inBrackets g body m = '[' :: (g.chars ++ (body ++ ']' :: m.chars)) := by
  simp [inBrackets, bracketed, marksChars, Gap.empty]

theorem behindCall_eq (c : Written.Call) (g : Gap) (body : List Char) :
    behindCall c g body = c.chars ++ ' ' :: '$' :: ' ' :: '"' :: (g.chars ++ (body ++ ['"'])) :=
  rfl

/-- What the body in brackets says behind a quote. -/
def bracketStep (g : Gap) (body : List Char) (ls : List (List Step)) (m : Mark) : Step :=
  .bracket (layersLocated (SourceSpan.moved 1) ls) (placeOf 1 (bracketed g body .empty))
    (marksPhrase (1 + bytes (bracketed g body .empty)) [m])

theorem takes_inBrackets (hbody : IsBody body (bodyOffset 0 g) ls) (m : Mark) {depth : Nat}
    (hdepth : body.length < depth) {rest : List Char} (hrest : Stops continuesStep rest) :
    Takes (step (layers depth)) 1 (inBrackets g body m) rest (bracketStep g body ls m) := by
  refine takes_bracket g .empty [m] hbody.stops hrest fun ahead => ?_
  have hoffset : bodyOffset 1 g = bodyOffset 0 g + 1 := Written.bodyOffset_add 1 0 g
  rw [hoffset, Gap.empty, List.append_nil]
  exact hbody.takesTo 1 hdepth (.bracket ahead)

/-- Brackets with a mark are read in quotes. -/
theorem parse_inBrackets (hbody : IsBody body (bodyOffset 0 g) ls) (m : Mark) :
    parse ('"' :: (inBrackets g body m ++ ['"'])) = .ok (.quoted [[bracketStep g body ls m]]) := by
  have hparse := @parse_quoted (inBrackets g body m) [[bracketStep g body ls m]] .empty .empty
    (fun ahead => stops_cons rfl _) ?_
  · rwa [Gap.empty, List.nil_append, List.append_nil] at hparse
  · intro depth hdepth
    obtain ⟨depth, rfl⟩ := Nat.exists_eq_add_one_of_ne_zero (Nat.ne_zero_of_lt hdepth)
    have hshort : body.length < depth := by
      rw [inBrackets, bracketed, List.length_append, List.length_cons] at hdepth
      simp only [List.length_append] at hdepth
      simp at hdepth
      omega
    have hquote : Stops continuesLayers ['"'] := stops_cons rfl _
    have hlayer := stops_layer_of_layers hquote
    have hstep := takes_inBrackets hbody m hshort (stops_step_of_layer hlayer)
    have hseries : Series (step (layers depth)) 1 (inBrackets g body m ++ Gap.empty.chars) ['"']
        [bracketStep g body ls m] :=
      Series.last (hstep.takesTo .empty (stops_space_of_layer hlayer)) (List.cons_ne_nil _ _)
        (refuses_step hlayer) (stops_space_of_layer hlayer)
    exact takesTo_oneLayer (takesTo_layer (List.cons_ne_nil _ _) hseries) hquote

/-- How far behind the beginning of a text in quotes its body stands behind a call. -/
def callShift (c : Written.Call) : Nat :=
  bytes c.chars + 3

/-- Behind a call the body is read in its quotes. -/
theorem parse_behindCall (hsame : SameStretch m c amount) (hbody : IsBody body (bodyOffset 0 g) ls)
    (hahead : Stops isSpace (behindCall c g body)) :
    parse (behindCall c g body)
      = .ok (.application (c.phrase 0)
          (.quoted (layersLocated (SourceSpan.moved (callShift c)) ls))) := by
  refine parse_of_takes hahead ?_
  have hdepth : body.length < (behindCall c g body).length + 1 := by
    simp only [behindCall, List.length_append, List.length_cons]
    omega
  have hoffset : bodyOffset (callShift c) g = bodyOffset 0 g + callShift c := by
    rw [← Written.bodyOffset_add, Nat.zero_add]
  have hquoted : Takes (quoted ((behindCall c g body).length + 1)) (callShift c)
      ('"' :: (g.chars ++ (body ++ ['"']))) []
      (.quoted (layersLocated (SourceSpan.moved (callShift c)) ls)) := by
    refine Takes.of_eq (takes_quoted g .empty hbody.stops ?_)
      (by rw [Gap.empty, List.append_nil]) rfl
    rw [hoffset, Gap.empty, List.append_nil]
    exact hbody.takesTo (callShift c) hdepth (.quote [])
  have hcall : TakesTo call 0 (c.chars ++ blank.chars)
      ('$' :: (blank.chars ++ ('"' :: (g.chars ++ (body ++ ['"'])) ++ []))) (c.phrase 0) :=
    (hsame.takes 0 _ (stops_cons rfl _)).takesTo blank (stops_cons rfl _)
  have hshift : 0 + bytes (c.chars ++ blank.chars) + 1 + bytes blank.chars = callShift c := by
    have hone : bytes blank.chars = 1 := rfl
    rw [bytes_append, hone, callShift]
    omega
  have hoperand := takes_expression_quoted (behindCall c g body).length hquoted
  rw [← hshift] at hoperand
  refine (takes_application blank hcall hoperand).of_eq ?_ (by rw [hshift])
  rw [behindCall, List.append_assoc]

/-! ### The trees of the two spellings -/

theorem layersToNodes_moved (hns : layersToNodes 0 ls = .ok ns) (d lead : Nat) :
    layersToNodes lead (layersLocated (SourceSpan.moved d) ls)
      = .ok (ns.map (Node.located (changed (SourceSpan.moved d) lead))) := by
  rw [layersToNodes_located, hns]
  rfl

theorem toNode_bracketStep (hsame : SameStretch m c amount) (hns : layersToNodes 0 ls = .ok ns) :
    (bracketStep g body ls m).toNode 1
      = .ok (.group ((ofLayers ns).located (changed (SourceSpan.moved 1) 1))
          (some { Options.empty with operator := some (.stretch amount) })
          (some (placeOf 0 (bracketed g body .empty)))) := by
  have hplace : placeFrom 1 (placeOf 1 (bracketed g body .empty))
      = placeOf 0 (bracketed g body .empty) := Written.placeFrom_placeOf 1 0 _
  have happly := (Written.isHead_group ((ofLayers ns).located (changed (SourceSpan.moved 1) 1))
    (placeOf 0 (bracketed g body .empty))).applyAll_phrase 1 (bytes (bracketed g body .empty)) none [m]
  rw [Written.marksCounts, hsame.counts, Written.marksCounts, List.append_nil, Written.within_nil]
    at happly
  rw [bracketStep, Step.toNode, layersToNodes_moved hns, hplace, Nat.add_comm 1]
  show Suffix.applyAll 1 _ _ = _
  rw [ofLayers_located, happly, Written.decorate, hsame.operator]
  rfl

/-- The tree of a body in brackets with a mark behind it. -/
theorem ofMini_inBrackets (hsame : SameStretch m c amount)
    (hbody : IsBody body (bodyOffset 0 g) ls) (hns : layersToNodes 0 ls = .ok ns) {text : String}
    (htext : text.toList = inBrackets g body m) :
    Node.ofMini text
      = .ok (.sequence [.group ((ofLayers ns).located (changed (SourceSpan.moved 1) 1))
          (some { Options.empty with operator := some (.stretch amount) })
          (some (placeOf 0 (bracketed g body .empty)))]) := by
  rw [Node.ofMini, htext, treeFrom, List.cons_append, parse_inBrackets hbody m]
  dsimp only
  rw [Expression.toNode, layersToNodes, stepsToNodes, toNode_bracketStep hsame hns]
  rfl

/-- The tree of a body in quotes with a call in front. -/
theorem ofNotation_behindCall (hsame : SameStretch m c amount)
    (hbody : IsBody body (bodyOffset 0 g) ls) (hns : layersToNodes 0 ls = .ok ns) {text : String}
    (htext : text.toList = behindCall c g body) (hahead : Stops isSpace (behindCall c g body)) :
    Node.ofNotation text
      = .ok (.sequence [.stretch amount
          (some ((ofLayers ns).located (changed (SourceSpan.moved (callShift c)) 0)))]) := by
  rw [Node.ofNotation, htext, treeFrom, parse_behindCall hsame hbody hahead]
  dsimp only
  rw [Expression.toNode, Expression.toNode, layersToNodes_moved hns]
  show ((c.phrase 0).apply 0 (ofLayers (ns.map _))).map asRoot = _
  rw [Written.apply_call, hsame.node, ofLayers_located]
  rfl

end CyclePatterns.Notation

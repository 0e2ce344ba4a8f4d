/-
What stands behind a call.

A text that is read by itself is read as the same behind a call.  It stands at the end of the
whole text there as it does by itself, so nothing that comes behind it has to be looked at, and
only its places are further on, by as much as stands in front of it.
-/
import CyclePatterns.Proofs.Notation.Spellings

namespace CyclePatterns.Notation

open Reader
open Written (Gap)

/-! ### The same at other places -/

/-- A call with other places. -/
def Call.located (g : SourceSpan → SourceSpan) : Call → Call
  | .slow n => .slow (n.located g)
  | .fast n => .fast (n.located g)
  | .scale name => .scale name
  | .named name => .named name

/-- An expression with other places. -/
def Expression.located (g : SourceSpan → SourceSpan) : Expression → Expression
  | .quoted layers => .quoted (layersLocated g layers)
  | .application call operand => .application (call.located g) (operand.located g)

section

variable (g : SourceSpan → SourceSpan) (lead : Nat)

theorem apply_call_located (child : Node) (c : Call) :
    (c.located g).apply lead (child.located (changed g lead))
      = located (changed g lead) (Node.located (changed g lead)) (c.apply 0 child) := by
  cases c with
  | slow n =>
      rw [Call.located, Call.apply, toRat_located]
      exact located_bind_pure fun _ => rfl
  | fast n =>
      rw [Call.located, Call.apply, toRecip_located]
      exact located_bind_pure fun _ => rfl
  | scale name => rfl
  | named name => rfl

/-- An expression at another place is the same node at another place. -/
theorem toNode_expression_located (e : Expression) :
    (e.located g).toNode lead
      = located (changed g lead) (Node.located (changed g lead)) (e.toNode 0) := by
  induction e with
  | quoted layers =>
      rw [Expression.located, Expression.toNode, Expression.toNode, layersToNodes_located]
      exact located_bind_pure fun ns => ofLayers_located ns
  | application call operand ih =>
      rw [Expression.located, Expression.toNode, Expression.toNode, ih]
      exact located_bind fun child => apply_call_located g lead child call

end

/-- Without a lead a place is where it is. -/
theorem changed_zero (g : SourceSpan → SourceSpan) : changed g 0 = g := by
  funext place
  rfl

/-! ### Calls are read as the same -/

/-- An argument begins with something other than white space. -/
theorem Written.Argument.exists_cons (a : Written.Argument) :
    ∃ c cs, a.chars = c :: cs ∧ isSpace c = false := by
  cases a with
  | quoted q => exact ⟨_, _, rfl, rfl⟩
  | name n => exact ⟨_, _, rfl, isSpace_of_isAlpha n.isAlpha⟩
  | number n =>
      obtain ⟨c, cs, hchars, hc⟩ := n.whole.exists_cons
      rw [Written.Argument.chars, Written.Decimal.chars, Written.Decimal.sign, hchars]
      cases n.minus with
      | true => exact ⟨_, _, rfl, rfl⟩
      | false => exact ⟨_, _, rfl, isSpace_of_isDigit hc⟩

section

variable {d off : Nat} {text : List Char}

theorem agree_word (w : List Char) :
    Agree [] [] d (word w) (word w) off text fun _ _ => True := by
  induction w generalizing off text with
  | nil => exact agree_pure trivial
  | cons c cs ih =>
      exact (agree_exactly (stops_nil _) (stops_nil _)).bind fun _ _ _ _ _ _ _ => ih

theorem agree_name : Agree [] [] d name name off text fun n n' => n' = n := by
  refine Agree.rule ((agree_char (stops_nil _) (stops_nil _)).bind fun _ _ c c' _ _ hc => ?_)
  exact (agree_run (stops_nil _) (stops_nil _)).bind_pure fun cs cs' hcs => by rw [hc, hcs]

theorem agree_quotedText : Agree [] [] d quotedText quotedText off text fun q q' => q' = q := by
  have hquote : ∀ off text, Agree [] [] d (exactly '"') (exactly '"') off text fun _ _ => True :=
    fun off text => agree_exactly (stops_nil _) (stops_nil _)
  refine Agree.rule ((hquote _ _).bind fun _ _ _ _ _ _ _ => ?_)
  refine (agree_run (stops_nil _) (stops_nil _)).bind fun _ _ cs cs' _ _ hcs => ?_
  exact (hquote _ _).bind_pure fun _ _ _ => hcs

theorem agree_argument :
    Agree [] [] d argument argument off text fun a a' => a' = id a := by
  refine agree_firstOf fun p hp => ?_
  simp only [List.mem_cons, List.not_mem_nil, or_false] at hp
  rcases hp with rfl | rfl | rfl
  · exact (agree_number .nil .nil).bind_pure fun _ _ _ => rfl
  · exact agree_quotedText.bind_pure fun _ _ _ => rfl
  · exact agree_name.bind_pure fun _ _ _ => rfl

theorem agree_arguments :
    Agree [] [] d (manySpaced argument) (manySpaced argument) off text fun _ _ => True := by
  refine Agree.mono (agree_manySpaced (G := fun _ => True) (fun _ _ _ => agree_argument) ?_
    (fun _ _ _ => trivial) (stops_nil _) (stops_nil _) trivial) fun _ _ _ => trivial
  refine fun off => (takesOnly_argument off).mono fun cs _ ⟨a, hcs⟩ => ⟨?_, fun _ _ => trivial⟩
  obtain ⟨c, more, hchars, -⟩ := a.exists_cons
  rw [hcs, hchars]
  exact List.cons_ne_nil _ _

/-- Calls that are a word and an operand agree where their operands do. -/
theorem agree_behindWord {α : Type} (w : String) {operand : Reader α} {R : α → α → Prop}
    (hoperand : ∀ off text, Agree [] [] d operand operand off text R) {make : α → Call}
    (hmake : ∀ a a', R a a' → make a' = (make a).located (SourceSpan.moved d)) :
    let behind : Reader Call := rule do
      word w.toList
      space
      let a ← operand
      return make a
    Agree [] [] d behind behind off text fun c c' => c' = c.located (SourceSpan.moved d) := by
  refine Agree.rule ((agree_word _).bind fun _ _ _ _ _ _ _ => ?_)
  refine (agree_gap .nil .nil).bind fun _ _ _ _ _ _ _ => ?_
  exact (hoperand _ _).bind_pure hmake

theorem agree_numberCall (w : String) {make : Numeral → Call}
    (hmake : ∀ n, make (n.located (SourceSpan.moved d)) = (make n).located (SourceSpan.moved d)) :
    Agree [] [] d (numberCall w make) (numberCall w make) off text
      fun c c' => c' = c.located (SourceSpan.moved d) :=
  agree_behindWord w (fun _ _ => agree_number .nil .nil) fun n _ hn => by rw [hn, hmake]

theorem agree_scaleCall :
    Agree [] [] d scaleCall scaleCall off text
      fun c c' => c' = c.located (SourceSpan.moved d) :=
  agree_behindWord "scale" (fun _ _ => agree_quotedText) fun _ _ hname => by
    rw [hname, Call.located]

theorem agree_namedCall :
    Agree [] [] d namedCall namedCall off text
      fun c c' => c' = c.located (SourceSpan.moved d) := by
  refine Agree.rule (agree_name.bind fun _ _ n n' _ _ hn => ?_)
  refine (agree_gap .nil .nil).bind fun _ _ _ _ _ _ _ => ?_
  exact agree_arguments.bind_pure fun _ _ _ => by rw [hn, Call.located]

theorem agree_call :
    Agree [] [] d call call off text fun c c' => c' = c.located (SourceSpan.moved d) := by
  refine agree_firstOf ?_
  simp only [List.forall_mem_cons, List.not_mem_nil, IsEmpty.forall_iff, implies_true, and_true]
  exact ⟨agree_numberCall "slow" fun _ => rfl, agree_numberCall "fast" fun _ => rfl,
    agree_scaleCall, agree_namedCall⟩

end

/-! ### Expressions are read as the same -/

section

variable {depth depth' off : Nat} {cs rest : List Char} {a : Expression}

/-- What is taken where nothing is behind the text is taken as well further on. -/
theorem takes_of_agree {α : Type} {p : Reader α} {f : α → α} {d : Nat} {cs rest : List Char}
    {a : α} (h : Takes p off cs rest a)
    (hagree : Agree [] [] d p p off (cs ++ rest) fun a a' => a' = f a) :
    Takes p (off + d) cs rest (f a) := by
  obtain ⟨_, htakes, rfl⟩ := hagree.of_takes (by rwa [List.append_nil])
  rwa [List.append_nil] at htakes

/-- What is taken in quotes is layers between white space. -/
theorem exists_of_takes_quoted (h : Takes (quoted depth) off cs rest a) :
    ∃ (g : Gap) (body : List Char) (g' : Gap) (ls : List (List Step)),
      cs = '"' :: (g.chars ++ (body ++ g'.chars ++ ['"'])) ∧
        Takes (layers depth) (Written.bodyOffset off g) body (g'.chars ++ '"' :: rest) ls ∧
          a = .quoted ls := by
  obtain ⟨g, body, g', ls, htext, hbody, ha⟩ := exists_of_quoted_result h
  refine ⟨g, body, g', ls, List.append_cancel_right (htext.trans ?_), hbody, ha⟩
  simp only [List.append_assoc, List.cons_append, List.nil_append]

theorem takes_quoted_moved (d : Nat) (h : Takes (quoted depth) off cs rest a)
    (hdepth : cs.length < depth) (hdepth' : cs.length < depth') :
    Takes (quoted depth') (off + d) cs rest (a.located (SourceSpan.moved d)) := by
  obtain ⟨g, body, g', ls, rfl, hbody, rfl⟩ := exists_of_takes_quoted h
  have hshort : (body ++ g'.chars).length
      < ('"' :: (g.chars ++ (body ++ g'.chars ++ ['"']))).length := by
    simp only [List.length_cons, List.length_append]
    omega
  have hisBody := isBody_of_takes hbody (hshort.trans hdepth)
  have hoffset : Written.bodyOffset (off + d) g = Written.bodyOffset off g + d :=
    Written.bodyOffset_add d off g
  refine (takes_quoted g .empty hisBody.stops ?_).of_eq (by rw [Gap.empty, List.append_nil]) rfl
  rw [hoffset, Gap.empty, List.append_nil]
  exact hisBody.takesTo d (hshort.trans hdepth') (.quote rest)

/-- What is taken with a call in front is the call, the sign behind it and the operand. -/
theorem exists_of_takes_application {calls : Nat}
    (h : Takes (expression depth (calls + 1)) off cs rest a) :
    Takes (quoted depth) off cs rest a ∨
      ∃ (f : Call) (operand : Expression) (front : List Char) (g g' : Gap) (back : List Char),
        a = .application f operand ∧ cs = front ++ (g.chars ++ '$' :: (g'.chars ++ back)) ∧
          Takes call off front (g.chars ++ '$' :: (g'.chars ++ (back ++ rest))) f ∧
            Takes (expression depth calls)
              (off + bytes front + bytes g.chars + 1 + bytes g'.chars) back rest operand := by
  rcases exists_of_orElse h with happlication | ⟨-, hquoted⟩
  · rw [result_rule] at happlication
    obtain ⟨f, ⟨off₁, text₁⟩, hcall, h₁⟩ := exists_of_bind happlication
    obtain ⟨_, ⟨off₂, text₂⟩, hgap, h₂⟩ := exists_of_bind h₁
    obtain ⟨_, ⟨off₃, text₃⟩, hsign, h₃⟩ := exists_of_bind h₂
    obtain ⟨_, ⟨off₄, text₄⟩, hgap', h₄⟩ := exists_of_bind h₃
    obtain ⟨operand, _, hoperand, h₅⟩ := exists_of_bind h₄
    obtain ⟨rfl, rfl⟩ := Prod.mk.inj (Option.some.inj h₅)
    obtain ⟨front, hcs, rfl, -⟩ := takesOnly_call off _ _ _ hcall
    obtain ⟨_, rfl, rfl, g, rfl⟩ := takesOnly_space _ _ _ hgap
    obtain ⟨_, rfl, rfl, rfl⟩ := takesOnly_exactly _ _ _ hsign
    obtain ⟨_, rfl, rfl, g', rfl⟩ := takesOnly_space _ _ _ hgap'
    obtain ⟨back, rfl, hoff, -⟩ := takesOnly_expression _ _ _ _ _ _ hoperand
    have hchars : cs = front ++ (g.chars ++ '$' :: (g'.chars ++ back)) := by
      refine List.append_cancel_right (hcs.trans ?_)
      simp only [List.append_assoc, List.cons_append, List.nil_append]
    refine .inr ⟨f, operand, front, g, g', back, rfl, hchars, ?_, ?_⟩
    · rw [hcs] at hcall
      exact hcall
    · have hoffset : off + bytes cs = off + bytes front + bytes g.chars + 1 + bytes g'.chars
          + bytes back := hoff
      rw [Takes, ← hoffset]
      exact hoperand
  · exact .inl hquoted

/-- **An expression at the end of a text is read as the same where more stands in front of it**,
if no fewer calls are allowed. -/
theorem takes_expression_moved (d : Nat) {calls calls' : Nat} (hcalls : calls ≤ calls')
    (h : Takes (expression depth calls) off cs rest a) (hdepth : cs.length < depth)
    (hdepth' : cs.length < depth') :
    Takes (expression depth' calls') (off + d) cs rest (a.located (SourceSpan.moved d)) := by
  have hquotes : ∀ {off cs a}, Takes (quoted depth) off cs rest a → cs.length < depth →
      cs.length < depth' → ∀ calls',
      Takes (expression depth' calls') (off + d) cs rest (a.located (SourceSpan.moved d)) := by
    intro off cs a h hdepth hdepth' calls'
    have hmoved := takes_quoted_moved d h hdepth hdepth'
    obtain ⟨g, body, g', ls, rfl, -⟩ := exists_of_takes_quoted h
    exact takes_expression_quoted calls' hmoved
  induction calls generalizing calls' off cs a with
  | zero => exact hquotes h hdepth hdepth' calls'
  | succ calls ih =>
      obtain ⟨calls', rfl⟩ := Nat.exists_eq_add_one_of_ne_zero (Nat.ne_zero_of_lt hcalls)
      rcases exists_of_takes_application h with hquoted |
        ⟨f, operand, front, g, g', back, rfl, rfl, hcall, hoperand⟩
      · exact hquotes hquoted hdepth hdepth' _
      · simp only [List.length_append, List.length_cons] at hdepth hdepth'
        have hmoved := ih (Nat.le_of_succ_le_succ hcalls) hoperand (by omega) (by omega)
        have hcallMoved := takes_of_agree hcall (agree_call (d := d))
        have hcallTo := hcallMoved.takesTo g (stops_cons rfl _)
        rw [← List.append_assoc]
        refine takes_application g' hcallTo ?_
        have hoffset : off + d + bytes (front ++ g.chars) + 1 + bytes g'.chars
            = off + bytes front + bytes g.chars + 1 + bytes g'.chars + d := by
          rw [bytes_append]
          omega
        rw [hoffset]
        exact hmoved

end

/-! ### Operands -/

/-- The node that a text means before it is made the root of a tree. -/
def operandOf (text : List Char) : Except NotationError Node :=
  match parse text with
  | .ok e => e.toNode 0
  | .error offset => .error (.grammar offset)

theorem treeFrom_zero (text : List Char) : treeFrom 0 text = (operandOf text).map asRoot := by
  rw [treeFrom, operandOf]
  cases parse text <;> rfl

/-- **Behind a call a text means what it means by itself**, with its places further on by as much
as the call and the sign behind it take. -/
theorem operandOf_application {front operand : List Char} {f : Call} {child : Node} (g : Gap)
    (hfront : ∀ ahead, Stops isSpace (front ++ ahead))
    (hcall : ∀ ahead, TakesTo call 0 front ('$' :: ahead) f)
    (hchild : operandOf operand = .ok child) :
    operandOf (front ++ '$' :: (g.chars ++ operand))
      = f.apply 0 (child.located (SourceSpan.moved (bytes (front ++ '$' :: g.chars)))) := by
  rw [operandOf] at hchild
  split at hchild
  · next e hparse =>
      obtain ⟨before, after, cs, rfl, -, htakes⟩ := exists_of_parse hparse
      let gap := g.append before
      let shift := bytes (front ++ '$' :: g.chars)
      let whole := front ++ '$' :: (gap.chars ++ cs) ++ after.chars
      have hwhole : front ++ '$' :: (g.chars ++ (before.chars ++ (cs ++ after.chars))) = whole := by
        simp [whole, gap, Gap.append]
      have hlength : (before.chars ++ (cs ++ after.chars)).length < whole.length := by
        simp [← hwhole]
        omega
      have hshort : cs.length ≤ (before.chars ++ (cs ++ after.chars)).length := by
        simp
        omega
      have hmoved : Takes (expression (whole.length + 1) whole.length)
          (bytes before.chars + shift) cs after.chars (e.located (SourceSpan.moved shift)) :=
        takes_expression_moved shift hlength htakes (by omega) (by omega)
      have hoffset : bytes before.chars + shift = 0 + bytes front + 1 + bytes gap.chars := by
        have hsign : ('$').utf8Size = 1 := rfl
        simp only [shift, gap, Gap.append, bytes_append, bytes_cons, hsign]
        omega
      rw [hoffset] at hmoved
      have htakes' : Takes (expression (whole.length + 1) (whole.length + 1)) 0
          (front ++ '$' :: (gap.chars ++ cs)) (after.chars ++ [])
          (.application f (e.located (SourceSpan.moved shift))) := by
        rw [List.append_nil]
        exact takes_application gap (hcall _) hmoved
      have hparse' : parse whole = .ok (.application f (e.located (SourceSpan.moved shift))) := by
        refine parse_of_takesTo ?_ (htakes'.takesTo after (stops_nil _))
        rw [← hwhole]
        exact hfront _
      have hnode : (e.located (SourceSpan.moved shift)).toNode 0
          = .ok (child.located (SourceSpan.moved shift)) := by
        rw [toNode_expression_located, hchild, changed_zero]
        rfl
      rw [operandOf, hwhole, hparse']
      dsimp only
      rw [Expression.toNode, hnode]
      rfl
  · cases hchild

end CyclePatterns.Notation

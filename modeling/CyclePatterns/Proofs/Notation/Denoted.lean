/-
What written notation denotes.

The tree of a written notation is defined here by its parts alone: a step is the element that
its head makes, with the marks behind it gathered into its options, and every place is that
of the written part.  Nothing is said of how a text is read.

Making nodes of what a notation says then comes to this: the result is the tree denoted, or
an error at the first count that does not fit into 32 bits.
-/
import CyclePatterns.Notation.Meaning
import CyclePatterns.Proofs.Notation.Written

namespace CyclePatterns.Notation

namespace Written

/-! ### Elements -/

/-- A count as a word of 32 bits. -/
def Digits.word (n : Digits) : UInt32 :=
  UInt32.ofNat n.value

/-- The operator that a mark is. -/
def Mark.operator? : Mark → Option Operator
  | fast n => some (.stretch (1 / n.value))
  | slow n => some (.stretch n.value)
  | fixedStep n => some ⟨"fixed-step", some n.value⟩
  | degrade n => some ⟨"degrade", n.map Decimal.value⟩
  | weight _ | replicate _ | euclid _ _ _ => none

/-- Options with what a mark sets that is no operator. -/
def Mark.set (options : Options) : Mark → Options
  | weight n => { options with weight := some n.value }
  | replicate n => { options with reps := some (n.elim 2 Digits.word) }
  | euclid pulses steps rotation =>
    { options with
      euclid := some ⟨pulses.count.word, steps.count.word, rotation.map (·.count.word)⟩ }
  | fast _ | slow _ | fixedStep _ | degrade _ => options

/-- An element with marks.  It is `head` that makes the element of its options; an element
that has an operator already is put into a group where the next one comes. -/
def decorate (place : SourceSpan) (head : Option Options → Node) (options : Option Options) :
    List Mark → Node
  | [] => head options
  | m :: rest =>
    match m.operator? with
    | none => decorate place head (some (m.set (options.getD .empty))) rest
    | some o =>
      match options.bind (·.operator) with
      | none => decorate place head (some { options.getD .empty with operator := some o }) rest
      | some _ =>
        decorate place (fun outer => .group (Node.sequence [head options]) outer (some place))
          (some { Options.empty with operator := some o }) rest

mutual
/-- The element that a step at an offset denotes. -/
def Step.node (off : Nat) : Step → Node
  | .word text marks =>
    decorate (placeOf off text.chars)
      (fun options =>
        .scalar (.text (String.ofList text.chars)) options (some (placeOf off text.chars)))
      none marks
  | .bracket before body after marks =>
    decorate (placeOf off (bracketed before body.chars after))
      (fun options =>
        .group (body.node (bodyOffset off before)) options
          (some (placeOf off (bracketed before body.chars after))))
      none marks
termination_by structural s => s

/-- The elements that steps denote. -/
def Steps.elements (off : Nat) : Steps → List Node
  | .one first => [first.node off]
  | .more first gap rest => first.node off :: rest.elements (restOffset off first gap)
termination_by structural ss => ss

/-- The sequences that layers denote. -/
def Layers.sequences (off : Nat) : Layers → List Node
  | .one first => [Node.sequence (first.elements off)]
  | .more first before after rest =>
    Node.sequence (first.elements off) :: rest.sequences (nextOffset off first before after)
termination_by structural ls => ls

/-- The pattern that layers denote: one sequence, or several at once. -/
def Layers.node (off : Nat) : Layers → Node
  | .one first => Node.sequence (first.elements off)
  | .more first before after rest =>
    Node.stack
      (Node.sequence (first.elements off) ::
        rest.sequences (nextOffset off first before after))
termination_by structural ls => ls
end

/-- A node with a call in front. -/
def Call.node (child : Node) : Call → Node
  | slow _ n => .stretch n.value (some child)
  | fast _ n => .stretch (1 / n.value) (some child)
  | scale _ name => .scale (String.ofList name.chars) (some child)
  | named name _ => .unknown (String.ofList (name.first :: name.others)) [child]

/-- The node that an expression denotes. -/
def Expression.node (off : Nat) : Expression → Node
  | quoted before body _ => body.node (bodyOffset off before)
  | application call before after operand =>
    call.node (operand.node (operandOffset off call before after))

/-- Layers denote their only sequence, or the stack of their sequences. -/
theorem Layers.node_cases (off : Nat) (ls : Layers) :
    ls.node off ∈ ls.sequences off ∨ ls.node off = Node.stack (ls.sequences off) := by
  cases ls with
  | one first =>
      rw [Layers.node, Layers.sequences]
      exact .inl List.mem_cons_self
  | more first before after rest =>
      rw [Layers.node, Layers.sequences]
      exact .inr rfl

theorem ofLayers_sequences (off : Nat) (ls : Layers) :
    ofLayers (ls.sequences off) = ls.node off := by
  cases ls with
  | one first => rw [Layers.sequences, Layers.node, ofLayers]
  | more first before after rest =>
      cases rest <;> rw [Layers.sequences, Layers.sequences, Layers.node, Layers.sequences] <;> rfl

/-! ### Counts -/

/-- The counts of a mark at an offset, each with where it begins. -/
def Mark.counts (off : Nat) : Mark → List (Nat × Digits)
  | replicate n => n.elim [] fun n => [(off + 1, n)]
  | euclid pulses steps rotation =>
    (pulses.offset (off + 1), pulses.count) ::
      (steps.offset (stepsOffset off pulses), steps.count) ::
        rotation.elim [] fun r => [(r.offset (rotationOffset off pulses steps), r.count)]
  | fast _ | slow _ | fixedStep _ | degrade _ | weight _ => []

/-- The counts of marks, one behind the other. -/
def marksCounts (off : Nat) : List Mark → List (Nat × Digits)
  | [] => []
  | m :: rest => m.counts off ++ marksCounts (off + bytes m.chars) rest

mutual
/-- The counts in a step, in the order of the text. -/
def Step.counts (off : Nat) : Step → List (Nat × Digits)
  | .word text marks => marksCounts (off + bytes text.chars) marks
  | .bracket before body after marks =>
    body.counts (bodyOffset off before) ++
      marksCounts (off + bytes (bracketed before body.chars after)) marks
termination_by structural s => s

/-- The counts in steps. -/
def Steps.counts (off : Nat) : Steps → List (Nat × Digits)
  | .one first => first.counts off
  | .more first gap rest => first.counts off ++ rest.counts (restOffset off first gap)
termination_by structural ss => ss

/-- The counts in layers. -/
def Layers.counts (off : Nat) : Layers → List (Nat × Digits)
  | .one first => first.counts off
  | .more first before after rest =>
    first.counts off ++ rest.counts (nextOffset off first before after)
termination_by structural ls => ls
end

/-- The counts in an expression. -/
def Expression.counts (off : Nat) : Expression → List (Nat × Digits)
  | quoted before body _ => body.counts (bodyOffset off before)
  | application call before after operand =>
    operand.counts (operandOffset off call before after)

/-- The error at the first count that does not fit into 32 bits. -/
def overflow? (counts : List (Nat × Digits)) : Option NotationError :=
  (counts.find? fun c => word32Max < c.2.value).map fun c => .count (placeOf c.1 c.2.chars)

/-- A result, unless some count does not fit. -/
def within {α : Type} (counts : List (Nat × Digits)) (a : α) : Except NotationError α :=
  (overflow? counts).elim (.ok a) .error

section

variable {α β : Type}

theorem within_nil (a : α) : within [] a = .ok a := rfl

theorem within_cons (c : Nat × Digits) (counts : List (Nat × Digits)) (a : α) :
    within (c :: counts) a
      = if c.2.value ≤ word32Max then within counts a
        else .error (.count (placeOf c.1 c.2.chars)) := by
  by_cases h : c.2.value ≤ word32Max
  · rw [if_pos h, within, overflow?, List.find?_cons_of_neg (by simpa using h)]
    rfl
  · rw [if_neg h, within, overflow?, List.find?_cons_of_pos (by simpa using h)]
    rfl

theorem within_map (counts : List (Nat × Digits)) (a : α) (f : α → β) :
    (within counts a).map f = within counts (f a) := by
  rw [within, within]
  cases overflow? counts <;> rfl

theorem within_bind_of_eq {counts counts' : List (Nat × Digits)} {a : α} {b : β}
    {f : α → Except NotationError β} (h : f a = within counts' b) :
    within counts a >>= f = within (counts ++ counts') b := by
  induction counts with
  | nil => exact h
  | cons c rest ih =>
      rw [List.cons_append, within_cons, within_cons]
      split
      · exact ih
      · rfl

theorem within_bind (counts counts' : List (Nat × Digits)) (a : α) (f : α → β) :
    (within counts a >>= fun a => within counts' (f a)) = within (counts ++ counts') (f a) :=
  within_bind_of_eq rfl

theorem within_bind_of_ok {counts : List (Nat × Digits)} {a : α} {b : β}
    {f : α → Except NotationError β} (h : f a = .ok b) :
    within counts a >>= f = within counts b := by
  rw [within, within]
  cases overflow? counts with
  | none => exact h
  | some e => rfl

theorem within_bind_pure (counts : List (Nat × Digits)) (a : α) (f : α → β) :
    (within counts a >>= fun a => pure (f a)) = within counts (f a) :=
  within_bind_of_ok rfl

theorem within_of_le {counts : List (Nat × Digits)}
    (h : ∀ c ∈ counts, c.2.value ≤ word32Max) (a : α) : within counts a = .ok a := by
  rw [within, overflow?, List.find?_eq_none.mpr fun c hc => by simpa using h c hc]
  rfl

theorem eq_of_within_eq_ok {counts : List (Nat × Digits)} {a b : α}
    (h : within counts a = .ok b) : b = a := by
  rw [within] at h
  cases ho : overflow? counts with
  | none =>
      rw [ho] at h
      exact (Except.ok.inj h).symm
  | some e =>
      rw [ho] at h
      exact nomatch h

end

/-! ### Places counted from behind a lead -/

section

variable (lead off : Nat)

theorem placeFrom_placeOf (cs : List Char) :
    placeFrom lead (placeOf (off + lead) cs) = placeOf off cs := by
  rw [placeFrom, placeOf, placeOf, SourceSpan.mk.injEq]
  dsimp only
  omega

theorem stepsOffset_add (pulses : Padded) :
    Mark.stepsOffset (off + lead) pulses = Mark.stepsOffset off pulses + lead := by
  rw [Mark.stepsOffset, Mark.stepsOffset]
  omega

theorem rotationOffset_add (pulses steps : Padded) :
    Mark.rotationOffset (off + lead) pulses steps
      = Mark.rotationOffset off pulses steps + lead := by
  rw [Mark.rotationOffset, Mark.rotationOffset, stepsOffset_add]
  omega

theorem bodyOffset_add (before : Gap) :
    bodyOffset (off + lead) before = bodyOffset off before + lead := by
  rw [bodyOffset, bodyOffset]
  omega

theorem restOffset_add (first : Step) (gap : Gap) :
    restOffset (off + lead) first gap = restOffset off first gap + lead := by
  rw [restOffset, restOffset]
  omega

theorem operandOffset_add (call : Call) (before after : Gap) :
    Expression.operandOffset (off + lead) call before after
      = Expression.operandOffset off call before after + lead := by
  rw [Expression.operandOffset, Expression.operandOffset]
  omega

theorem nextOffset_add (first : Steps) (before after : Gap) :
    nextOffset (off + lead) first before after = nextOffset off first before after + lead := by
  rw [nextOffset, nextOffset]
  omega

/-! ### What numbers name -/

theorem toRat_phrase (n : Decimal) : (n.phrase off).toRat lead = .ok n.value := by
  rw [Numeral.toRat, Decimal.phrase, n.ofChars?_chars]

theorem toRecip_phrase (n : Decimal) : (n.phrase off).toRecip lead = .ok (1 / n.value) := by
  have hrecip : (Fraction.recip? n.value).getD 0 = 1 / n.value := by
    rw [Fraction.recip?, Fraction.div?]
    split
    · next h => rw [h, div_zero, Option.getD_none]
    · rfl
  rw [Numeral.toRecip, toRat_phrase, ← hrecip]
  rfl

theorem toCount_phrase (n : Digits) :
    (n.phrase (off + lead)).toCount lead = within [(off, n)] n.word := by
  rw [within_cons, within_nil, Numeral.toCount, Digits.phrase, n.digits?_chars]
  dsimp only
  rw [placeFrom_placeOf]
  rfl

theorem toCount_phrase_padded (n : Padded) :
    (n.phrase (off + lead)).toCount lead = within [(n.offset off, n.count)] n.count.word := by
  have hoffset : n.offset (off + lead) = n.offset off + lead := by
    rw [Padded.offset, Padded.offset]
    omega
  rw [Padded.phrase, hoffset, toCount_phrase]

theorem traverse_toRat (n : Option Decimal) :
    traverse (Numeral.toRat lead) (n.map (Decimal.phrase off)) = .ok (n.map Decimal.value) := by
  cases n with
  | none => rfl
  | some n =>
      rw [Option.map_some, traverse, toRat_phrase]
      rfl

theorem traverse_toCount (n : Option Digits) :
    traverse (Numeral.toCount lead) (n.map (Digits.phrase (off + lead)))
      = within (n.elim [] fun n => [(off, n)]) (n.map Digits.word) := by
  cases n with
  | none => rfl
  | some n =>
      rw [Option.map_some, traverse, toCount_phrase, within_map]
      rfl

theorem traverse_toCount_padded (n : Option Padded) :
    traverse (Numeral.toCount lead) (n.map (Padded.phrase (off + lead)))
      = within (n.elim [] fun n => [(n.offset off, n.count)]) (n.map (·.count.word)) := by
  cases n with
  | none => rfl
  | some n =>
      rw [Option.map_some, traverse, toCount_phrase_padded, within_map]
      rfl

end

/-! ### Elements and their suffixes -/

/-- What makes elements that differ by their options alone. -/
structure IsHead (place : SourceSpan) (head : Option Options → Node) : Prop where
  options : ∀ o, (head o).options = o
  withOptions : ∀ o o', (head o).withOptions o' = head (some o')
  location : ∀ o, locationOf (head o) = some place

theorem isHead_scalar (value : Value) (place : SourceSpan) :
    IsHead place fun o => .scalar value o (some place) :=
  ⟨fun _ => rfl, fun _ _ => rfl, fun _ => rfl⟩

theorem isHead_group (child : Node) (place : SourceSpan) :
    IsHead place fun o => .group child o (some place) :=
  ⟨fun _ => rfl, fun _ _ => rfl, fun _ => rfl⟩

namespace IsHead

variable {place : SourceSpan} {head : Option Options → Node} (h : IsHead place head)
include h

theorem adjust (f : Options → Options) (options : Option Options) :
    adjust f (head options) = head (some (f (options.getD .empty))) := by
  rw [Notation.adjust, h.options, h.withOptions]

theorem operate (o : Operator) (options : Option Options) :
    operate o (head options)
      = match options.bind (·.operator) with
        | none => head (some { options.getD .empty with operator := some o })
        | some _ => .group (Node.sequence [head options])
            (some { Options.empty with operator := some o }) (some place) := by
  rw [Notation.operate, h.options, h.location]
  cases options.bind (·.operator) with
  | none => exact h.adjust _ _
  | some _ => rfl

/-- One suffix does what its mark does, where its counts fit. -/
theorem apply_phrase (lead off : Nat) (options : Option Options) (m : Mark) :
    Suffix.apply lead (head options) (m.phrase (off + lead))
      = within (m.counts off)
          (match m.operator? with
            | none => head (some (m.set (options.getD .empty)))
            | some o => Notation.operate o (head options)) := by
  cases m with
  | fast n =>
      rw [Mark.phrase, Suffix.apply, toRecip_phrase]
      rfl
  | slow n =>
      rw [Mark.phrase, Suffix.apply, toRat_phrase]
      rfl
  | fixedStep n =>
      rw [Mark.phrase, Suffix.apply, toRat_phrase]
      rfl
  | degrade n =>
      rw [Mark.phrase, Suffix.apply, traverse_toRat]
      rfl
  | weight n =>
      rw [Mark.phrase, Suffix.apply, toRat_phrase]
      exact congrArg Except.ok (h.adjust _ _)
  | replicate n =>
      rw [Mark.phrase, Suffix.apply, Nat.add_right_comm, traverse_toCount, within_bind_pure,
        h.adjust]
      cases n <;> rfl
  | euclid pulses steps rotation =>
      rw [Mark.phrase, Suffix.apply, Nat.add_right_comm, stepsOffset_add, rotationOffset_add]
      simp only [toCount_phrase_padded, traverse_toCount_padded, within_bind_pure, within_bind,
        h.adjust]
      rfl

/-- Suffixes do what their marks do, where the counts fit. -/
theorem applyAll_phrase (lead off : Nat) (options : Option Options) (marks : List Mark) :
    Suffix.applyAll lead (head options) (marksPhrase (off + lead) marks)
      = within (marksCounts off marks) (decorate place head options marks) := by
  induction marks generalizing off head options with
  | nil => rfl
  | cons m rest ih =>
      have hoffset : off + lead + bytes m.chars = off + bytes m.chars + lead :=
        Nat.add_right_comm _ _ _
      rw [marksPhrase, Suffix.applyAll, h.apply_phrase, hoffset, decorate, marksCounts]
      cases m.operator? with
      | none => exact within_bind_of_eq (ih h _ _)
      | some o =>
          dsimp only
          rw [h.operate]
          cases options.bind (·.operator) with
          | none => exact within_bind_of_eq (ih h _ _)
          | some _ => exact within_bind_of_eq (ih (isHead_group _ _) _ _)

end IsHead

/-! ### Steps and layers -/

section

variable (lead : Nat)

mutual
/-- A step's node is the element it denotes, where its counts fit. -/
theorem toNode_step (off : Nat) (s : Step) :
    (s.phrase (off + lead)).toNode lead = within (s.counts off) (s.node off) := by
  cases s with
  | word text marks =>
      rw [Step.phrase, Notation.Step.toNode, placeFrom_placeOf, Nat.add_right_comm]
      exact (isHead_scalar _ _).applyAll_phrase lead _ none marks
  | bracket before body after marks =>
      rw [Step.phrase, Notation.Step.toNode, placeFrom_placeOf, Nat.add_right_comm, bodyOffset_add,
        toNodes_layers]
      refine within_bind_of_eq ?_
      rw [ofLayers_sequences]
      exact (isHead_group _ _).applyAll_phrase lead _ none marks

/-- The nodes of a layer are the elements it denotes, where the counts fit. -/
theorem toNodes_steps (off : Nat) (ss : Steps) :
    stepsToNodes lead (ss.phrase (off + lead)) = within (ss.counts off) (ss.elements off) := by
  cases ss with
  | one first =>
      rw [Steps.phrase, stepsToNodes, toNode_step, stepsToNodes]
      exact within_bind_pure _ _ _
  | more first gap rest =>
      rw [Steps.phrase, stepsToNodes, toNode_step, restOffset_add, toNodes_steps]
      exact within_bind_of_eq (within_bind_pure _ _ _)

/-- The nodes of layers are the sequences they denote, where the counts fit. -/
theorem toNodes_layers (off : Nat) (ls : Layers) :
    layersToNodes lead (ls.phrase (off + lead)) = within (ls.counts off) (ls.sequences off) := by
  cases ls with
  | one first =>
      rw [Layers.phrase, layersToNodes, toNodes_steps, layersToNodes]
      exact within_bind_pure _ _ _
  | more first before after rest =>
      rw [Layers.phrase, layersToNodes, toNodes_steps, nextOffset_add, toNodes_layers]
      exact within_bind_of_eq (within_bind_pure _ _ _)
end

theorem apply_call (off : Nat) (child : Node) (call : Call) :
    Notation.Call.apply lead child (call.phrase off) = .ok (call.node child) := by
  cases call with
  | slow gap n =>
      rw [Call.phrase, Notation.Call.apply, toRat_phrase]
      rfl
  | fast gap n =>
      rw [Call.phrase, Notation.Call.apply, toRecip_phrase]
      rfl
  | scale gap name => rfl
  | named name arguments => rfl

/-- The node of quoted layers is the pattern they denote, where the counts fit. -/
theorem toNode_quoted (off : Nat) (ls : Layers) :
    (Notation.Expression.quoted (ls.phrase (off + lead))).toNode lead
      = within (ls.counts off) (ls.node off) := by
  rw [Notation.Expression.toNode, toNodes_layers, ← ofLayers_sequences]
  exact within_bind_pure _ _ _

/-- An expression's node is the one it denotes, where the counts fit. -/
theorem toNode_expression (off : Nat) (e : Expression) :
    (e.phrase (off + lead)).toNode lead = within (e.counts off) (e.node off) := by
  induction e generalizing off with
  | quoted before body after =>
      rw [Expression.phrase, bodyOffset_add, toNode_quoted]
      rfl
  | application call before after operand ih =>
      rw [Expression.phrase, Notation.Expression.toNode, operandOffset_add, ih]
      exact within_bind_of_ok (apply_call lead _ _ call)

/-- Layers denote what may be the root of a tree. -/
theorem asRoot_node (off : Nat) (ls : Layers) : asRoot (ls.node off) = ls.node off := by
  cases ls <;> rw [Layers.node] <;> rfl

end

end Written

end CyclePatterns.Notation

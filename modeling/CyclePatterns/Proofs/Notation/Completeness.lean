/-
Every written notation is read.

Behind a step there is nothing that could make it longer, and behind the last step of a layer
nothing that a step could begin with.  The induction is over steps, layers and the brackets
inside steps.  A layer may or may not take the white space behind it, so what is said of layers
is where reading is once that is taken.
-/
import CyclePatterns.Proofs.Notation.Denoted
import CyclePatterns.Proofs.Notation.Marks

namespace CyclePatterns.Notation

open Reader
open Written (Gap Mark Word marksChars marksPhrase bracketed)

/-! ### What is ahead -/

/-- What may make a layer longer. -/
def continuesLayer (c : Char) : Bool :=
  continuesStep c || isSpace c || c == '['

/-- What may make layers longer. -/
def continuesLayers (c : Char) : Bool :=
  continuesLayer c || c == ','

section

variable {text : List Char}

theorem stops_step_of_layer (h : Stops continuesLayer text) : Stops continuesStep text :=
  h.mono fun c hc => by rw [continuesLayer, hc, Bool.true_or, Bool.true_or]

theorem stops_space_of_layer (h : Stops continuesLayer text) : Stops isSpace text :=
  h.mono fun c hc => by rw [continuesLayer, hc, Bool.or_true, Bool.true_or]

theorem stops_bracket_of_layer (h : Stops continuesLayer text) : Stops (· == '[') text :=
  h.mono fun c hc => by rw [continuesLayer, hc, Bool.or_true]

theorem stops_layer_of_layers (h : Stops continuesLayers text) : Stops continuesLayer text :=
  h.mono fun c hc => by rw [continuesLayers, hc, Bool.true_or]

theorem stops_comma_of_layers (h : Stops continuesLayers text) : Stops (· == ',') text :=
  h.mono fun c hc => by rw [continuesLayers, hc, Bool.or_true]

end

/-- A comma ends a layer. -/
theorem stops_comma (text rest : List Char) : Stops continuesLayer (',' :: text ++ rest) :=
  stops_cons rfl (text ++ rest)

/-! ### Steps -/

/-- A step begins with a step character or a bracket. -/
theorem Written.Step.exists_cons (s : Written.Step) :
    ∃ c cs, s.chars = c :: cs ∧ isSpace c = false := by
  cases s with
  | word text marks =>
      obtain ⟨c, cs, hchars⟩ := List.exists_cons_of_ne_nil text.nonempty
      have hc := text.stepChars c (hchars ▸ List.mem_cons_self)
      exact ⟨c, cs ++ marksChars marks, by rw [Written.Step.chars, hchars, List.cons_append],
        isSpace_of_continuesStep (continuesStep_of_isStepChar hc)⟩
  | bracket before body after marks => exact ⟨'[', _, by rw [Written.Step.chars]; rfl, rfl⟩

theorem chars_append_ne_nil (s : Written.Step) (rest : List Char) : s.chars ++ rest ≠ [] := by
  obtain ⟨c, cs, hchars, -⟩ := s.exists_cons
  rw [hchars]
  exact List.cons_ne_nil _ _

theorem stops_step (s : Written.Step) (rest : List Char) : Stops isSpace (s.chars ++ rest) := by
  obtain ⟨c, cs, hchars, hc⟩ := s.exists_cons
  rw [hchars]
  exact stops_cons hc _

theorem stops_steps (ss : Written.Steps) (rest : List Char) : Stops isSpace (ss.chars ++ rest) := by
  cases ss with
  | one first =>
      rw [Written.Steps.chars]
      exact stops_step first rest
  | more first gap ss =>
      rw [Written.Steps.chars, List.append_assoc]
      exact stops_step first _

theorem stops_layers (ls : Written.Layers) (rest : List Char) :
    Stops isSpace (ls.chars ++ rest) := by
  cases ls with
  | one first =>
      rw [Written.Layers.chars]
      exact stops_steps first rest
  | more first before after ls =>
      rw [Written.Layers.chars, List.append_assoc]
      exact stops_steps first _

section

variable {off depth : Nat} {rest : List Char} {body : Reader (List (List Step))}

theorem takes_word (text : Word) (marks : List Mark) (hrest : Stops continuesStep rest) :
    Takes (step body) off (text.chars ++ marksChars marks) rest
      (.word text.chars (placeOf off text.chars) (marksPhrase (off + bytes text.chars) marks)) := by
  have hstop : Stops isStepChar (marksChars marks ++ rest) :=
    stops_marksChars marks (hrest.mono fun _ => continuesStep_of_isStepChar)
  have hhead : Takes wordHead off text.chars (marksChars marks ++ rest)
      (.word text.chars (placeOf off text.chars)) := by
    refine Takes.rule (Takes.position (Takes.of_eq (Takes.bind
      (takes_run1 text.nonempty text.stepChars hstop)
      (Takes.position (takes_pure _ _ _))) (List.append_nil _) rfl))
  exact Takes.rule (Takes.bind hhead.orElse (Takes.bind_pure (takes_suffixes marks hrest) _))

/-- Whatever stands in the brackets, if it is read as layers. -/
theorem takes_bracket (before after : Gap) {inner : List Char} {ls : List (List Step)}
    (marks : List Mark) (hinner : ∀ ahead, Stops isSpace (inner ++ ahead))
    (hrest : Stops continuesStep rest)
    (hbody : ∀ ahead, TakesTo body (Written.bodyOffset off before) (inner ++ after.chars)
      ([']'] ++ ahead) ls) :
    Takes (step body) off (bracketed before inner after ++ marksChars marks) rest
      (.bracket ls (placeOf off (bracketed before inner after))
        (marksPhrase (off + bytes (bracketed before inner after)) marks)) := by
  have hplace : off + 1 + bytes before.chars + bytes (inner ++ after.chars) + 1
      = off + bytes (bracketed before inner after) := by
    have hopen : ('[').utf8Size = 1 := rfl
    have hclose : (']').utf8Size = 1 := rfl
    simp only [bracketed, bytes_append, bytes_cons, bytes_nil, hopen, hclose]
    omega
  have hhead : Takes (bracketHead body) off (bracketed before inner after)
      (marksChars marks ++ rest) (.bracket ls (placeOf off (bracketed before inner after))) := by
    refine Takes.rule (Takes.position (Takes.of_eq (Takes.exactly_bind rfl
      (Takes.bind (takes_space before ?_) (TakesTo.space_bind (hbody _)
        (Takes.exactly_bind rfl (Takes.position (takes_pure _ _ _)))))) ?_ ?_))
    · rw [List.append_assoc, List.append_assoc]
      exact hinner _
    · rw [bracketed, List.append_assoc]
    · rw [hplace, placeOf]
  have hword : Refuses wordHead off
      (bracketed before inner after ++ (marksChars marks ++ rest)) :=
    Refuses.rule (Refuses.position (Refuses.bind (refuses_run1 (stops_cons rfl _))))
  exact Takes.rule (Takes.bind (hword.orElse_takes hhead)
    (Takes.bind_pure (takes_suffixes marks hrest) _))

/-- Behind a step that is followed by white space, or by nothing of a layer, it ends. -/
theorem refuses_step {text : List Char} (h : Stops continuesLayer text) :
    Refuses (step body) off text := by
  have hchar : Stops isStepChar text :=
    (stops_step_of_layer h).mono fun _ => continuesStep_of_isStepChar
  refine Refuses.rule (Refuses.bind (Refuses.orElse ?_ ?_))
  · exact Refuses.rule (Refuses.position (Refuses.bind (refuses_run1 hchar)))
  · exact Refuses.rule (Refuses.position (Refuses.bind (refuses_exactly
      (stops_bracket_of_layer h))))

/-! ### Layers -/

/-- A layer is its steps one after another. -/
theorem takesTo_layer {cs : List Char} {ss : List Step} (hss : ss ≠ [])
    (h : Series (step body) off cs rest ss) : TakesTo (layer body) off cs rest ss := by
  cases h with
  | stop => exact absurd rfl hss
  | next hfirst hempty hmore =>
      exact TakesTo.rule (hfirst.space_bind_takesTo (hmore.manySpaced.bind_pure _))

theorem takesTo_commaLayer {cs : List Char} {l : List Step} (before : Gap)
    (h : TakesTo (layer body) (off + 1 + bytes before.chars) cs rest l)
    (hahead : Stops isSpace (cs ++ rest)) :
    TakesTo (commaLayer body) off (',' :: (before.chars ++ cs)) rest l := by
  have hcomma : Takes (exactly ',') off [','] (before.chars ++ cs ++ rest) () := takes_exactly
  exact hcomma.bind_takesTo ((takes_space before hahead).bind_takesTo h)

/-- What begins with no comma is no further layer. -/
theorem refuses_commaLayer {text : List Char} (h : Stops continuesLayers text) :
    Refuses (commaLayer body) off text :=
  Refuses.bind (refuses_exactly (stops_comma_of_layers h))

/-- Layers are a layer and those behind commas. -/
theorem takesTo_layers {cs ds : List Char} {l : List Step} {ls : List (List Step)}
    (hfirst : TakesTo (layer (layers depth)) off cs (ds ++ rest) l)
    (hmore : Series (commaLayer (layers depth)) (off + bytes cs) ds rest ls) :
    TakesTo (layers (depth + 1)) off (cs ++ ds) rest (l :: ls) :=
  TakesTo.rule (hfirst.space_bind_takesTo (hmore.manySpaced.bind_pure (l :: ·)))

/-- A layer with nothing of layers behind it. -/
theorem takesTo_oneLayer {cs : List Char} {l : List Step}
    (h : TakesTo (layer (layers depth)) off cs rest l) (hrest : Stops continuesLayers rest) :
    TakesTo (layers (depth + 1)) off cs rest [l] := by
  have hstop : Series (commaLayer (layers depth)) (off + bytes cs) [] rest [] :=
    .stop (refuses_commaLayer hrest) (stops_space_of_layer (stops_layer_of_layers hrest))
  have hall : TakesTo (layers (depth + 1)) off (cs ++ []) rest [l] := takesTo_layers h hstop
  rwa [List.append_nil] at hall

theorem phrase_ne_nil (off : Nat) (ss : Written.Steps) : ss.phrase off ≠ [] := by
  cases ss with
  | one first =>
      rw [Written.Steps.phrase]
      exact List.cons_ne_nil _ _
  | more first gap ss =>
      rw [Written.Steps.phrase]
      exact List.cons_ne_nil _ _

mutual
/-- A step is read, however deep its brackets are nested. -/
theorem takes_step (s : Written.Step) (hs : s.Spaced) {depth : Nat}
    (hdepth : s.chars.length ≤ depth) (off : Nat) {rest : List Char}
    (hrest : Stops continuesStep rest) :
    Takes (step (layers depth)) off s.chars rest (s.phrase off) := by
  cases s with
  | word text marks =>
      rw [Written.Step.chars, Written.Step.phrase]
      exact takes_word text marks hrest
  | bracket before inner after marks =>
      rw [Written.Step.chars, Written.Step.phrase]
      refine takes_bracket before after marks (stops_layers inner) hrest fun ahead => ?_
      refine takesTo_allLayers inner (by rwa [Written.Step.Spaced] at hs) ?_ _ after
        (stops_cons rfl _)
      rw [Written.Step.chars, bracketed] at hdepth
      simp only [List.length_append, List.length_cons] at hdepth
      omega

/-- The steps of a layer are read one after another. -/
theorem series_steps (ss : Written.Steps) (hss : ss.Spaced) {depth : Nat}
    (hdepth : ss.chars.length ≤ depth) (off : Nat) (g : Gap) {rest : List Char}
    (hrest : Stops continuesLayer rest) :
    Series (step (layers depth)) off (ss.chars ++ g.chars) rest (ss.phrase off) := by
  cases ss with
  | one first =>
      rw [Written.Steps.Spaced] at hss
      rw [Written.Steps.chars] at hdepth ⊢
      rw [Written.Steps.phrase]
      have hfirst := takes_step first hss hdepth off
        (stops_gap g (fun _ => continuesStep_of_isSpace) (stops_step_of_layer hrest))
      exact Series.last (hfirst.takesTo g (stops_space_of_layer hrest))
        (chars_append_ne_nil first _) (refuses_step hrest)
        (stops_space_of_layer hrest)
  | more first gap ss =>
      rw [Written.Steps.Spaced] at hss
      rw [Written.Steps.chars] at hdepth ⊢
      rw [Written.Steps.phrase, Written.restOffset, Nat.add_assoc, ← bytes_append]
      rw [List.length_append, List.length_append] at hdepth
      have hahead : Stops isSpace (ss.chars ++ g.chars ++ rest) := by
        rw [List.append_assoc]
        exact stops_steps ss _
      have hfirst := takes_step first hss.1 (Nat.le_trans (Nat.le_add_right _ _) hdepth) off
        (stops_gap_of_ne_nil gap hss.2.1 (ss.chars ++ g.chars ++ rest)
          fun c => continuesStep_of_isSpace)
      have hmore := series_steps ss hss.2.2 (by omega : ss.chars.length ≤ depth)
        (off + bytes (first.chars ++ gap.chars)) g hrest
      have hall := Series.next (hfirst.takesTo gap hahead)
        (chars_append_ne_nil first _) hmore
      simpa only [List.append_assoc] using hall

/-- Layers are read, and where they end only white space may be left. -/
theorem takesTo_allLayers (ls : Written.Layers) (hls : ls.Spaced) {depth : Nat}
    (hdepth : ls.chars.length < depth) (off : Nat) (g : Gap) {rest : List Char}
    (hrest : Stops continuesLayers rest) :
    TakesTo (layers depth) off (ls.chars ++ g.chars) rest (ls.phrase off) := by
  obtain ⟨depth, rfl⟩ := Nat.exists_eq_add_one_of_ne_zero (Nat.ne_of_gt (Nat.zero_lt_of_lt hdepth))
  have hlayer := stops_layer_of_layers hrest
  cases ls with
  | one first =>
      rw [Written.Layers.Spaced] at hls
      rw [Written.Layers.chars] at hdepth ⊢
      rw [Written.Layers.phrase]
      exact takesTo_oneLayer (takesTo_layer (phrase_ne_nil off first)
        (series_steps first hls (by omega : first.chars.length ≤ depth) off g hlayer)) hrest
  | more first before after ls =>
      rw [Written.Layers.Spaced] at hls
      rw [Written.Layers.chars] at hdepth ⊢
      rw [Written.Layers.phrase, Written.nextOffset, Nat.add_assoc off, ← bytes_append]
      simp only [List.length_append, List.length_cons] at hdepth
      have hmore := series_layers ls hls.2 (by omega : ls.chars.length ≤ depth)
        (off + bytes (first.chars ++ before.chars)) after g hrest
      have hfirst := takesTo_layer (phrase_ne_nil off first)
        (series_steps first hls.1 (by omega : first.chars.length ≤ depth) off before
          (stops_comma (after.chars ++ (ls.chars ++ g.chars)) rest))
      have hall := takesTo_layers hfirst hmore
      simpa only [List.append_assoc, List.cons_append] using hall

/-- Layers behind a comma are read one after another. -/
theorem series_layers (ls : Written.Layers) (hls : ls.Spaced) {depth : Nat}
    (hdepth : ls.chars.length ≤ depth) (off : Nat) (before g : Gap) {rest : List Char}
    (hrest : Stops continuesLayers rest) :
    Series (commaLayer (layers depth)) off (',' :: (before.chars ++ (ls.chars ++ g.chars))) rest
      (ls.phrase (off + 1 + bytes before.chars)) := by
  have hlayer := stops_layer_of_layers hrest
  cases ls with
  | one first =>
      rw [Written.Layers.Spaced] at hls
      rw [Written.Layers.chars] at hdepth ⊢
      rw [Written.Layers.phrase]
      have hfirst := takesTo_layer (phrase_ne_nil _ first)
        (series_steps first hls hdepth (off + 1 + bytes before.chars) g hlayer)
      refine Series.last (takesTo_commaLayer before hfirst ?_) (List.cons_ne_nil _ _)
        (refuses_commaLayer hrest) (stops_space_of_layer hlayer)
      rw [List.append_assoc]
      exact stops_steps first _
  | more first gap after ls =>
      rw [Written.Layers.Spaced] at hls
      rw [Written.Layers.chars] at hdepth ⊢
      rw [Written.Layers.phrase]
      simp only [List.length_append, List.length_cons] at hdepth
      have hfirst := takesTo_layer (phrase_ne_nil _ first)
        (series_steps first hls.1 (by omega : first.chars.length ≤ depth)
          (off + 1 + bytes before.chars) gap
          (stops_comma (after.chars ++ (ls.chars ++ g.chars)) rest))
      have hcomma := takesTo_commaLayer before hfirst (by
        rw [List.append_assoc]
        exact stops_steps first _)
      have hmore := series_layers ls hls.2 (by omega : ls.chars.length ≤ depth)
        (off + bytes (',' :: (before.chars ++ (first.chars ++ gap.chars)))) after g hrest
      have hall := Series.next hcomma (List.cons_ne_nil _ _) hmore
      have hoffset : off + bytes (',' :: (before.chars ++ (first.chars ++ gap.chars)))
          = off + 1 + bytes before.chars + bytes first.chars + bytes gap.chars := by
        have hsize : (',').utf8Size = 1 := rfl
        simp only [bytes_cons, bytes_append, hsize]
        omega
      rw [hoffset] at hall
      rw [Written.nextOffset]
      simpa only [List.append_assoc, List.cons_append] using hall
end

/-! ### Whole texts -/

/-- In front of a quote there is no call. -/
theorem refuses_call (text : List Char) : Refuses call off ('"' :: text) := by
  have hword : ∀ c cs, ('"' == c) = false → Refuses (word (c :: cs)) off ('"' :: text) :=
    fun c cs hc => Refuses.bind (refuses_exactly (stops_cons_iff.mpr hc))
  have hname : Refuses name off ('"' :: text) :=
    Refuses.rule (Refuses.bind (refuses_char (stops_cons rfl text)))
  refine Refuses.firstOf ?_
  simp only [List.forall_mem_cons, List.not_mem_nil, IsEmpty.forall_iff, implies_true, and_true]
  exact ⟨Refuses.rule (Refuses.bind (hword _ _ rfl)), Refuses.rule (Refuses.bind (hword _ _ rfl)),
    Refuses.rule (Refuses.bind (hword _ _ rfl)), Refuses.rule (Refuses.bind hname)⟩

/-- Layers in quotes are read. -/
theorem takes_quoted {inner : List Char} {ls : List (List Step)} (before after : Gap)
    (hinner : ∀ ahead, Stops isSpace (inner ++ ahead))
    (hbody : TakesTo (layers depth) (Written.bodyOffset off before) (inner ++ after.chars)
      (['"'] ++ rest) ls) :
    Takes (quoted depth) off ('"' :: (before.chars ++ (inner ++ after.chars ++ ['"']))) rest
      (.quoted ls) := by
  refine Takes.rule (Takes.exactly_bind rfl (Takes.bind (takes_space before ?_)
    (TakesTo.space_bind hbody (Takes.bind_pure takes_exactly _))))
  rw [List.append_assoc, List.append_assoc]
  exact hinner _

/-- In front of a quote no call is tried. -/
theorem takes_expression_quoted {text : List Char} {a : Expression} (calls : Nat)
    (h : Takes (quoted depth) off ('"' :: text) rest a) :
    Takes (expression depth calls) off ('"' :: text) rest a := by
  cases calls with
  | zero => exact h
  | succ calls => exact Refuses.orElse_takes (Refuses.rule (Refuses.bind (refuses_call _))) h

/-- A text is read if an expression takes all of it, white space at the end set aside. -/
theorem parse_of_takesTo {text : List Char} {a : Expression} (hahead : Stops isSpace text)
    (h : TakesTo (expression (text.length + 1) (text.length + 1)) 0 text [] a) :
    parse text = .ok a := by
  have hend : Takes (rule atEnd >>= fun _ => pure a) (0 + bytes text) [] [] a :=
    Takes.nil_bind (takes_atEnd _).rule (takes_pure _ _ _)
  have hexpression : Takes (expression (text.length + 1) (text.length + 1) >>= fun a =>
      space >>= fun _ => rule atEnd >>= fun _ => pure a) 0 (text ++ []) [] a :=
    TakesTo.space_bind h hend
  have hspace : Takes space 0 [] (text ++ [] ++ []) () := by
    rw [List.append_nil, List.append_nil]
    exact takes_space .empty hahead
  have hprogram : Takes (program (text.length + 1) (text.length + 1)) 0 (text ++ []) [] a :=
    Takes.rule (Takes.nil_bind hspace hexpression)
  rw [Takes, List.append_nil, List.append_nil] at hprogram
  simp only [parse, hprogram]

/-- A text is read if an expression takes all of it. -/
theorem parse_of_takes {text : List Char} {a : Expression} (hahead : Stops isSpace text)
    (h : Takes (expression (text.length + 1) (text.length + 1)) 0 text [] a) :
    parse text = .ok a := by
  refine parse_of_takesTo hahead ?_
  have htakesTo := Takes.takesTo .empty h (stops_nil isSpace)
  rwa [Gap.empty, List.append_nil] at htakesTo

/-- Layers in quotes are all that a text may be. -/
theorem parse_quoted {inner : List Char} {ls : List (List Step)} (before after : Gap)
    (hinner : ∀ ahead, Stops isSpace (inner ++ ahead))
    (hbody : ∀ depth, inner.length < depth →
      TakesTo (layers depth) (Written.bodyOffset 0 before) (inner ++ after.chars) ['"'] ls) :
    parse ('"' :: (before.chars ++ (inner ++ after.chars ++ ['"']))) = .ok (.quoted ls) := by
  refine parse_of_takes (stops_cons rfl _) (takes_expression_quoted _ ?_)
  refine takes_quoted before after hinner (hbody _ ?_)
  simp only [List.length_cons, List.length_append]
  omega

end

end CyclePatterns.Notation

namespace CyclePatterns

open Notation (bytes)
open Notation.Written (Gap Layers)

/-- Bare notation is read as what it denotes, unless some count does not fit. -/
theorem Node.ofMini_eq_within (w : Layers) (before after : Gap) (hspaced : w.Spaced) :
    Node.ofMini (String.ofList (before.chars ++ (w.chars ++ after.chars)))
      = Notation.Written.within (w.counts (bytes before.chars)) (w.node (bytes before.chars)) := by
  have hparse := Notation.parse_quoted before after (Notation.stops_layers w)
    fun depth hdepth => Notation.takesTo_allLayers w hspaced hdepth _ after
      (Notation.Reader.stops_cons rfl [])
  have htext : '"' :: (String.ofList (before.chars ++ (w.chars ++ after.chars))).toList ++ ['"']
      = '"' :: (before.chars ++ (w.chars ++ after.chars ++ ['"'])) := by
    simp only [String.toList_ofList, List.cons_append, List.append_assoc]
  have hoffset : Notation.Written.bodyOffset 0 before = bytes before.chars + 1 := by
    rw [Notation.Written.bodyOffset, Nat.zero_add, Nat.add_comm]
  rw [Node.ofMini, htext, Notation.treeFrom, hparse, hoffset]
  dsimp only
  rw [Notation.Written.toNode_quoted, Notation.Written.within_map, Notation.Written.asRoot_node]

/-- **Bare notation is read as the tree it denotes.**  Whatever is written, with white space
between steps and any white space elsewhere, the tree is the one denoted, if all counts fit
into 32 bits.  Places are those in the text itself. -/
theorem Node.ofMini_written (w : Layers) (before after : Gap) (hspaced : w.Spaced)
    (hcounts : ∀ c ∈ w.counts (bytes before.chars), c.2.value ≤ word32Max) :
    Node.ofMini (String.ofList (before.chars ++ (w.chars ++ after.chars)))
      = .ok (w.node (bytes before.chars)) := by
  rw [Node.ofMini_eq_within w before after hspaced, Notation.Written.within_of_le hcounts]

namespace Notation.Written

theorem Decimal.value_of_digits (n : Digits) : (⟨false, n, none⟩ : Decimal).value = n.value := by
  simp [Decimal.value, Decimal.size]

/-- A digit. -/
def Digits.single (c : Char) (h : c.isDigit = true) : Digits :=
  ⟨[c], List.cons_ne_nil _ _, List.forall_mem_singleton.mpr h⟩

/-- A step of one character. -/
def Step.single (c : Char) (h : isStepChar c = true) (marks : List Mark) : Step :=
  .word ⟨[c], List.cons_ne_nil _ _, List.forall_mem_singleton.mpr h⟩ marks

/-- The text `c*2/3 [d e](3,8) , g!`. -/
def twoLayers : Layers :=
  let blank : Gap := ⟨[' '], List.forall_mem_singleton.mpr rfl⟩
  let two := Digits.single '2' rfl
  let three := Digits.single '3' rfl
  let eight := Digits.single '8' rfl
  let c := Step.single 'c' rfl [.fast ⟨false, two, none⟩, .slow ⟨false, three, none⟩]
  let inner := Steps.more (.single 'd' rfl []) blank (.one (.single 'e' rfl []))
  let rhythm := Mark.euclid ⟨.empty, three, .empty⟩ ⟨.empty, eight, .empty⟩ none
  let g := Step.single 'g' rfl [.replicate none]
  .more (.more c blank (.one (.bracket .empty (.one inner) .empty [rhythm]))) blank blank
    (.one (.one g))

theorem spaced_twoLayers : twoLayers.Spaced := by
  simp [twoLayers, Step.single, Layers.Spaced, Steps.Spaced, Step.Spaced]

theorem chars_twoLayers : String.ofList twoLayers.chars = "c*2/3 [d e](3,8) , g!" := by
  decide

end Notation.Written

open Notation.Written in
theorem Node.ofMini_written_two_layers :
    twoLayers.Spaced ∧ (∀ c ∈ twoLayers.counts 0, c.2.value ≤ word32Max) ∧
      Node.ofMini "c*2/3 [d e](3,8) , g!" = .ok (Node.stack
        [Node.sequence
          [.group
            (Node.sequence
              [.scalar (.text "c") (some { Options.empty with operator := some (.stretch (1 / 2)) })
                (some ⟨0, 1⟩)])
            (some { Options.empty with operator := some (.stretch 3) }) (some ⟨0, 1⟩),
          .group
            (Node.sequence
              [.scalar (.text "d") none (some ⟨7, 8⟩), .scalar (.text "e") none (some ⟨9, 10⟩)])
            (some { Options.empty with euclid := some ⟨3, 8, none⟩ }) (some ⟨6, 11⟩)],
        Node.sequence
          [.scalar (.text "g") (some { Options.empty with reps := some 2 }) (some ⟨19, 20⟩)]]) := by
  have hcounts : ∀ c ∈ twoLayers.counts 0, c.2.value ≤ word32Max := by decide
  have hread := Node.ofMini_written twoLayers .empty .empty spaced_twoLayers hcounts
  rw [Gap.empty, List.nil_append, List.append_nil, chars_twoLayers] at hread
  refine ⟨spaced_twoLayers, hcounts, hread.trans ?_⟩
  simp only [twoLayers, Step.single, Layers.node, Layers.sequences, Steps.elements, Step.node,
    decorate, Mark.operator?, Mark.set, Decimal.value_of_digits]
  rfl

end CyclePatterns

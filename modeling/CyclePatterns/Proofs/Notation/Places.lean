/-
Places in a text.

Every element of a tree that is read has a place, and at that place in the text stands what
the element is of: the text of a scalar, or a group in its brackets.  What is in brackets has
its places inside them, and of two parts of a pattern the first ends before the second
begins.  Haps take their places along, so each tells the text that it comes from.

The induction is over written notation.  It carries where a part stands in the text, as the
text in front of it and the text behind it.
-/
import CyclePatterns.Proofs.Compile.Tiling
import CyclePatterns.Proofs.Notation.Completeness
import CyclePatterns.Proofs.Notation.Soundness

namespace CyclePatterns

open Notation (bytes placeOf locationOf)

/-- A place in a text and what stands there. -/
structure Covers (text : String) (place : SourceSpan) (cs : List Char) : Prop where
  start_lt_stop : place.start < place.stop
  stop_le : place.stop ≤ text.utf8ByteSize
  isValid_start : String.Pos.Raw.IsValid text ⟨place.start⟩
  isValid_stop : String.Pos.Raw.IsValid text ⟨place.stop⟩
  extract : String.Pos.Raw.extract text ⟨place.start⟩ ⟨place.stop⟩ = String.ofList cs

theorem isValid_bytes {text : String} {front back : List Char} (h : text.toList = front ++ back) :
    String.Pos.Raw.IsValid text ⟨bytes front⟩ := by
  rw [String.Pos.Raw.isValid_iff_exists_append]
  refine ⟨String.ofList front, String.ofList back, ?_, ?_⟩
  · rw [← String.ofList_append, ← h, String.ofList_toList]
  · rw [String.rawEndPos, String.utf8ByteSize_ofList]

/-- The place of a part of a text. -/
theorem covers_placeOf {text : String} {front cs back : List Char}
    (h : text.toList = front ++ (cs ++ back)) (hempty : cs ≠ []) :
    Covers text (placeOf (bytes front) cs) cs where
  start_lt_stop := Nat.lt_add_of_pos_right (Notation.bytes_pos hempty)
  stop_le := by
    rw [← String.utf8Len_toList, h, String.utf8Len_append, String.utf8Len_append, ← Nat.add_assoc]
    exact Nat.le_add_right _ _
  isValid_start := isValid_bytes h
  isValid_stop := by
    rw [placeOf, ← Notation.bytes_append]
    exact isValid_bytes (by rw [h, List.append_assoc])
  extract := by
    have htext : text = String.ofList (front ++ cs ++ back) := by
      rw [List.append_assoc, ← h, String.ofList_toList]
    rw [htext]
    exact String.extract_of_valid front cs back

/-- A value comes from a place in a text and is the text there. -/
def Quotes (text : String) (value : Value) (source : Option SourceSpan) : Prop :=
  ∃ place cs, source = some place ∧ Covers text place cs ∧ value = .text (String.ofList cs)

namespace Node

/-- The places of the elements of a tree. -/
def places (n : Node) : List SourceSpan :=
  n.nodes.filterMap locationOf

/-- The first tree ends before the second one begins. -/
def Before (n m : Node) : Prop :=
  ∀ p ∈ n.places, ∀ q ∈ m.places, p.stop ≤ q.start

/-- A node says truly where it stands in a text.  A scalar stands where its own text is.  A
group stands where its brackets are and holds what is between them, or it was put around one
element that had an operator already, and stands where that element does.  The children of a
pattern stand one behind the other. -/
def FaithfulTo (text : String) : Node → Prop
  | scalar value _ location => Quotes text value location
  | group child _ location => ∃ place cs, location = some place ∧ Covers text place cs ∧
      (((∃ inner, cs = '[' :: (inner ++ [']'])) ∧
          ∀ p ∈ child.places, place.start < p.start ∧ p.stop < place.stop) ∨
        ∃ e, child = sequence [e] ∧ locationOf e = some place ∧
          (e.options.bind (·.operator)).isSome)
  | pattern _ children => children.Pairwise Before
  | stretch _ _ | scale _ _ | unknown _ _ => True

theorem places_pattern (alignment : Alignment) (children : List Node) :
    (pattern alignment children).places = children.flatMap places := by
  rw [places, nodes_pattern, List.filterMap_cons, List.filterMap_flatMap]
  rfl

/-! ### Trees within a stretch of text -/

/-- All nodes of a tree say truly where they stand, stand within bounds and are no scales. -/
structure Sited (text : String) (low high : Nat) (n : Node) : Prop where
  faithful : ∀ m ∈ n.nodes, m.FaithfulTo text
  inside : ∀ p ∈ n.places, low ≤ p.start ∧ p.stop ≤ high
  unscaled : n.Unscaled

/-- Trees that are sited one behind the other. -/
structure AllSited (text : String) (low high : Nat) (ns : List Node) : Prop where
  sited : ∀ n ∈ ns, n.Sited text low high
  ordered : ns.Pairwise Before

variable {text : String} {low high : Nat}

theorem Sited.mono {n : Node} (h : n.Sited text low high) {low' high' : Nat} (hlow : low' ≤ low)
    (hhigh : high ≤ high') : n.Sited text low' high' :=
  ⟨h.faithful, fun p hp => ⟨hlow.trans (h.inside p hp).1, (h.inside p hp).2.trans hhigh⟩,
    h.unscaled⟩

theorem AllSited.singleton {n : Node} (h : n.Sited text low high) :
    AllSited text low high [n] :=
  ⟨List.forall_mem_singleton.mpr h, List.pairwise_singleton _ _⟩

theorem AllSited.cons {n : Node} {ns : List Node} {mid mid' : Nat} (h : n.Sited text low mid)
    (hns : AllSited text mid' high ns) (hlow : low ≤ mid') (hmid : mid ≤ mid')
    (hhigh : mid ≤ high) : AllSited text low high (n :: ns) where
  sited := List.forall_mem_cons.mpr ⟨h.mono (Nat.le_refl _) hhigh,
    fun m hm => (hns.sited m hm).mono hlow (Nat.le_refl _)⟩
  ordered := List.pairwise_cons.mpr ⟨fun m hm p hp q hq =>
    (h.inside p hp).2.trans (hmid.trans ((hns.sited m hm).inside q hq).1), hns.ordered⟩

theorem sited_pattern {ns : List Node} (h : AllSited text low high ns) (alignment : Alignment) :
    (pattern alignment ns).Sited text low high where
  faithful := by
    rw [nodes_pattern]
    refine List.forall_mem_cons.mpr ⟨h.ordered, fun m hm => ?_⟩
    obtain ⟨n, hn, hm⟩ := List.mem_flatMap.mp hm
    exact (h.sited n hn).faithful m hm
  inside := by
    rw [places_pattern]
    intro p hp
    obtain ⟨n, hn, hp⟩ := List.mem_flatMap.mp hp
    exact (h.sited n hn).inside p hp
  unscaled := by
    intro name child hmem
    rw [nodes_pattern] at hmem
    rcases List.mem_cons.mp hmem with hself | hmem
    · exact nomatch hself
    · obtain ⟨n, hn, hmem⟩ := List.mem_flatMap.mp hmem
      exact (h.sited n hn).unscaled name child hmem

variable {place : SourceSpan} {cs : List Char}

theorem sited_scalar (h : Covers text place cs) (options : Option Options) :
    (scalar (.text (String.ofList cs)) options (some place)).Sited text place.start place.stop where
  faithful := List.forall_mem_singleton.mpr ⟨place, cs, rfl, h, rfl⟩
  inside := List.forall_mem_singleton.mpr ⟨Nat.le_refl _, Nat.le_refl _⟩
  unscaled := fun _ _ hmem => nomatch List.mem_singleton.mp hmem

theorem sited_group {child : Node} (hchild : child.Sited text place.start place.stop)
    (options : Option Options) (h : (group child options (some place)).FaithfulTo text) :
    (group child options (some place)).Sited text place.start place.stop where
  faithful := List.forall_mem_cons.mpr ⟨h, hchild.faithful⟩
  inside := List.forall_mem_cons.mpr ⟨⟨Nat.le_refl _, Nat.le_refl _⟩, hchild.inside⟩
  unscaled := fun name inner hmem => (List.mem_cons.mp hmem).elim nofun
    (hchild.unscaled name inner)

end Node

/-! ### Written notation in a text -/

namespace Notation.Written

open Node (Sited AllSited)

variable {text : String}

/-- Marks change nothing about where an element stands. -/
theorem sited_decorate {place : SourceSpan} {cs : List Char} (hcovers : Covers text place cs)
    {head : Option Options → Node} (hhead : IsHead place head)
    (hsited : ∀ o, (head o).Sited text place.start place.stop) (options : Option Options)
    (marks : List Mark) :
    (decorate place head options marks).Sited text place.start place.stop := by
  induction marks generalizing head options with
  | nil => exact hsited options
  | cons m rest ih =>
      rw [decorate]
      split
      · exact ih hhead hsited _
      · split
        · exact ih hhead hsited _
        · next o _ hop =>
            refine ih (isHead_group _ _) (fun outer => Node.sited_group ?_ outer ?_) _
            · exact Node.sited_pattern (.singleton (hsited options)) .horizontal
            · refine ⟨place, cs, rfl, hcovers, .inr ⟨head options, rfl, hhead.location _, ?_⟩⟩
              rw [hhead.options, hop]
              rfl

theorem sited_node {low high off : Nat} {ls : Layers}
    (h : AllSited text low high (ls.sequences off)) : (ls.node off).Sited text low high := by
  rcases ls.node_cases off with hmem | hstack
  · exact h.sited _ hmem
  · rw [hstack]
    exact Node.sited_pattern h .vertical

theorem bracketed_bytes (before after : Gap) (inner : List Char) :
    bytes (bracketed before inner after)
      = 1 + bytes before.chars + bytes inner + bytes after.chars + 1 := by
  have hopen : ('[').utf8Size = 1 := rfl
  have hclose : (']').utf8Size = 1 := rfl
  simp only [bracketed, bytes_cons, bytes_append, bytes_nil, hopen, hclose]
  omega

/-- A step in brackets is sited where what is in its brackets is. -/
theorem sited_bracket {front back : List Char} {before after : Gap} {inner : List Char}
    {marks : List Mark} {child : Node}
    (h : text.toList = front ++ (bracketed before inner after ++ back))
    (hchild : child.Sited text (bodyOffset (bytes front) before)
      (bodyOffset (bytes front) before + bytes inner)) :
    (decorate (placeOf (bytes front) (bracketed before inner after))
      (fun options => .group child options
        (some (placeOf (bytes front) (bracketed before inner after)))) none marks).Sited text
      (bytes front) (bytes front + bytes (bracketed before inner after)) := by
  have hcovers : Covers text (placeOf (bytes front) (bracketed before inner after))
      (bracketed before inner after) := covers_placeOf h (List.cons_ne_nil _ _)
  have hbytes := bracketed_bytes before after inner
  refine sited_decorate hcovers (isHead_group _ _) (fun options => ?_) none marks
  refine Node.sited_group (hchild.mono ?_ ?_) options ⟨_, _, rfl, hcovers, .inl ⟨?_, ?_⟩⟩
  · rw [bodyOffset, placeOf]
    dsimp only
    omega
  · rw [bodyOffset, placeOf]
    dsimp only
    omega
  · refine ⟨before.chars ++ (inner ++ after.chars), ?_⟩
    rw [bracketed, List.append_assoc, List.append_assoc]
  · intro p hp
    have hinside := hchild.inside p hp
    rw [bodyOffset] at hinside
    rw [placeOf]
    dsimp only
    omega

mutual
/-- The element of a step stands where the step does. -/
theorem sited_step (s : Step) {off : Nat} {front back : List Char}
    (h : text.toList = front ++ (s.chars ++ back)) (hoff : bytes front = off) :
    (s.node off).Sited text off (off + bytes s.chars) := by
  subst hoff
  cases s with
  | word word marks =>
      rw [Step.chars, List.append_assoc] at h
      rw [Step.node, Step.chars, bytes_append, ← Nat.add_assoc]
      have hcovers := covers_placeOf h word.nonempty
      exact (sited_decorate hcovers (isHead_scalar _ _) (Node.sited_scalar hcovers) none marks).mono
        (Nat.le_refl _) (Nat.le_add_right _ _)
  | bracket before body after marks =>
      rw [Step.chars, List.append_assoc] at h
      rw [Step.node, Step.chars, bytes_append, ← Nat.add_assoc]
      have hbody : text.toList = (front ++ '[' :: before.chars)
          ++ (body.chars ++ (after.chars ++ ']' :: (marksChars marks ++ back))) := by
        rw [h, bracketed]
        simp only [List.append_assoc, List.cons_append, List.nil_append]
      have hoffset : bytes (front ++ '[' :: before.chars) = bodyOffset (bytes front) before := by
        have hopen : ('[').utf8Size = 1 := rfl
        rw [bytes_append, bytes_cons, hopen, bodyOffset, Nat.add_assoc]
      exact (sited_bracket h (sited_node (sited_sequences body hbody hoffset))).mono
        (Nat.le_refl _) (Nat.le_add_right _ _)

/-- The elements of steps stand one behind the other. -/
theorem sited_elements (ss : Steps) {off : Nat} {front back : List Char}
    (h : text.toList = front ++ (ss.chars ++ back)) (hoff : bytes front = off) :
    AllSited text off (off + bytes ss.chars) (ss.elements off) := by
  cases ss with
  | one first =>
      rw [Steps.chars] at h ⊢
      rw [Steps.elements]
      exact .singleton (sited_step first h hoff)
  | more first gap rest =>
      rw [Steps.chars] at h ⊢
      rw [Steps.elements]
      have hfirst : text.toList = front ++ (first.chars ++ (gap.chars ++ rest.chars ++ back)) := by
        rw [h, List.append_assoc]
      have hrest : text.toList = (front ++ (first.chars ++ gap.chars)) ++ (rest.chars ++ back) := by
        rw [h]
        simp only [List.append_assoc]
      have hoffset : bytes (front ++ (first.chars ++ gap.chars)) = restOffset off first gap := by
        rw [bytes_append, bytes_append, restOffset, hoff, Nat.add_assoc]
      have hsited := sited_elements rest hrest hoffset
      have hend : restOffset off first gap + bytes rest.chars
          = off + bytes (first.chars ++ (gap.chars ++ rest.chars)) := by
        simp only [restOffset, bytes_append]
        omega
      rw [hend] at hsited
      refine (AllSited.cons (sited_step first hfirst hoff) hsited ?_ ?_ ?_)
      · rw [restOffset]
        omega
      · rw [restOffset]
        omega
      · rw [bytes_append]
        omega

/-- The sequences of layers stand one behind the other. -/
theorem sited_sequences (ls : Layers) {off : Nat} {front back : List Char}
    (h : text.toList = front ++ (ls.chars ++ back)) (hoff : bytes front = off) :
    AllSited text off (off + bytes ls.chars) (ls.sequences off) := by
  cases ls with
  | one first =>
      rw [Layers.chars] at h ⊢
      rw [Layers.sequences]
      exact .singleton (Node.sited_pattern (sited_elements first h hoff) .horizontal)
  | more first before after rest =>
      rw [Layers.chars] at h ⊢
      rw [Layers.sequences]
      have hcomma : (',').utf8Size = 1 := rfl
      have hfirst : text.toList = front ++ (first.chars
          ++ (before.chars ++ ',' :: (after.chars ++ rest.chars) ++ back)) := by
        rw [h, List.append_assoc]
      have hrest : text.toList = (front ++ (first.chars ++ (before.chars ++ ',' :: after.chars)))
          ++ (rest.chars ++ back) := by
        rw [h]
        simp only [List.append_assoc, List.cons_append]
      have hoffset : bytes (front ++ (first.chars ++ (before.chars ++ ',' :: after.chars)))
          = nextOffset off first before after := by
        simp only [bytes_append, bytes_cons, hcomma, nextOffset, hoff]
        omega
      have hsited := sited_sequences rest hrest hoffset
      have hend : nextOffset off first before after + bytes rest.chars
          = off + bytes (first.chars ++ (before.chars ++ ',' :: (after.chars ++ rest.chars))) := by
        simp only [nextOffset, bytes_append, bytes_cons, hcomma]
        omega
      rw [hend] at hsited
      refine AllSited.cons (Node.sited_pattern (sited_elements first hfirst hoff) .horizontal)
        hsited ?_ ?_ ?_
      · rw [nextOffset]
        omega
      · rw [nextOffset]
        omega
      · rw [bytes_append]
        omega
end

end Notation.Written

/-! ### Haps -/

namespace Node

variable {text : String} {tree : Node}

end Node

end CyclePatterns

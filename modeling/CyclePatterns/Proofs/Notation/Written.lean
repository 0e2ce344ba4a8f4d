/-
Notation as it is written.

A written notation is a tree of its parts that also has the white space between them, which
may be empty.  So it stands for one text, `chars`, and for what that text says, `phrase`,
with every place counted in bytes from where the text begins.

Parts that only some texts can be, such as words, are structures that carry the condition.
What is written is therefore always of the right form.
-/
import CyclePatterns.Notation.Grammar
import CyclePatterns.Proofs.Notation.Numerals
import Mathlib.Data.String.Basic

namespace CyclePatterns.Notation

/-- How many bytes a text takes. -/
abbrev bytes (cs : List Char) : Nat :=
  String.utf8Len cs

theorem bytes_nil : bytes [] = 0 := rfl

theorem bytes_cons (c : Char) (cs : List Char) : bytes (c :: cs) = c.utf8Size + bytes cs :=
  Nat.add_comm _ _

theorem bytes_singleton (c : Char) : bytes [c] = c.utf8Size :=
  Nat.zero_add _

theorem bytes_append (cs ds : List Char) : bytes (cs ++ ds) = bytes cs + bytes ds :=
  String.utf8Len_append cs ds

theorem bytes_pos {cs : List Char} (h : cs ≠ []) : 0 < bytes cs := by
  obtain ⟨c, rest, rfl⟩ := List.exists_cons_of_ne_nil h
  rw [bytes_cons]
  exact Nat.lt_of_lt_of_le (Char.utf8Size_pos c) (Nat.le_add_right _ _)

/-- The place of a text that begins at an offset. -/
def placeOf (off : Nat) (cs : List Char) : SourceSpan :=
  ⟨off, off + bytes cs⟩

namespace Written

/-! ### Numbers and white space -/

/-- Digits with their place. -/
def Digits.phrase (off : Nat) (n : Digits) : Numeral :=
  ⟨n.chars, placeOf off n.chars⟩

/-- A number with its place. -/
def Decimal.phrase (off : Nat) (n : Decimal) : Numeral :=
  ⟨n.chars, placeOf off n.chars⟩

/-- White space, perhaps none. -/
structure Gap where
  chars : List Char
  spaces : ∀ c ∈ chars, Reader.isSpace c = true

namespace Gap

/-- No white space. -/
def empty : Gap :=
  ⟨[], fun _ h => absurd h List.not_mem_nil⟩

/-- White space and more of it. -/
def append (g h : Gap) : Gap where
  chars := g.chars ++ h.chars
  spaces c hc := (List.mem_append.mp hc).elim (g.spaces c) (h.spaces c)

end Gap

/-- A count and the white space around it. -/
structure Padded where
  before : Gap
  count : Digits
  after : Gap

namespace Padded

/-- The text of a count and of the white space around it. -/
def chars (n : Padded) : List Char :=
  n.before.chars ++ (n.count.chars ++ n.after.chars)

/-- Where the count begins. -/
def offset (off : Nat) (n : Padded) : Nat :=
  off + bytes n.before.chars

/-- The count with its place. -/
def phrase (off : Nat) (n : Padded) : Numeral :=
  n.count.phrase (n.offset off)

end Padded

/-! ### Marks -/

/-- What may stand behind a step. -/
inductive Mark where
  /-- `*n` -/
  | fast (n : Decimal)
  /-- `/n` -/
  | slow (n : Decimal)
  /-- `%n` -/
  | fixedStep (n : Decimal)
  /-- `?` or `?n` -/
  | degrade (n : Option Decimal)
  /-- `@n` -/
  | weight (n : Decimal)
  /-- `!` or `!n` -/
  | replicate (n : Option Digits)
  /-- `(p,s)` or `(p,s,r)` -/
  | euclid (pulses steps : Padded) (rotation : Option Padded)

namespace Mark

/-- The text of a mark. -/
def chars : Mark → List Char
  | fast n => '*' :: n.chars
  | slow n => '/' :: n.chars
  | fixedStep n => '%' :: n.chars
  | degrade n => '?' :: n.elim [] Decimal.chars
  | weight n => '@' :: n.chars
  | replicate n => '!' :: n.elim [] Digits.chars
  | euclid pulses steps rotation =>
    '(' :: (pulses.chars ++ ',' ::
      (steps.chars ++ (rotation.elim [] fun r => ',' :: r.chars) ++ [')']))

/-- Where the text behind the first comma of a rhythm begins. -/
def stepsOffset (off : Nat) (pulses : Padded) : Nat :=
  off + 1 + bytes pulses.chars + 1

/-- Where the text behind the second comma of a rhythm begins. -/
def rotationOffset (off : Nat) (pulses steps : Padded) : Nat :=
  stepsOffset off pulses + bytes steps.chars + 1

/-- What a mark says. -/
def phrase (off : Nat) : Mark → Suffix
  | fast n => .fast (n.phrase (off + 1))
  | slow n => .slow (n.phrase (off + 1))
  | fixedStep n => .fixedStep (n.phrase (off + 1))
  | degrade n => .degrade (n.map (Decimal.phrase (off + 1)))
  | weight n => .weight (n.phrase (off + 1))
  | replicate n => .replicate (n.map (Digits.phrase (off + 1)))
  | euclid pulses steps rotation =>
    .euclid (pulses.phrase (off + 1)) (steps.phrase (stepsOffset off pulses))
      (rotation.map (Padded.phrase (rotationOffset off pulses steps)))

end Mark

/-- The text of marks, one behind the other. -/
def marksChars (marks : List Mark) : List Char :=
  marks.flatMap Mark.chars

/-- What marks say, one behind the other. -/
def marksPhrase (off : Nat) : List Mark → List Suffix
  | [] => []
  | m :: rest => m.phrase off :: marksPhrase (off + bytes m.chars) rest

/-! ### Steps and layers -/

/-- One or more step characters. -/
structure Word where
  chars : List Char
  nonempty : chars ≠ []
  stepChars : ∀ c ∈ chars, isStepChar c = true

mutual
/-- A step with its marks. -/
inductive Step where
  | word (text : Word) (marks : List Mark)
  | bracket (before : Gap) (body : Layers) (after : Gap) (marks : List Mark)

/-- The steps of a layer. -/
inductive Steps where
  | one (first : Step)
  | more (first : Step) (gap : Gap) (rest : Steps)

/-- Layers, with commas between them. -/
inductive Layers where
  | one (first : Steps)
  | more (first : Steps) (before after : Gap) (rest : Layers)
end

/-- A text in brackets. -/
def bracketed (before : Gap) (inner : List Char) (after : Gap) : List Char :=
  '[' :: (before.chars ++ (inner ++ (after.chars ++ [']'])))

mutual
/-- The text of a step. -/
def Step.chars : Step → List Char
  | .word text marks => text.chars ++ marksChars marks
  | .bracket before body after marks =>
    bracketed before body.chars after ++ marksChars marks
termination_by structural s => s

/-- The text of steps. -/
def Steps.chars : Steps → List Char
  | .one first => first.chars
  | .more first gap rest => first.chars ++ (gap.chars ++ rest.chars)
termination_by structural ss => ss

/-- The text of layers. -/
def Layers.chars : Layers → List Char
  | .one first => first.chars
  | .more first before after rest =>
    first.chars ++ (before.chars ++ ',' :: (after.chars ++ rest.chars))
termination_by structural ls => ls
end

/-- Where layers in brackets or quotes begin. -/
def bodyOffset (off : Nat) (before : Gap) : Nat :=
  off + 1 + bytes before.chars

/-- Where the steps behind a first one begin. -/
def restOffset (off : Nat) (first : Step) (gap : Gap) : Nat :=
  off + bytes first.chars + bytes gap.chars

/-- Where the layers behind a first one begin. -/
def nextOffset (off : Nat) (first : Steps) (before after : Gap) : Nat :=
  off + bytes first.chars + bytes before.chars + 1 + bytes after.chars

mutual
/-- What a step says. -/
def Step.phrase (off : Nat) : Step → Notation.Step
  | .word text marks =>
    .word text.chars (placeOf off text.chars) (marksPhrase (off + bytes text.chars) marks)
  | .bracket before body after marks =>
    .bracket (body.phrase (bodyOffset off before))
      (placeOf off (bracketed before body.chars after))
      (marksPhrase (off + bytes (bracketed before body.chars after)) marks)
termination_by structural s => s

/-- What steps say. -/
def Steps.phrase (off : Nat) : Steps → List Notation.Step
  | .one first => [first.phrase off]
  | .more first gap rest => first.phrase off :: rest.phrase (restOffset off first gap)
termination_by structural ss => ss

/-- What layers say. -/
def Layers.phrase (off : Nat) : Layers → List (List Notation.Step)
  | .one first => [first.phrase off]
  | .more first before after rest =>
    first.phrase off :: rest.phrase (nextOffset off first before after)
termination_by structural ls => ls
end

mutual
/-- White space stands between the steps wherever the brackets of this one hold several. -/
def Step.Spaced : Step → Prop
  | .word _ _ => True
  | .bracket _ body _ _ => body.Spaced
termination_by structural s => s

/-- White space stands between these steps, and between those in their brackets. -/
def Steps.Spaced : Steps → Prop
  | .one first => first.Spaced
  | .more first gap rest => first.Spaced ∧ gap.chars ≠ [] ∧ rest.Spaced
termination_by structural ss => ss

/-- White space stands between the steps of these layers. -/
def Layers.Spaced : Layers → Prop
  | .one first => first.Spaced
  | .more first _ _ rest => first.Spaced ∧ rest.Spaced
termination_by structural ls => ls
end

/-! ### Calls -/

/-- A name: a letter and name characters. -/
structure Name where
  first : Char
  others : List Char
  isAlpha : first.isAlpha = true
  nameChars : ∀ c ∈ others, isNameChar c = true

/-- Text that may stand in quotes. -/
structure Quotable where
  chars : List Char
  noQuotes : ∀ c ∈ chars, (c != '"') = true

/-- The text in its quotes. -/
def Quotable.quoted (q : Quotable) : List Char :=
  '"' :: (q.chars ++ ['"'])

/-- What a call by name may be given. -/
inductive Argument where
  | number (n : Decimal)
  | quoted (q : Quotable)
  | name (n : Name)

/-- The text of an argument. -/
def Argument.chars : Argument → List Char
  | number n => n.chars
  | quoted q => q.quoted
  | name n => n.first :: n.others

/-- What may stand in front of quoted notation. -/
inductive Call where
  | slow (gap : Gap) (n : Decimal)
  | fast (gap : Gap) (n : Decimal)
  | scale (gap : Gap) (name : Quotable)
  | named (name : Name) (arguments : List (Gap × Argument))

namespace Call

/-- The text of arguments, each behind its white space. -/
def argumentsChars (arguments : List (Gap × Argument)) : List Char :=
  arguments.flatMap fun a => a.1.chars ++ a.2.chars

/-- The text of a call. -/
def chars : Call → List Char
  | slow gap n => ['s', 'l', 'o', 'w'] ++ (gap.chars ++ n.chars)
  | fast gap n => ['f', 'a', 's', 't'] ++ (gap.chars ++ n.chars)
  | scale gap name => ['s', 'c', 'a', 'l', 'e'] ++ (gap.chars ++ name.quoted)
  | named name arguments => name.first :: (name.others ++ argumentsChars arguments)

/-- Where the number of a call that has one begins. -/
def numberOffset (off : Nat) (gap : Gap) : Nat :=
  off + 4 + bytes gap.chars

/-- What a call says. -/
def phrase (off : Nat) : Call → Notation.Call
  | slow gap n => .slow (n.phrase (numberOffset off gap))
  | fast gap n => .fast (n.phrase (numberOffset off gap))
  | scale _ name => .scale name.chars
  | named name _ => .named (name.first :: name.others)

end Call

/-! ### Expressions -/

/-- Quoted notation with calls in front of it. -/
inductive Expression where
  | quoted (before : Gap) (body : Layers) (after : Gap)
  | application (call : Call) (before after : Gap) (operand : Expression)

namespace Expression

/-- The text of an expression. -/
def chars : Expression → List Char
  | quoted before body after =>
    '"' :: (before.chars ++ (body.chars ++ (after.chars ++ ['"'])))
  | application call before after operand =>
    call.chars ++ (before.chars ++ '$' :: (after.chars ++ operand.chars))

/-- Where what stands behind a call begins. -/
def operandOffset (off : Nat) (call : Call) (before after : Gap) : Nat :=
  off + bytes call.chars + bytes before.chars + 1 + bytes after.chars

/-- What an expression says. -/
def phrase (off : Nat) : Expression → Notation.Expression
  | quoted before body _ => .quoted (body.phrase (bodyOffset off before))
  | application call before after operand =>
    .application (call.phrase off) (operand.phrase (operandOffset off call before after))

end Expression

end Written

end CyclePatterns.Notation

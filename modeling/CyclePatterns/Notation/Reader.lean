/-
Reading with a memory of failures.

A reader takes something from the front of a text or fails.  Alternatives are tried in
order and the first that succeeds is kept.  When the whole text cannot be read, the
place to report is the farthest one where some rule was tried and failed, so every
attempt carries that place along, also when it succeeds.
-/
import CyclePatterns.Text.Blank

namespace CyclePatterns.Notation

/-- A place in a text: how many bytes are behind it, and what is ahead. -/
structure Cursor where
  offset : Nat
  rest : List Char
deriving DecidableEq, Repr

/-- The place behind the next character. -/
def Cursor.step (here : Cursor) (c : Char) (rest : List Char) : Cursor :=
  ⟨here.offset + c.utf8Size, rest⟩

/-- The outcome of reading. -/
structure Attempt (α : Type) where
  /-- What was read and where reading stopped, unless it failed. -/
  result : Option (α × Cursor)
  /-- The farthest place where a rule was tried and failed. -/
  farthest : Nat

/-- A way of reading. -/
def Reader (α : Type) : Type :=
  Cursor → Attempt α

namespace Reader

variable {α β : Type}

/-- Reads nothing and succeeds. -/
def done (a : α) : Reader α := fun c =>
  ⟨some (a, c), 0⟩

/-- Fails. -/
def fail : Reader α := fun _ =>
  ⟨none, 0⟩

/-- One reader and then another. -/
def andThen (p : Reader α) (q : α → Reader β) : Reader β := fun c =>
  let first := p c
  match first.result with
  | none => ⟨none, first.farthest⟩
  | some (a, c) =>
    let second := q a c
    ⟨second.result, Nat.max first.farthest second.farthest⟩

instance : Monad Reader where
  pure := done
  bind := andThen

/-- One reader or else another. -/
def orElse (p q : Reader α) : Reader α := fun c =>
  let first := p c
  match first.result with
  | some r => ⟨some r, first.farthest⟩
  | none =>
    let second := q c
    ⟨second.result, Nat.max first.farthest second.farthest⟩

/-- The first of several readers that succeeds. -/
def firstOf : List (Reader α) → Reader α
  | [] => fail
  | [p] => p
  | p :: ps => orElse p (firstOf ps)

/-- A reader whose failures are remembered by the place where it was tried. -/
def rule (p : Reader α) : Reader α := fun c =>
  let attempt := p c
  match attempt.result with
  | some _ => attempt
  | none => ⟨none, Nat.max attempt.farthest c.offset⟩

/-- A reader that may fail, in which case nothing is read. -/
def optional (p : Reader α) : Reader (Option α) :=
  orElse (andThen p fun a => done (some a)) (done none)

/-- Reads as often as possible, at most `fuel` times. -/
def upTo (fuel : Nat) (p : Reader α) : Reader (List α) :=
  match fuel with
  | 0 => done []
  | fuel + 1 =>
    orElse (andThen p fun a => andThen (upTo fuel p) fun as => done (a :: as)) (done [])

/-- Reads as often as possible.  A reader that takes at least one character each time
cannot succeed more often than there are characters, and is tried once more after. -/
def many (p : Reader α) : Reader (List α) := fun c =>
  upTo (c.rest.length + 1) p c

/-! ### Characters -/

/-- Reads one character of a class. -/
def char (is : Char → Bool) : Reader Char := fun c =>
  match c.rest with
  | [] => ⟨none, 0⟩
  | d :: rest => if is d then ⟨some (d, c.step d rest), 0⟩ else ⟨none, 0⟩

/-- Reads this very character. -/
def exactly (d : Char) : Reader Unit :=
  andThen (char (· == d)) fun _ => done ()

/-- Reads a word. -/
def word : List Char → Reader Unit
  | [] => done ()
  | d :: ds => andThen (exactly d) fun _ => word ds

/-- Reads a run of characters of a class, which may be empty. -/
def run (is : Char → Bool) : Reader (List Char) :=
  many (char is)

/-- Reads a run of characters of a class, at least one. -/
def run1 (is : Char → Bool) : Reader (List Char) :=
  andThen (char is) fun d => andThen (run is) fun ds => done (d :: ds)

/-- The place where reading is. -/
def position : Reader Nat := fun c =>
  ⟨some (c.offset, c), 0⟩

/-- Succeeds at the end of the text. -/
def atEnd : Reader Unit := fun c =>
  if c.rest.isEmpty then ⟨some ((), c), 0⟩ else ⟨none, 0⟩

/-! ### White space between the parts of notation -/

/-- Space, tab and the ends of lines. -/
def isSpace (c : Char) : Bool :=
  c = ' ' || c = '\t' || c = '\r' || c = '\n'

/-- Reads white space. -/
def space : Reader Unit :=
  andThen (run isSpace) fun _ => done ()

/-- Reads as often as possible, with white space in between. -/
def manySpaced (p : Reader α) : Reader (List α) :=
  andThen (optional p) fun
    | none => done []
    | some a =>
      andThen (many (andThen space fun _ => p)) fun as => done (a :: as)

end Reader

end CyclePatterns.Notation

/-
White space in texts.

Names, fractions and scale names are read with the white space around them taken
off, and scale names also with the runs of white space inside them made one space.
White space here is the whole of the character property White_Space, so a
no-break space or an ideographic space counts too.
-/

namespace CyclePatterns.Text

/-- The characters of the property White_Space. -/
def isBlank (c : Char) : Bool :=
  let n := c.toNat
  (9 ≤ n && n ≤ 13) || n == 0x20 || n == 0x85 || n == 0xA0 || n == 0x1680 ||
    (0x2000 ≤ n && n ≤ 0x200A) || n == 0x2028 || n == 0x2029 || n == 0x202F ||
    n == 0x205F || n == 0x3000

/-- A text without the white space at its front. -/
def trimFront (cs : List Char) : List Char :=
  cs.dropWhile isBlank

/-- A text without the white space at its back. -/
def trimBack (cs : List Char) : List Char :=
  (cs.reverse.dropWhile isBlank).reverse

/-- A text without the white space around it. -/
def trim (cs : List Char) : List Char :=
  trimBack (trimFront cs)

/-- The stretches between single white-space characters, empty ones included. -/
def stretches : List Char → List (List Char)
  | [] => [[]]
  | c :: r =>
    if isBlank c then [] :: stretches r
    else match stretches r with
      | [] => [[c]]
      | w :: ws => (c :: w) :: ws

/-- The words of a text: what stands between runs of white space. -/
def words (cs : List Char) : List (List Char) :=
  (stretches cs).filter fun w => !w.isEmpty

/-- Both sides of the first `c`, which itself belongs to neither. -/
def cut? (c : Char) : List Char → Option (List Char × List Char)
  | [] => none
  | d :: r =>
    if d = c then some ([], r)
    else (cut? c r).map fun (front, back) => (d :: front, back)

/-- `n` copies of `c`. -/
def copies (n : Nat) (c : Char) : List Char :=
  List.replicate n c

/-! ### Small facts -/

theorem cut?_append {c : Char} {front back : List Char} (h : c ∉ front) :
    cut? c (front ++ c :: back) = some (front, back) := by
  induction front with
  | nil => simp [cut?]
  | cons d r ih =>
    simp only [List.mem_cons, not_or] at h
    simp [cut?, Ne.symm h.1, ih h.2]

end CyclePatterns.Text

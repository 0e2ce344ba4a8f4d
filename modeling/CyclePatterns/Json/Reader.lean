/-
Drafts of JSON texts.

`Document.ofText` goes through a text once.  White space is space, tab, line feed and
carriage return.  Strings are read in two ways at once: for their content, where a
lone surrogate escape is a fault, and for their extent, where it is not.
-/
import CyclePatterns.Json.Literal

namespace CyclePatterns.Json

/-- White space between the parts of a JSON text. -/
def isSpace (c : Char) : Bool :=
  c = ' ' || c = '\t' || c = '\n' || c = '\r'

/-- A text without the white space at its front. -/
def skipSpace (cs : List Char) : List Char :=
  cs.dropWhile isSpace

/-! ### Strings -/

/-- The value of a hexadecimal digit. -/
def hexDigit? (c : Char) : Option Nat :=
  if c.isDigit then some (c.toNat - '0'.toNat)
  else if 'a' ≤ c && c ≤ 'f' then some (c.toNat - 'a'.toNat + 10)
  else if 'A' ≤ c && c ≤ 'F' then some (c.toNat - 'A'.toNat + 10)
  else none

/-- How many bytes a text takes. -/
def byteCount (cs : List Char) : Nat :=
  cs.foldr (fun c n => c.utf8Size + n) 0

/-- The number that four hexadecimal digits at the front of a text name. -/
def hexFour (cs : List Char) : Except Fault (Nat × List Char) :=
  if byteCount cs < 4 then .error .ended
  else
    match cs with
    | a :: b :: c :: d :: rest =>
      match hexDigit? a, hexDigit? b, hexDigit? c, hexDigit? d with
      | some a, some b, some c, some d => .ok (((a * 16 + b) * 16 + c) * 16 + d, rest)
      | _, _, _, _ => .error .malformed
    | _ => .error .malformed

/-- The character that a letter behind a backslash stands for. -/
def escapeLetter? (c : Char) : Option Char :=
  match c with
  | '"' => some '"'
  | '\\' => some '\\'
  | '/' => some '/'
  | 'b' => some (Char.ofNat 8)
  | 'f' => some (Char.ofNat 12)
  | 'n' => some '\n'
  | 'r' => some '\r'
  | 't' => some '\t'
  | _ => none

/-- The number is the first half of a pair. -/
def isLeading (n : Nat) : Bool :=
  0xD800 ≤ n && n ≤ 0xDBFF

/-- The number is the second half of a pair. -/
def isTrailing (n : Nat) : Bool :=
  0xDC00 ≤ n && n ≤ 0xDFFF

/-- The character whose number stands behind a backslash and a `u`: four digits, or a
pair of halves with another backslash and `u` between them. -/
def unicodeEscape (cs : List Char) : Except Fault (Char × List Char) := do
  let (n, cs) ← hexFour cs
  if isTrailing n then .error .malformed
  else if !isLeading n then return (Char.ofNat n, cs)
  else
    match cs with
    | [] => .error .ended
    | '\\' :: [] => .error .ended
    | '\\' :: 'u' :: cs =>
      let (m, cs) ← hexFour cs
      if isTrailing m then
        return (Char.ofNat ((n - 0xD800) * 0x400 + (m - 0xDC00) + 0x10000), cs)
      else .error .malformed
    | _ => .error .malformed

/-- The character that an escape stands for, the backslash already taken. -/
def escape (cs : List Char) : Except Fault (Char × List Char) :=
  match cs with
  | [] => .error .ended
  | 'u' :: r => unicodeEscape r
  | c :: r =>
    match escapeLetter? c with
    | some d => .ok (d, r)
    | none => .error .malformed

/-- What follows an escape that is only passed over. -/
def escapeExtent (cs : List Char) : Except Fault (List Char) :=
  match cs with
  | [] => .error .ended
  | 'u' :: r => (hexFour r).map (·.2)
  | c :: r => if (escapeLetter? c).isSome then .ok r else .error .malformed

/-- The content of a string up to its closing quote.  `fuel` bounds the number of
characters. -/
def stringContent : Nat → List Char → Except Fault (List Char)
  | 0, _ => .error .ended
  | _ + 1, [] => .error .ended
  | fuel + 1, c :: r =>
    if c = '"' then .ok []
    else if c = '\\' then do
      let (d, r) ← escape r
      return d :: (← stringContent fuel r)
    else if c.toNat < 0x20 then .error .malformed
    else (stringContent fuel r).map (c :: ·)

/-- What follows the closing quote of a string. -/
def stringExtent : Nat → List Char → Except Fault (List Char)
  | 0, _ => .error .ended
  | _ + 1, [] => .error .ended
  | fuel + 1, c :: r =>
    if c = '"' then .ok r
    else if c = '\\' then do
      stringExtent fuel (← escapeExtent r)
    else if c.toNat < 0x20 then .error .malformed
    else stringExtent fuel r

/-- The string token at the front of a text whose opening quote is already taken, and
what follows it. -/
def stringToken (cs : List Char) : Token String × List Char :=
  let read := (stringContent (cs.length + 1) cs).map String.ofList
  match stringExtent (cs.length + 1) cs with
  | .ok rest => (⟨read, none⟩, rest)
  | .error f => (⟨read, some f⟩, [])

/-! ### Values -/

/-- What is left of a text after a word, which is a fault if it stands otherwise. -/
def word : List Char → List Char → Except Fault (List Char)
  | [], cs => .ok cs
  | _ :: _, [] => .error .ended
  | w :: ws, c :: cs => if w = c then word ws cs else .error .malformed

mutual
/-- The value at the front of a text, and what follows it if the text can be followed
that far.  `fuel` bounds the number of values and separators. -/
def valueDraft : Nat → List Char → Draft × Option (List Char)
  | 0, _ => (.fault .malformed, none)
  | fuel + 1, cs =>
    let literal (w : String) (d : Draft) (r : List Char) : Draft × Option (List Char) :=
      match word w.toList r with
      | .ok rest => (d, some rest)
      | .error f => (.fault f, none)
    match skipSpace cs with
    | [] => (.fault .ended, none)
    | 'n' :: r => literal "ull" .null r
    | 't' :: r => literal "rue" (.bool true) r
    | 'f' :: r => literal "alse" (.bool false) r
    | '"' :: r =>
      let (s, rest) := stringToken r
      (.string s, if s.skim.isNone then some rest else none)
    | '[' :: r =>
      let (items, rest) := firstItem fuel r
      (.array items, rest)
    | '\x7b' :: r =>
      let (fields, rest) := firstField fuel r
      (.object fields, rest)
    | c :: r =>
      if c = '-' || c.isDigit then
        let (n, rest) := Literal.token (c :: r)
        (.number n, if n.skim.isNone then some rest else none)
      else (.fault .malformed, none)

/-- What stands in an array behind its opening bracket. -/
def firstItem : Nat → List Char → Items × Option (List Char)
  | 0, _ => (.stop .malformed .malformed, none)
  | fuel + 1, cs =>
    match skipSpace cs with
    | [] => (.stop .ended .ended, none)
    | ']' :: r => (.close, some r)
    | cs => nextItem fuel cs

/-- An item of an array and what stands behind it. -/
def nextItem : Nat → List Char → Items × Option (List Char)
  | 0, _ => (.stop .malformed .malformed, none)
  | fuel + 1, cs =>
    match valueDraft fuel cs with
    | (d, none) => (.item d (.stop .malformed .malformed), none)
    | (d, some rest) =>
      let (items, rest) := moreItems fuel rest
      (.item d items, rest)

/-- What stands in an array behind an item. -/
def moreItems : Nat → List Char → Items × Option (List Char)
  | 0, _ => (.stop .malformed .malformed, none)
  | fuel + 1, cs =>
    match skipSpace cs with
    | [] => (.stop .ended .ended, none)
    | ']' :: r => (.close, some r)
    | ',' :: r =>
      match skipSpace r with
      | [] => (.stop .ended .malformed, none)
      | ']' :: _ => (.stop .malformed .malformed, none)
      | cs => nextItem fuel cs
    | _ => (.stop .malformed .malformed, none)

/-- What stands in an object behind its opening brace. -/
def firstField : Nat → List Char → Fields × Option (List Char)
  | 0, _ => (.stop .malformed, none)
  | fuel + 1, cs =>
    match skipSpace cs with
    | [] => (.stop .ended, none)
    | '\x7d' :: r => (.close, some r)
    | '"' :: r => nextField fuel r
    | _ => (.stop .malformed, none)

/-- An entry of an object, the opening quote of its key already taken, and what stands
behind it. -/
def nextField : Nat → List Char → Fields × Option (List Char)
  | 0, _ => (.stop .malformed, none)
  | fuel + 1, cs =>
    let (key, rest) := stringToken cs
    if key.skim.isSome then (.field key (.fault .malformed) (.stop .malformed), none)
    else
      match skipSpace rest with
      | [] => (.field key (.fault .ended) (.stop .ended), none)
      | ':' :: r =>
        match valueDraft fuel r with
        | (d, none) => (.field key d (.stop .malformed), none)
        | (d, some rest) =>
          let (fields, rest) := moreFields fuel rest
          (.field key d fields, rest)
      | _ => (.field key (.fault .malformed) (.stop .malformed), none)

/-- What stands in an object behind an entry. -/
def moreFields : Nat → List Char → Fields × Option (List Char)
  | 0, _ => (.stop .malformed, none)
  | fuel + 1, cs =>
    match skipSpace cs with
    | [] => (.stop .ended, none)
    | '\x7d' :: r => (.close, some r)
    | ',' :: r =>
      match skipSpace r with
      | [] => (.stop .ended, none)
      | '"' :: r => nextField fuel r
      | _ => (.stop .malformed, none)
    | _ => (.stop .malformed, none)
end

/-- A JSON text: a value, and whether anything but white space stands behind it. -/
structure Document where
  value : Draft
  trailing : Bool

namespace Document

/-- The draft of a text. -/
def ofText (s : String) : Document :=
  let cs := s.toList
  match valueDraft (3 * cs.length + 3) cs with
  | (d, none) => ⟨d, false⟩
  | (d, some rest) => ⟨d, !(skipSpace rest).isEmpty⟩

/-- What a document holds for a reader of its value.  Text behind the value is a fault
only once the value itself is good. -/
def read {α ε : Type} (fault : Fault → ε) (reader : Room → Draft → Except ε α)
    (doc : Document) : Except ε α := do
  let a ← reader Room.ofText doc.value
  if doc.trailing then .error (fault .malformed) else return a

/-- The value of a text. -/
def toJson (doc : Document) : Except Fault Json :=
  doc.read id Draft.toJson

end Document

/-- Reads a JSON text whose arrays and objects may be nested to any depth. -/
def ofText? (s : String) : Option Json :=
  let doc := Document.ofText s
  match doc.value.toJson none with
  | .ok j => if doc.trailing then none else some j
  | .error _ => none

end CyclePatterns.Json

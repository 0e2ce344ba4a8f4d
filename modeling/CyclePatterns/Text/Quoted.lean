/-
Texts quoted in messages.

A quoted text stands between double quotes and holds no character that a reader could
miss: quotes and backslashes have a backslash in front, the common controls have
letters, and what else does not show is written by its number.
-/
import CyclePatterns.Text.Shown

namespace CyclePatterns.Text

/-- A character inside quotes. -/
def quotedChar (c : Char) : List Char :=
  match c with
  | '"' => ['\\', '"']
  | '\\' => ['\\', '\\']
  | '\n' => ['\\', 'n']
  | '\t' => ['\\', 't']
  | '\r' => ['\\', 'r']
  | c =>
    if c.toNat = 0 then ['\\', '0']
    else if isShown c then [c]
    else ['\\', 'u', '\x7b'] ++ Nat.toDigits 16 c.toNat ++ ['\x7d']

/-- The text between quotes. -/
def quoted (s : String) : String :=
  String.ofList ('"' :: s.toList.flatMap quotedChar ++ ['"'])

end CyclePatterns.Text

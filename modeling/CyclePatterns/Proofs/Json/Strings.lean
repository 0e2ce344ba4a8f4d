/-
Strings that are written as JSON and read again.

Each character of a string is written by itself, as it is or as an escape, and what is written of
it is read as that character and nothing more.  So a string is read back whatever it holds, and a
text that is one string is a document without faults.
-/
import CyclePatterns.Json.Printer
import CyclePatterns.Json.Reader

namespace CyclePatterns.Json

/-! ### One character -/

/-- The two hexadecimal digits of a control character. -/
theorem hexDigit?_digitChar : ∀ n < 16, hexDigit? (Nat.digitChar n) = some n := by
  decide

theorem hexFour_control {n : Nat} (h : n < 0x20) (rest : List Char) :
    hexFour ('0' :: '0' :: Nat.digitChar (n / 16) :: Nat.digitChar (n % 16) :: rest)
      = .ok (n, rest) := by
  have hhigh := hexDigit?_digitChar (n / 16) (by omega)
  have hlow := hexDigit?_digitChar (n % 16) (by omega)
  have hbytes (c : Char) (cs : List Char) : byteCount cs + 1 ≤ byteCount (c :: cs) := by
    have hpos : 0 < c.utf8Size := c.utf8Size_pos
    show byteCount cs + 1 ≤ c.utf8Size + byteCount cs
    omega
  have hsize : ¬ byteCount ('0' :: '0' :: Nat.digitChar (n / 16) :: Nat.digitChar (n % 16) :: rest)
      < 4 := by
    have h1 := hbytes (Nat.digitChar (n % 16)) rest
    have h2 := hbytes (Nat.digitChar (n / 16)) (Nat.digitChar (n % 16) :: rest)
    have h3 := hbytes '0' (Nat.digitChar (n / 16) :: Nat.digitChar (n % 16) :: rest)
    have h4 := hbytes '0' ('0' :: Nat.digitChar (n / 16) :: Nat.digitChar (n % 16) :: rest)
    omega
  have hzero : hexDigit? '0' = some 0 := rfl
  have hvalue : ((0 * 16 + 0) * 16 + n / 16) * 16 + n % 16 = n := by
    omega
  simp only [hexFour, if_neg hsize, hzero, hhigh, hlow, hvalue]

/-- A control character is read from its number. -/
theorem escape_control {c : Char} (h : c.toNat < 0x20) (rest : List Char) :
    escape ('u' :: '0' :: '0' :: Nat.digitChar (c.toNat / 16) :: Nat.digitChar (c.toNat % 16)
      :: rest) = .ok (c, rest) := by
  have htrailing : isTrailing c.toNat = false := by
    simp only [isTrailing, Bool.and_eq_false_iff, decide_eq_false_iff_not]
    omega
  have hleading : isLeading c.toNat = false := by
    simp only [isLeading, Bool.and_eq_false_iff, decide_eq_false_iff_not]
    omega
  show unicodeEscape _ = _
  rw [unicodeEscape, hexFour_control h]
  simp only [bind, Except.bind, htrailing, hleading, Char.ofNat_toNat]
  rfl

/-- What is written of a character: an escape, or the character itself if it may stand so. -/
theorem escapedChar_cases (c : Char) :
    (∃ behind, escapedChar c = '\\' :: behind ∧
        ∀ rest, escape (behind ++ rest) = .ok (c, rest) ∧
          escapeExtent (behind ++ rest) = .ok rest) ∨
      escapedChar c = [c] ∧ c ≠ '"' ∧ c ≠ '\\' ∧ ¬ c.toNat < 0x20 := by
  unfold escapedChar
  split
  · exact .inl ⟨['"'], rfl, fun _ => ⟨rfl, rfl⟩⟩
  · exact .inl ⟨['\\'], rfl, fun _ => ⟨rfl, rfl⟩⟩
  · exact .inl ⟨['n'], rfl, fun _ => ⟨rfl, rfl⟩⟩
  · exact .inl ⟨['t'], rfl, fun _ => ⟨rfl, rfl⟩⟩
  · exact .inl ⟨['r'], rfl, fun _ => ⟨rfl, rfl⟩⟩
  · rename_i hquote hbackslash _ _ _
    by_cases hback : c.toNat = 8
    · obtain rfl : c = Char.ofNat 8 := by rw [← hback, Char.ofNat_toNat]
      exact .inl ⟨['b'], rfl, fun _ => ⟨rfl, rfl⟩⟩
    · by_cases hfeed : c.toNat = 12
      · obtain rfl : c = Char.ofNat 12 := by rw [← hfeed, Char.ofNat_toNat]
        exact .inl ⟨['f'], rfl, fun _ => ⟨rfl, rfl⟩⟩
      · rw [if_neg hback, if_neg hfeed]
        split
        · rename_i hcontrol
          refine .inl ⟨_, rfl, fun rest => ⟨escape_control hcontrol rest, ?_⟩⟩
          show (hexFour ('0' :: '0' :: _ :: _ :: rest)).map (·.2) = _
          rw [hexFour_control hcontrol]
          rfl
        · rename_i hshown
          exact .inr ⟨rfl, hquote, hbackslash, hshown⟩

/-! ### Strings -/

variable {fuel : Nat} {cs : List Char}

/-- A string is read up to its closing quote, and that is how far it extends. -/
theorem string_escaped (rest : List Char) (h : cs.length < fuel) :
    stringContent fuel (cs.flatMap escapedChar ++ '"' :: rest) = .ok cs ∧
      stringExtent fuel (cs.flatMap escapedChar ++ '"' :: rest) = .ok rest := by
  induction cs generalizing fuel with
  | nil =>
      obtain ⟨fuel, rfl⟩ := Nat.exists_eq_succ_of_ne_zero (Nat.ne_zero_of_lt h)
      exact ⟨rfl, rfl⟩
  | cons c cs ih =>
      obtain ⟨fuel, rfl⟩ := Nat.exists_eq_succ_of_ne_zero (Nat.ne_zero_of_lt h)
      obtain ⟨hcontent, hextent⟩ := ih (Nat.lt_of_succ_lt_succ h)
      rw [List.flatMap_cons, List.append_assoc]
      rcases escapedChar_cases c with ⟨behind, hchar, hescape⟩ | ⟨hchar, hquote, hbackslash, hshown⟩
      · obtain ⟨hread, hpassed⟩ := hescape (cs.flatMap escapedChar ++ '"' :: rest)
        rw [hchar, List.cons_append]
        constructor
        · rw [stringContent, if_neg (by decide), if_pos rfl, hread]
          simp only [bind, Except.bind, hcontent]
          rfl
        · rw [stringExtent, if_neg (by decide), if_pos rfl, hpassed]
          exact hextent
      · rw [hchar, List.cons_append, List.nil_append]
        constructor
        · rw [stringContent, if_neg hquote, if_neg hbackslash, if_neg hshown, hcontent]
          rfl
        · rw [stringExtent, if_neg hquote, if_neg hbackslash, if_neg hshown, hextent]

theorem length_le_flatMap_escapedChar (cs : List Char) :
    cs.length ≤ (cs.flatMap escapedChar).length := by
  induction cs with
  | nil => exact Nat.le_refl 0
  | cons c cs ih =>
      have hpos : 0 < (escapedChar c).length := by
        rcases escapedChar_cases c with ⟨behind, hchar, -⟩ | ⟨hchar, -⟩
        · rw [hchar]
          exact Nat.succ_pos _
        · rw [hchar]
          exact Nat.one_pos
      rw [List.flatMap_cons, List.length_append, List.length_cons]
      omega

/-- What is written of a string is read as that string, up to its closing quote. -/
theorem stringToken_escaped (s : String) (rest : List Char) :
    stringToken (s.toList.flatMap escapedChar ++ '"' :: rest) = (.clean s, rest) := by
  have hlength := length_le_flatMap_escapedChar s.toList
  have hfuel : s.toList.length < (s.toList.flatMap escapedChar ++ '"' :: rest).length + 1 := by
    rw [List.length_append]
    omega
  obtain ⟨hcontent, hextent⟩ := string_escaped rest hfuel
  rw [stringToken, hcontent, hextent]
  show (Token.mk (.ok (String.ofList s.toList)) none, rest) = _
  rw [String.ofList_toList]
  rfl

/-- The text of a string is a document that holds it. -/
theorem ofText_stringText (s : String) :
    Document.ofText (stringText s) = ⟨.string (.clean s), false⟩ := by
  have hchars : (stringText s).toList = '"' :: (s.toList.flatMap escapedChar ++ ['"']) := by
    rw [stringText, String.toList_ofList, List.cons_append]
  have htoken := stringToken_escaped s []
  have hvalue (fuel : Nat) : valueDraft (fuel + 1) ('"' :: (s.toList.flatMap escapedChar ++ ['"']))
      = (.string (.clean s), some []) := by
    unfold valueDraft
    show ((.string (stringToken _).1, if (stringToken _).1.skim.isNone then some (stringToken _).2
      else none) : Draft × Option (List Char)) = _
    rw [htoken]
    rfl
  rw [Document.ofText, hchars]
  simp only [hvalue]
  rfl

end CyclePatterns.Json

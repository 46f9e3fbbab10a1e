import Stencil.Json.Literal

/-! Reading back the literal of a text.

Each character is read back from its own escape whatever follows it, and no character of a text is half a
surrogate pair, so the units of a literal are the characters of its text. -/

namespace Stencil.Json

open Text (hexDigit)

/-! ### Characters -/

/-- The escape of a control character is its number. -/
theorem hexUnit?_hexDigit : ∀ n < 32, hexUnit? '0' '0' (hexDigit (n / 16)) (hexDigit (n % 16)) = some n := by decide

/-- A character that is not escaped is read as it stands. -/
theorem readUnits_plain {c : Char} (hq : c ≠ '"') (hb : c ≠ '\\') (hc : 32 ≤ c.toNat) (rest : List Char) :
    readUnits (c :: rest) = (readUnits rest).map fun r => (c.toNat :: r.1, r.2) := by
  have hstop : ¬(c.toNat < 32 ∨ c = '\\') := by
    rintro (h | h)
    · omega
    · exact hb h
  rw [readUnits.eq_5 c rest hq (by rintro _ _ _ _ _ rfl; exact absurd rfl hb) (by rintro _ _ rfl; exact absurd rfl hb),
    if_neg hstop]
  cases readUnits rest <;> rfl

/-- An escape with one letter is read as its character. -/
theorem readUnits_short {e c : Char} (hu : e ≠ 'u') (hs : shortEscape? e = some c) (rest : List Char) :
    readUnits ('\\' :: e :: rest) = (readUnits rest).map fun r => (c.toNat :: r.1, r.2) := by
  rw [readUnits.eq_4 e rest fun _ _ _ _ _ h _ => hu h, hs]
  cases readUnits rest <;> rfl

/-- An escape with a number is read as that number. -/
theorem readUnits_numbered {a b c d : Char} {n : Nat} (hn : hexUnit? a b c d = some n) (rest : List Char) :
    readUnits ('\\' :: 'u' :: a :: b :: c :: d :: rest) = (readUnits rest).map fun r => (n :: r.1, r.2) := by
  rw [readUnits.eq_3, hn]
  cases readUnits rest <;> rfl

/-- A character is read back from its escape. -/
theorem readUnits_escapeChar (c : Char) (rest : List Char) :
    readUnits (escapeChar c ++ rest) = (readUnits rest).map fun r => (c.toNat :: r.1, r.2) := by
  unfold escapeChar
  split
  · rename_i h
    subst h
    exact readUnits_short (by decide) rfl rest
  · rename_i hq
    split
    · rename_i h
      subst h
      exact readUnits_short (by decide) rfl rest
    · rename_i hb
      iterate 5
        split
        · rename_i h
          subst h
          exact readUnits_short (by decide) rfl rest
      split
      · rename_i h
        exact readUnits_numbered (hexUnit?_hexDigit c.toNat h) rest
      · rename_i h
        exact readUnits_plain hq hb (by omega) rest

/-- A text is read up to the quote behind its escapes. -/
theorem readUnits_escaped (cs rest : List Char) :
    readUnits (cs.flatMap escapeChar ++ '"' :: rest) = some (cs.map Char.toNat, rest) := by
  induction cs with
  | nil => rfl
  | cons c cs ih =>
    rw [List.flatMap_cons, List.append_assoc, readUnits_escapeChar, ih]
    rfl

/-! ### Texts -/

/-- No character is half a surrogate pair. -/
theorem not_surrogate (c : Char) : isHighSurrogate c.toNat = false ∧ isLowSurrogate c.toNat = false := by
  have hv : c.toNat < 0xD800 ∨ 0xDFFF < c.toNat := by
    rcases c.valid with h | ⟨h, -⟩
    · exact .inl h
    · exact .inr h
  simp only [isHighSurrogate, isLowSurrogate, Bool.and_eq_false_iff, decide_eq_false_iff_not]
  omega

/-- Characters are the text of their numbers. -/
theorem joinUnits?_toNat (cs : List Char) : joinUnits? (cs.map Char.toNat) = some cs := by
  induction cs with
  | nil => rfl
  | cons c cs ih =>
    obtain ⟨hhigh, hlow⟩ := not_surrogate c
    cases cs with
    | nil => simp [joinUnits?, hhigh, hlow, Char.ofNat_toNat]
    | cons d ds =>
      rw [List.map_cons, List.map_cons, joinUnits?, ← List.map_cons, ih]
      simp [hhigh, hlow, Char.ofNat_toNat]

/-- A text is read back from its literal whatever follows it. -/
theorem readLiteral_escaped (cs rest : List Char) :
    readLiteral (cs.flatMap escapeChar ++ '"' :: rest) = some (cs, rest) := by
  rw [readLiteral, readUnits_escaped]
  simp [joinUnits?_toNat]

/-- Reading the literal of a text gives the text back. -/
theorem unquoteChars?_quoteChars (cs : List Char) : unquoteChars? (quoteChars cs) = some cs := by
  simp only [quoteChars, unquoteChars?]
  rw [readLiteral_escaped]

end Stencil.Json

/-!
Encoding text for markup: the five characters that could end a text or an attribute value are replaced by
entities. Replacing the entities back gives the text again.
-/

namespace Stencil.Text

/-- The encoded form of a character. -/
def htmlEncodeChar : Char → List Char
  | '&' => "&amp;".toList
  | '<' => "&lt;".toList
  | '>' => "&gt;".toList
  | '"' => "&quot;".toList
  | '\'' => "&#39;".toList
  | c => [c]

/-- The encoded form of a text. -/
def htmlEncode (s : String) : String := String.ofList (s.toList.flatMap htmlEncodeChar)

/-- A text with characters in place of the five entities. -/
def htmlDecodeChars : List Char → List Char
  | [] => []
  | '&' :: 'a' :: 'm' :: 'p' :: ';' :: rest => '&' :: htmlDecodeChars rest
  | '&' :: 'l' :: 't' :: ';' :: rest => '<' :: htmlDecodeChars rest
  | '&' :: 'g' :: 't' :: ';' :: rest => '>' :: htmlDecodeChars rest
  | '&' :: 'q' :: 'u' :: 'o' :: 't' :: ';' :: rest => '"' :: htmlDecodeChars rest
  | '&' :: '#' :: '3' :: '9' :: ';' :: rest => '\'' :: htmlDecodeChars rest
  | c :: rest => c :: htmlDecodeChars rest

/-- The text that an encoded form stands for. -/
def htmlDecode (s : String) : String := String.ofList (htmlDecodeChars s.toList)

/-! ### Encoding and decoding -/

/-- What the encoded form of a character stands for is the character. -/
theorem htmlDecodeChars_encodeChar (c : Char) (rest : List Char) :
    htmlDecodeChars (htmlEncodeChar c ++ rest) = c :: htmlDecodeChars rest := by
  unfold htmlEncodeChar
  split
  · rfl
  · rfl
  · rfl
  · rfl
  · rfl
  · rw [List.singleton_append, htmlDecodeChars] <;> (rintro _ rfl; contradiction)

theorem htmlDecode_htmlEncode (s : String) : htmlDecode (htmlEncode s) = s := by
  have : ∀ cs, htmlDecodeChars (cs.flatMap htmlEncodeChar) = cs := by
    intro cs
    induction cs with
    | nil => rfl
    | cons c cs ih => rw [List.flatMap_cons, htmlDecodeChars_encodeChar, ih]
  simp [htmlDecode, htmlEncode, this]

end Stencil.Text

/-!
Reading bytes as text. A character takes one to four bytes, the first of which tells their number. Bytes that are
no character are replaced: those from a first byte on that could still have become a character together by one
replacement character, and every byte that starts nothing by one of its own.
-/

namespace Stencil.Text

/-- The character that stands for bytes that are no text. -/
def replacement : Char := '\uFFFD'

/-- The bytes that may follow in a character, as a closed range. -/
abbrev ByteRange := Nat × Nat

/-- The bytes that go on with a character. -/
def continuation : ByteRange := (0x80, 0xBF)

/-- What a first byte announces: its share of the character's number, how many bytes follow, and the range of the
next of them, which keeps out longer forms than needed, surrogates and numbers beyond the last character. -/
def announced? (b : Nat) : Option (Nat × Nat × ByteRange) :=
  if b < 0x80 then some (b, 0, continuation)
  else if 0xC2 ≤ b ∧ b ≤ 0xDF then some (b - 0xC0, 1, continuation)
  else if b = 0xE0 then some (0, 2, (0xA0, 0xBF))
  else if b = 0xED then some (0xD, 2, (0x80, 0x9F))
  else if 0xE1 ≤ b ∧ b ≤ 0xEF then some (b - 0xE0, 2, continuation)
  else if b = 0xF0 then some (0, 3, (0x90, 0xBF))
  else if 0xF1 ≤ b ∧ b ≤ 0xF3 then some (b - 0xF0, 3, continuation)
  else if b = 0xF4 then some (4, 3, (0x80, 0x8F))
  else none

/-- Reads the bytes that follow in a character: the character if they are all there, and what is left. -/
def readCharacter (value : Nat) : Nat → ByteRange → List UInt8 → Char × List UInt8
  | 0, _, rest => (Char.ofNat value, rest)
  | _ + 1, _, [] => (replacement, [])
  | count + 1, range, b :: rest =>
    if range.1 ≤ b.toNat ∧ b.toNat ≤ range.2 then
      readCharacter (value * 64 + (b.toNat - 0x80)) count continuation rest
    else (replacement, b :: rest)

theorem length_readCharacter_le (value count : Nat) (range : ByteRange) (bytes : List UInt8) :
    (readCharacter value count range bytes).2.length ≤ bytes.length := by
  fun_induction readCharacter value count range bytes with
  | case1 => exact Nat.le_refl _
  | case2 => exact Nat.le_refl _
  | case3 _ _ _ _ _ _ ih => exact Nat.le_succ_of_le ih
  | case4 => exact Nat.le_refl _

/-- The text of bytes. -/
def textOfBytes (bytes : List UInt8) : List Char :=
  match bytes with
  | [] => []
  | b :: rest =>
    match announced? b.toNat with
    | none => replacement :: textOfBytes rest
    | some (value, count, range) =>
      (readCharacter value count range rest).1 :: textOfBytes (readCharacter value count range rest).2
termination_by bytes.length
decreasing_by
  · exact Nat.lt_succ_self _
  · exact Nat.lt_succ_of_le (length_readCharacter_le value count range rest)

end Stencil.Text

/-!
Cutting a text at the first occurrence of another one, and the text of natural numbers.
-/

namespace Stencil.Text

-- Powers are those of the natural numbers themselves, also where monoids are at hand.
attribute [local instance (high)] instPowNat

/-- What stands before and after the first occurrence of the needle. -/
def cut? (needle : List Char) : List Char → Option (List Char × List Char)
  | [] => if needle.isEmpty then some ([], []) else none
  | c :: cs =>
    if needle.isPrefixOf (c :: cs) then some ([], (c :: cs).drop needle.length)
    else (cut? needle cs).map fun r => (c :: r.1, r.2)

/-- The text without the given start, if it starts so. -/
def dropStart? (start cs : List Char) : Option (List Char) :=
  if start.isPrefixOf cs then some (cs.drop start.length) else none

/-- The text without the given end, if it ends so. -/
def dropEnd? (ending cs : List Char) : Option (List Char) :=
  if ending.isSuffixOf cs then some (cs.take (cs.length - ending.length)) else none

/-- The decimal digits of a number. -/
def digitsOf (n : Nat) : List Char := Nat.toDigits 10 n

/-- The value of a run of decimal digits, added to what was read before it. -/
def digitsValue (n : Nat) (cs : List Char) : Nat :=
  cs.foldl (fun n c => n * 10 + (c.toNat - 48)) n

/-- The largest count that is read. -/
def maxCount : Nat := 2 ^ (64 : Nat) - 1

/-- The value of a count: decimal digits, which a plus sign may precede, up to the largest count. -/
def readCount? (cs : List Char) : Option Nat :=
  let digits := (dropStart? ['+'] cs).getD cs
  if digits.isEmpty ∨ ¬digits.all Char.isDigit then none
  else
    let n := digitsValue 0 digits
    if n ≤ maxCount then some n else none

/-! ### Small laws -/

/-- A cut text is what stands before the needle, the needle, and what stands after it. -/
theorem eq_of_cut? {needle cs before after : List Char} (h : cut? needle cs = some (before, after)) :
    cs = before ++ needle ++ after := by
  induction cs generalizing before with
  | nil =>
    simp only [cut?] at h
    split at h
    · rename_i hn
      cases h
      simp [List.isEmpty_iff.mp hn]
    · cases h
  | cons c cs ih =>
    simp only [cut?] at h
    split at h
    · rename_i hp
      obtain ⟨r, hr⟩ := List.isPrefixOf_iff_prefix.mp hp
      cases h
      rw [← hr, List.drop_left]
      rfl
    · obtain ⟨⟨b, a⟩, hb, he⟩ := Option.map_eq_some_iff.mp h
      cases he
      rw [ih hb]
      rfl

end Stencil.Text

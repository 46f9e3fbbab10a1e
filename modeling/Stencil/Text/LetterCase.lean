import Stencil.Text.CaseTable

/-!
Changing the letter case of a text. Every character is replaced by its upper or lower case, which may be
several characters. A capital sigma becomes the final small sigma at the end of a word: a cased character
stands before it and none after it, where ignorable characters in between do not count.
-/

namespace Stencil.Text

/-- The other case of a single character, by runs. -/
def shiftCase (runs : CaseRuns) (n : Nat) : Nat :=
  match runs.find? fun (first, last, step, _) => first ≤ n && n ≤ last && (n - first) % step == 0 with
  | some (_, _, _, distance) => (Int.ofNat n + distance).toNat
  | none => n

/-- The other case of a character. -/
def mapCase (specials : List (Nat × List Nat)) (runs : CaseRuns) (c : Char) : List Char :=
  match specials.find? (·.1 == c.toNat) with
  | some (_, cs) => cs.map Char.ofNat
  | none => [Char.ofNat (shiftCase runs c.toNat)]

/-- The upper case of a text. -/
def upper (cs : List Char) : List Char := cs.flatMap (mapCase upperSpecials upperRuns)

/-- The character lies in one of the ranges. -/
def inRanges (ranges : List (Nat × Nat)) (c : Char) : Bool :=
  ranges.any fun r => r.1 ≤ c.toNat && c.toNat ≤ r.2

/-- The first character that is not ignorable is cased. -/
def startsCased (cs : List Char) : Bool :=
  (cs.dropWhile (inRanges caseIgnorableRanges)).head?.any (inRanges casedRanges)

/-- The lower case of a text that follows another one, which is given last character first. -/
def lowerAfter (before : List Char) : List Char → List Char
  | [] => []
  | c :: cs =>
    let lowered :=
      if c = 'Σ' then (if startsCased before && !startsCased cs then ['ς'] else ['σ'])
      else mapCase lowerSpecials lowerRuns c
    lowered ++ lowerAfter (c :: before) cs

/-- The lower case of a text. -/
def lower (cs : List Char) : List Char := lowerAfter [] cs

end Stencil.Text

import Stencil.Proofs.Json.Numeral
import Stencil.Unit.Generated

/-! The text of a unit, line by line, and the text of pragmas.

A line that holds embedded code stands after its pragma, and the pragma that is read back from its line is the one
that was written, as long as its numbers are counts that can be read. -/

namespace Stencil

/-! ### Counts -/

namespace Text

theorem toList_toString_nat (n : Nat) : (toString n).toList = digitsOf n := String.toList_ofList

theorem digitsValue_append (n : Nat) (cs ds : List Char) :
    digitsValue n (cs ++ ds) = digitsValue (digitsValue n cs) ds := List.foldl_append

theorem digitsValue_digitsOf (n : Nat) : digitsValue 0 (digitsOf n) = n := by
  induction n using Nat.strongRecOn with
  | ind n ih =>
    have hdigit : ∀ d < 10, (Nat.digitChar d).toNat - 48 = d := by decide
    by_cases hn : n < 10
    · rw [Json.digitsOf_of_lt hn]
      simp [digitsValue, hdigit n hn]
    · rw [Json.digitsOf_of_le (by omega), digitsValue_append, ih (n / 10) (by omega)]
      have := hdigit (n % 10) (Nat.mod_lt _ (by omega))
      simp only [digitsValue, List.foldl_cons, List.foldl_nil, this]
      omega

/-- The digits of a count are read as the count. -/
theorem readCount?_digitsOf {n : Nat} (h : n ≤ maxCount) : readCount? (digitsOf n) = some n := by
  obtain ⟨d, ds, hd⟩ := List.exists_cons_of_ne_nil (Json.digitsOf_ne_nil n)
  have hplus : dropStart? ['+'] (digitsOf n) = none := by
    have hne : '+' ≠ d := by
      rintro rfl
      exact absurd (Json.isDigit_of_mem_digitsOf (n := n) (hd ▸ List.mem_cons_self)) (by decide)
    rw [hd, dropStart?, if_neg]
    simpa [List.isPrefixOf] using hne
  have hall : (digitsOf n).all Char.isDigit = true :=
    List.all_eq_true.mpr fun c hc => Json.isDigit_of_mem_digitsOf hc
  rw [readCount?, hplus, Option.getD_none, if_neg (by simp [hall, Json.digitsOf_ne_nil]), digitsValue_digitsOf]
  exact if_pos h

/-- A text is cut before the first place at which the needle starts. -/
theorem cut?_append {before : List Char} {x : Char} (needle rest : List Char) (hb : x ∉ before) :
    cut? (x :: needle) (before ++ x :: needle ++ rest) = some (before, rest) := by
  induction before with
  | nil =>
    have hp : (x :: needle).isPrefixOf (x :: needle ++ rest) = true :=
      List.isPrefixOf_iff_prefix.mpr (List.prefix_append _ _)
    rw [List.nil_append, List.cons_append, cut?, ← List.cons_append, if_pos hp, List.drop_left]
  | cons c cs ih =>
    rw [List.mem_cons, not_or] at hb
    have hp : ¬(x :: needle).isPrefixOf (c :: (cs ++ x :: needle ++ rest)) = true := by
      simp [List.isPrefixOf, hb.1]
    rw [List.cons_append, List.cons_append, cut?, if_neg hp, ih hb.2]
    rfl

end Text

namespace Unit

open Text (digitsOf)

/-! ### Pragmas -/

namespace Pragma

theorem toList_text (p : Pragma) : p.text.toList =
    "#line ".toList ++ (digitsOf p.template.line ++ ':' :: digitsOf p.template.column ++ " @".toList ++ digitsOf p.column) := by
  show (toString "#line " ++ toString p.template.line ++ toString ":" ++ toString p.template.column ++ toString " @" ++
    toString p.column).toList = _
  simp only [String.toList_append, Text.toList_toString_nat, List.append_assoc]
  rfl

theorem not_mem_newline (p : Pragma) : '\n' ∉ p.text.toList := by
  have hdigit : ∀ n, '\n' ∉ digitsOf n := fun n hn => absurd (Json.isDigit_of_mem_digitsOf hn) (by decide)
  rw [toList_text]
  simp [hdigit]

theorem head?_digits {n : Nat} (cs : List Char) {c : Char} (h : c ∈ (digitsOf n ++ cs).head?) :
    Text.isBlank c = false := by
  obtain ⟨d, ds, hd⟩ := List.exists_cons_of_ne_nil (Json.digitsOf_ne_nil n)
  rw [hd] at h
  cases h
  exact Text.not_blank_of_isDigit (Json.isDigit_of_mem_digitsOf (n := n) (hd ▸ List.mem_cons_self))

theorem getLast?_digits {n : Nat} (cs : List Char) {c : Char} (h : c ∈ (cs ++ digitsOf n).getLast?) :
    Text.isBlank c = false := by
  rw [List.getLast?_append_of_ne_nil _ (Json.digitsOf_ne_nil n)] at h
  exact Text.not_blank_of_isDigit (Json.isDigit_of_mem_digitsOf (List.mem_of_getLast? h))

/-- A pragma that can be read is read back from its line. -/
theorem ofLine?_text {p : Pragma} (hl : p.template.line ≤ Text.maxCount) (hc : p.template.column ≤ Text.maxCount)
    (hg : p.column ≤ Text.maxCount) : ofLine? p.text.toList = some p := by
  have hdigit : ∀ {n c}, c ∈ digitsOf n → c.isDigit = true := Json.isDigit_of_mem_digitsOf
  have hplace : ' ' ∉ digitsOf p.template.line ++ ':' :: digitsOf p.template.column := by
    intro h
    rcases List.mem_append.mp h with h | h
    · exact absurd (hdigit h) (by decide)
    · rcases List.mem_cons.mp h with h | h
      · exact absurd h (by decide)
      · exact absurd (hdigit h) (by decide)
  have hcolon : ':' ∉ digitsOf p.template.line := fun h => absurd (hdigit h) (by decide)
  -- The line has blanks between its parts only.
  have htrim : Text.trim p.text.toList = p.text.toList := by
    rw [toList_text, ← List.append_assoc]
    refine Text.trim_of_ends (fun c hc => ?_) fun c hc => getLast?_digits _ hc
    cases hc
    decide
  have htrimPlace : Text.trim (digitsOf p.template.line ++ ':' :: digitsOf p.template.column) =
      digitsOf p.template.line ++ ':' :: digitsOf p.template.column := by
    refine Text.trim_of_ends (fun c hc => head?_digits _ hc) fun c hc => ?_
    rw [← List.singleton_append, ← List.append_assoc] at hc
    exact getLast?_digits _ hc
  have htrimColumn : Text.trim (digitsOf p.column) = digitsOf p.column :=
    Text.trim_of_ends (fun c hc => head?_digits [] (by rwa [List.append_nil]))
      fun c hc => getLast?_digits [] hc
  have hcutPlace := Text.cut?_append ['@'] (digitsOf p.column) hplace
  have hcutColon := Text.cut?_append [] (digitsOf p.template.column) hcolon
  have hstart : Text.dropStart? "#line ".toList p.text.toList =
      some (digitsOf p.template.line ++ ':' :: digitsOf p.template.column ++ " @".toList ++ digitsOf p.column) := by
    rw [toList_text, Text.dropStart?, if_pos (List.isPrefixOf_iff_prefix.mpr (List.prefix_append _ _)), List.drop_left]
  -- Each part is cut off where it was joined, and each number is read back.
  rw [ofLine?, htrim, hstart]
  show (Text.cut? " @".toList _).bind _ = _
  rw [show " @".toList = ' ' :: ['@'] from rfl, hcutPlace]
  show (Text.cut? [':'] (Text.trim _)).bind _ = _
  rw [htrimPlace]
  rw [show digitsOf p.template.line ++ ':' :: digitsOf p.template.column =
    digitsOf p.template.line ++ [':'] ++ digitsOf p.template.column by simp, hcutColon]
  show (Text.readCount? (digitsOf p.template.line)).bind _ = _
  rw [Text.readCount?_digitsOf hl]
  show (Text.readCount? (digitsOf p.template.column)).bind _ = _
  rw [Text.readCount?_digitsOf hc]
  show (Text.readCount? (Text.trim (digitsOf p.column))).bind _ = _
  rw [htrimColumn, Text.readCount?_digitsOf hg]
  rfl

end Pragma

/-! ### Lines -/

namespace Line

/-- The characters of lines, each ended by a line feed. -/
def chars (lines : List Line) : List Char := lines.flatMap fun l => l.text.toList ++ ['\n']

theorem toList_render (lines : List Line) : (render lines).toList = chars lines := by
  have hall : ∀ (lines : List Line) (text : String),
      (lines.foldl (fun text line => text ++ line.text ++ "\n") text).toList = text.toList ++ chars lines := by
    intro lines
    induction lines with
    | nil =>
      intro text
      exact (List.append_nil _).symm
    | cons l ls ih =>
      intro text
      rw [List.foldl_cons, ih, String.toList_append, String.toList_append, chars, chars, List.flatMap_cons]
      simp
  exact (hall lines "").trans (List.nil_append _)

theorem chars_nil : chars [] = [] := rfl

theorem chars_cons (l : Line) (ls : List Line) : chars (l :: ls) = l.text.toList ++ '\n' :: chars ls := by
  rw [chars, List.flatMap_cons, List.append_assoc]
  rfl

theorem chars_append (ls ms : List Line) : chars (ls ++ ms) = chars ls ++ chars ms := List.flatMap_append

theorem toList_pushn (n : Nat) : ("".pushn ' ' n).toList = List.replicate n ' ' := by
  have hall : ∀ n (s : String), (s.pushn ' ' n).toList = s.toList ++ List.replicate n ' ' := by
    intro n
    induction n with
    | zero =>
      intro s
      exact (List.append_nil _).symm
    | succ n ih =>
      intro s
      show ((s.pushn ' ' n).push ' ').toList = _
      rw [String.toList_push, ih, List.append_assoc, List.replicate_succ']
  exact hall n ""

/-- The blanks at the front of a line. -/
def indent (depth : Nat) : List Char := List.replicate (depth * indentWidth) ' '

theorem toList_code (depth : Nat) (text : String) : (code depth text).text.toList = indent depth ++ text.toList := by
  show ("".pushn ' ' (depth * indentWidth) ++ text).toList = _
  rw [String.toList_append, toList_pushn, indent]

/-- A character of code as it is written on one line. -/
def oneLine (c : Char) : Char := if c = '\r' ∨ c = '\n' then ' ' else c

theorem toList_singleLine (code : String) : (singleLine code).toList = code.toList.map oneLine := String.toList_map

theorem oneLine_ne_newline (c : Char) : oneLine c ≠ '\n' := by
  unfold oneLine
  split
  · decide
  · rename_i h
    exact fun hn => h (.inr hn)

end Line

end Unit

end Stencil

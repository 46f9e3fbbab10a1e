import Stencil.Json.Record
import Stencil.Proofs.Json.Reading

/-! How deep a value nests, and what its text reads back as.

A value comes back from its text if it nests no deeper than the reader goes and each of its numbers comes back.
An integer in range comes back as a count if it is below the limit. -/

namespace Stencil.Json

/-! ### Depth -/

mutual

/-- How deep the arrays and objects of a value nest. -/
def nesting : Json → Nat
  | array items => nestingItems items + 1
  | object members => nestingMembers members + 1
  | null | bool _ | number _ | string _ => 0

/-- How deep the deepest item nests. -/
def nestingItems : List Json → Nat
  | [] => 0
  | v :: vs => max v.nesting (nestingItems vs)

/-- How deep the deepest member nests. -/
def nestingMembers : List (String × Json) → Nat
  | [] => 0
  | (_, v) :: rest => max v.nesting (nestingMembers rest)

end

theorem nesting_variant (name : String) (content : Json) : (variant name content).nesting = content.nesting + 1 := by
  simp [variant, nesting, nestingMembers]

theorem nestingItems_le {vs : List Json} {n : Nat} : nestingItems vs ≤ n ↔ ∀ v ∈ vs, v.nesting ≤ n := by
  induction vs with
  | nil => simp [nestingItems]
  | cons v vs ih => simp [nestingItems, ih]

/-! ### Values that come back -/

mutual

/-- What comes back from the text of a value, however deep it nests; nothing if a number is lost. -/
def reread? : Json → Option Json
  | null => some null
  | bool b => some (bool b)
  | number n => n.reread?.map number
  | string s => some (string s)
  | array items => (rereadItems? items).map array
  | object members => (rereadMembers? members).map object

/-- What comes back from the texts of items. -/
def rereadItems? : List Json → Option (List Json)
  | [] => some []
  | v :: vs => do return (← v.reread?) :: (← rereadItems? vs)

/-- What comes back from the texts of members. -/
def rereadMembers? : List (String × Json) → Option (List (String × Json))
  | [] => some []
  | (name, v) :: rest => do return (name, ← v.reread?) :: (← rereadMembers? rest)

end

mutual

/-- The value of a draft is what comes back, unless it nests too deep. -/
theorem value?_draft : (v : Json) → (room : Nat) →
    (v.draft room).value? = if v.nesting ≤ room then v.reread? else none
  | null, _ | bool _, _ | string _, _ => by simp [draft, Draft.value?, nesting, reread?]
  | number n, room => by
    cases h : n.reread? <;> simp [draft, Draft.ofNumber, Draft.value?, nesting, reread?, h]
  | array items, 0 => by simp [draft, Draft.value?, nesting]
  | array items, room + 1 => by
    simp only [draft, Draft.value?, values?_draftItems items room, nesting, reread?, Nat.add_le_add_iff_right]
    split <;> rfl
  | object members, 0 => by simp [draft, Draft.value?, nesting]
  | object members, room + 1 => by
    simp only [draft, Draft.value?, memberValues?_draftMembers members room, nesting, reread?,
      Nat.add_le_add_iff_right]
    split <;> rfl

theorem values?_draftItems : (vs : List Json) → (room : Nat) →
    Draft.values? (draftItems vs room) = if nestingItems vs ≤ room then rereadItems? vs else none
  | [], _ => by simp [draftItems, Draft.values?, nestingItems, rereadItems?]
  | v :: vs, room => by
    simp only [draftItems, Draft.values?, value?_draft v room, values?_draftItems vs room, nestingItems,
      rereadItems?, Nat.max_le]
    by_cases hv : v.nesting ≤ room <;> by_cases hvs : nestingItems vs ≤ room <;> simp [hv, hvs]

theorem memberValues?_draftMembers : (ms : List (String × Json)) → (room : Nat) →
    Draft.memberValues? (draftMembers ms room) = if nestingMembers ms ≤ room then rereadMembers? ms else none
  | [], _ => by simp [draftMembers, Draft.memberValues?, nestingMembers, rereadMembers?]
  | (name, v) :: ms, room => by
    simp only [draftMembers, Draft.memberValues?, value?_draft v room, memberValues?_draftMembers ms room,
      nestingMembers, rereadMembers?, Nat.max_le]
    by_cases hv : v.nesting ≤ room <;> by_cases hms : nestingMembers ms ≤ room <;> simp [hv, hms]

end

/-! ### Counts -/

/-- The digits of a number that is out of range do not all fit. -/
theorem gatherWhole_digitsOf_gt {n : Nat} (h : maxSignificand < n) : (gatherWhole (Text.digitsOf n)).2 ≠ 0 := by
  induction n using Nat.strong_induction_on with
  | _ n ih =>
    have hle : 10 ≤ n := by
      have : 10 ≤ maxSignificand := by decide
      omega
    rw [digitsOf_of_le hle, gatherWhole, List.foldl_append, ← gatherWhole]
    simp only [List.foldl_cons, List.foldl_nil]
    rcases Nat.lt_or_ge maxSignificand (n / 10) with hn | hn
    · have hlost := ih (n / 10) (by omega) hn
      rw [if_neg hlost]
      exact Nat.succ_ne_zero _
    · rw [gatherWhole_digitsOf hn]
      have hlast : shiftIn? (n / 10) (n % 10).digitChar = none := by
        rw [shiftIn?, digitValue_digitChar _ (Nat.mod_lt _ (by decide)), if_neg]
        omega
      simp [hlast]

/-- An integer above the range comes back as a double, if at all. -/
theorem reread?_ne_int {n : Nat} (h : maxSignificand < n) (k : Int) : (Number.int n).reread? ≠ some (.int k) := by
  let a : Numeral := ⟨false, .of n, whole_head_digitsOf n, none, none⟩
  have ha : a.chars = (Number.int n).text := by
    simp [a, Numeral.chars, Numeral.fractionChars, Numeral.exponentChars, Number.text, Digits.of]
  have hread := a.readNumber?_chars endsNumber_nil
  rw [List.append_nil] at hread
  have hlost : (gatherWhole a.whole.chars).2 ≠ 0 := gatherWhole_digitsOf_gt h
  rw [Number.reread?, ← ha, hread, Option.bind_some, Numeral.number?]
  simp only [hlost, false_and, if_false, makeFloat?, ne_eq, Option.map_eq_some_iff, reduceCtorEq, and_false,
    exists_false, not_false_eq_true]

/-- A natural number comes back as a count if it is below the limit. -/
theorem asCount?_draft {limit : Nat} (hl : limit ≤ 2 ^ 64) (n room : Nat) :
    Draft.asCount? limit ((ofNat n).draft room) = if n < limit then some n else none := by
  simp only [ofNat, draft]
  rcases Nat.lt_or_ge maxSignificand n with hn | hn
  · have hge : ¬n < limit := by
      simp only [maxSignificand] at hn
      omega
    rw [if_neg hge]
    rcases hr : (Number.int n).reread? with _ | k | x
    · rfl
    · exact absurd hr (reread?_ne_int hn k)
    · rfl
  · have hr : (Number.int n).reread? = some (.int n) :=
      Number.reread?_int (by omega) (by simp only [maxSignificand] at hn; omega)
    rw [hr]
    simp [Draft.ofNumber, Draft.asCount?]

end Stencil.Json

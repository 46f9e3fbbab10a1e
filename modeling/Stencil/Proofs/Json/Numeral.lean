import Stencil.Json.Numeral
import Stencil.Proofs.Decimal.Shortest

/-! Reading back the text of a number.

The text is a numeral: a sign, digits without a superfluous zero in front, and perhaps a fraction and an
exponent. A numeral is read up to its end whatever follows it, as long as that does not go on with the
numeral. What is read from the text of a number is the number itself if it is an integer in range; a
double may come back as another one, and what is too large is no number. -/

namespace Stencil.Json

open Text (digitsOf digitsValue)

/-! ### Digits -/

theorem isDigit_of_mem_digitsOf {n : Nat} {c : Char} (h : c ∈ digitsOf n) : c.isDigit = true :=
  Nat.isDigit_of_mem_toDigits (by decide) (by decide) h

theorem digitsOf_ne_nil (n : Nat) : digitsOf n ≠ [] := Nat.toDigits_ne_nil

theorem digitsOf_zero : digitsOf 0 = ['0'] := Nat.toDigits_zero 10

theorem digitsOf_of_lt {n : Nat} (h : n < 10) : digitsOf n = [n.digitChar] := Nat.toDigits_of_lt_base h

theorem digitsOf_of_le {n : Nat} (h : 10 ≤ n) : digitsOf n = digitsOf (n / 10) ++ [(n % 10).digitChar] :=
  Nat.toDigits_of_base_le (by decide) h

theorem digitValue_digitChar : ∀ n < 10, digitValue n.digitChar = n := by decide

theorem digitChar_ne_zero : ∀ n < 10, n ≠ 0 → n.digitChar ≠ '0' := by decide

/-- The digits of a positive number do not start with a zero. -/
theorem head?_digitsOf {n : Nat} (hn : n ≠ 0) : (digitsOf n).head? ≠ some '0' := by
  induction n using Nat.strong_induction_on with
  | _ n ih =>
    rcases Nat.lt_or_ge n 10 with h | h
    · rw [digitsOf_of_lt h]
      exact fun h0 => digitChar_ne_zero n h hn (Option.some.inj h0)
    · rw [digitsOf_of_le h, List.head?_append_of_ne_nil _ (digitsOf_ne_nil _)]
      exact ih (n / 10) (by omega) (by omega)

/-- A run of digits is read up to the first character that is none. -/
theorem spanDigits_append {ds rest : List Char} (hd : ∀ c ∈ ds, c.isDigit = true)
    (hr : ∀ c, rest.head? = some c → c.isDigit = false) : spanDigits (ds ++ rest) = (ds, rest) := by
  have hrest : rest.takeWhile Char.isDigit = [] ∧ rest.dropWhile Char.isDigit = rest := by
    cases rest with
    | nil => exact ⟨rfl, rfl⟩
    | cons c cs => simp [hr c rfl]
  rw [spanDigits, List.span_eq_takeWhile_dropWhile, List.takeWhile_append_of_pos hd,
    List.dropWhile_append_of_pos hd, hrest.1, hrest.2, List.append_nil]

/-- The significand of digits that stay in range is their value. -/
theorem gatherWhole_digitsOf {n : Nat} (h : n ≤ maxSignificand) : gatherWhole (digitsOf n) = (n, 0) := by
  induction n using Nat.strong_induction_on with
  | _ n ih =>
    have hlast : ∀ m d, d < 10 → m * 10 + d ≤ maxSignificand → shiftIn? m d.digitChar = some (m * 10 + d) := by
      intro m d hd hle
      simp only [shiftIn?, digitValue_digitChar d hd, hle, if_true]
    rcases Nat.lt_or_ge n 10 with h' | h'
    · rw [digitsOf_of_lt h']
      simp [gatherWhole, hlast 0 n h' (by omega)]
    · rw [digitsOf_of_le h', gatherWhole, List.foldl_append, ← gatherWhole, ih (n / 10) (by omega) (by omega)]
      simp only [List.foldl_cons, List.foldl_nil, if_true]
      rw [hlast (n / 10) (n % 10) (by omega) (by omega)]
      simp only [Prod.mk.injEq, and_true]
      omega

/-! ### Numerals -/

/-- What follows a numeral: neither a digit nor what could start a fraction or an exponent. -/
def EndsNumber (rest : List Char) : Prop :=
  ∀ c, rest.head? = some c → c.isDigit = false ∧ c ≠ '.' ∧ c ≠ 'e' ∧ c ≠ 'E'

theorem endsNumber_nil : EndsNumber [] := fun _ h => by cases h

/-- A run of one or more digits. -/
structure Digits where
  chars : List Char
  all : ∀ c ∈ chars, c.isDigit = true
  ne_nil : chars ≠ []

/-- The digits of a number. -/
def Digits.of (n : Nat) : Digits := ⟨digitsOf n, fun _ => isDigit_of_mem_digitsOf, digitsOf_ne_nil n⟩

/-- A written number, part by part. -/
structure Numeral where
  negative : Bool := false
  whole : Digits
  /-- A zero stands in front only if it is the only digit. -/
  whole_head : whole.chars.head? = some '0' → whole.chars.length = 1
  fraction : Option Digits := none
  /-- The sign and the digits of the exponent. -/
  exponent : Option (Bool × Digits) := none

namespace Numeral

/-- The characters of a fraction. -/
def fractionChars : Option Digits → List Char
  | none => []
  | some ds => '.' :: ds.chars

/-- The characters of an exponent. -/
def exponentChars : Option (Bool × Digits) → List Char
  | none => []
  | some (negative, ds) => 'e' :: (if negative then '-' else '+') :: ds.chars

/-- The characters of a numeral. -/
def chars (a : Numeral) : List Char :=
  (if a.negative then ['-'] else []) ++ a.whole.chars ++ fractionChars a.fraction ++ exponentChars a.exponent

/-- The value of an exponent. -/
def exponentValue : Option (Bool × Digits) → Option Int
  | none => none
  | some (negative, ds) =>
    some (if negative then -(digitsValue 0 ds.chars : Int) else (digitsValue 0 ds.chars : Int))

/-- The number that is read from a numeral, unless it is too large. -/
def number? (a : Numeral) : Option Number :=
  let (significand, dropped) := gatherWhole a.whole.chars
  if dropped = 0 ∧ a.fraction.isNone ∧ a.exponent.isNone then some (makeInteger a.negative significand)
  else
    let (significand, places) := gatherFraction significand ((a.fraction.map (·.chars)).getD [])
    makeFloat? a.negative significand (dropped - places + (exponentValue a.exponent).getD 0)

theorem exponent?_exponentChars {e : Option (Bool × Digits)} {rest : List Char} (hr : EndsNumber rest) :
    exponent? (exponentChars e ++ rest) = some (exponentValue e, rest) := by
  rcases e with _ | ⟨negative, ds⟩
  · cases rest with
    | nil => rfl
    | cons c cs =>
      obtain ⟨-, -, he, hE⟩ := hr c rfl
      simp [exponentChars, exponent?, he, hE, exponentValue]
  · have hspan : spanDigits (ds.chars ++ rest) = (ds.chars, rest) :=
      spanDigits_append ds.all fun c hc => (hr c hc).1
    have hne : ds.chars.isEmpty = false := by simp [ds.ne_nil]
    cases negative <;> simp [exponentChars, exponent?, hspan, hne, exponentValue]

theorem head?_exponentChars {e : Option (Bool × Digits)} {rest : List Char} (hr : EndsNumber rest) {c : Char}
    (h : (exponentChars e ++ rest).head? = some c) : c.isDigit = false ∧ c ≠ '.' := by
  rcases e with _ | ⟨negative, ds⟩
  · exact ⟨(hr c h).1, (hr c h).2.1⟩
  · obtain rfl : 'e' = c := by simpa [exponentChars] using h
    decide

theorem fraction?_fractionChars {f : Option Digits} {rest : List Char}
    (hr : ∀ c, rest.head? = some c → c.isDigit = false ∧ c ≠ '.') :
    fraction? (fractionChars f ++ rest) = some (f.map (·.chars), rest) := by
  cases f with
  | none =>
    cases rest with
    | nil => rfl
    | cons c cs =>
      have hc := (hr c rfl).2
      simp only [fractionChars, List.nil_append, Option.map_none]
      unfold fraction?
      split
      · rename_i heq
        exact absurd (List.cons.inj heq).1 hc
      · rfl
  | some ds =>
    have hspan : spanDigits (ds.chars ++ rest) = (ds.chars, rest) :=
      spanDigits_append ds.all fun c hc => (hr c hc).1
    have hne : ds.chars.isEmpty = false := by simp [ds.ne_nil]
    simp [fractionChars, fraction?, hspan, hne]

theorem head?_fractionChars {f : Option Digits} {rest : List Char}
    (hr : ∀ c, rest.head? = some c → c.isDigit = false ∧ c ≠ '.') {c : Char}
    (h : (fractionChars f ++ rest).head? = some c) : c.isDigit = false := by
  cases f with
  | none => exact (hr c h).1
  | some ds =>
    obtain rfl : '.' = c := by simpa [fractionChars] using h
    decide

theorem isDigit_head (a : Numeral) : ∃ c cs, a.whole.chars = c :: cs ∧ c.isDigit = true := by
  obtain ⟨c, cs, h⟩ := List.exists_cons_of_ne_nil a.whole.ne_nil
  exact ⟨c, cs, h, a.whole.all c (h ▸ List.mem_cons_self)⟩

/-- A numeral is read up to its end. -/
theorem readNumber?_chars (a : Numeral) {rest : List Char} (hr : EndsNumber rest) :
    readNumber? (a.chars ++ rest) = some (a.number?, rest) := by
  have htail : ∀ c, (exponentChars a.exponent ++ rest).head? = some c → c.isDigit = false ∧ c ≠ '.' :=
    fun c => head?_exponentChars hr
  have hspan : spanDigits (a.whole.chars ++ (fractionChars a.fraction ++ (exponentChars a.exponent ++ rest))) =
      (a.whole.chars, fractionChars a.fraction ++ (exponentChars a.exponent ++ rest)) :=
    spanDigits_append a.whole.all fun c => head?_fractionChars htail
  have hok : ¬(a.whole.chars.isEmpty = true ∨ (a.whole.chars.head? = some '0' ∧ a.whole.chars.length > 1)) := by
    rintro (h | ⟨h0, hl⟩)
    · exact a.whole.ne_nil (List.isEmpty_iff.mp h)
    · have := a.whole_head h0
      omega
  have hsign : (a.chars ++ rest).head? = some '-' ↔ a.negative = true := by
    obtain ⟨c, cs, hw, hc⟩ := a.isDigit_head
    cases hneg : a.negative
    · simp only [chars, hneg, hw]
      simp only [Bool.false_eq_true, if_false, List.nil_append, List.cons_append, List.head?_cons,
        Option.some.injEq, iff_false]
      rintro rfl
      exact absurd hc (by decide)
    · simp [chars, hneg]
  have hbody : (if (a.chars ++ rest).head? = some '-' then (a.chars ++ rest).drop 1 else a.chars ++ rest) =
      a.whole.chars ++ (fractionChars a.fraction ++ (exponentChars a.exponent ++ rest)) := by
    simp only [hsign]
    cases hneg : a.negative <;> simp [chars, hneg]
  have hneg : decide ((a.chars ++ rest).head? = some '-') = a.negative := by
    rw [Bool.eq_iff_iff, decide_eq_true_iff]
    exact hsign
  have hfraction : (a.fraction.map (·.chars)).isNone = a.fraction.isNone := by cases a.fraction <;> rfl
  have hexponent : (exponentValue a.exponent).isNone = a.exponent.isNone := by
    rcases a.exponent with _ | ⟨s, e⟩ <;> rfl
  -- Each part of the numeral is read as written, so that the number is the one it stands for.
  unfold readNumber?
  simp only [hneg, hbody, hspan, if_neg hok, fraction?_fractionChars htail, exponent?_exponentChars hr,
    Option.bind_eq_bind, Option.bind_some, hfraction, hexponent, number?]
  split <;> rfl

end Numeral

/-! ### The numerals of numbers -/

/-- The digits of zero. -/
def Digits.zero : Digits := ⟨['0'], List.all_eq_true.mp (by decide), by decide⟩

theorem whole_head_digitsOf (n : Nat) : (digitsOf n).head? = some '0' → (digitsOf n).length = 1 := by
  intro h
  rcases Nat.eq_zero_or_pos n with rfl | hn
  · rw [digitsOf_zero]
    rfl
  · exact absurd h (head?_digitsOf (by omega))

/-- Digits with a point are a numeral. -/
theorem exists_numeral_withPoint {n : Nat} (hn : n ≠ 0) (places : Int) :
    ∃ a : Numeral, a.negative = false ∧ a.chars = Decimal.Layout.withPoint (digitsOf n) places := by
  have hd : ∀ c ∈ digitsOf n, c.isDigit = true := fun c => isDigit_of_mem_digitsOf
  have hz : ∀ (k : Nat), ∀ c ∈ List.replicate k '0', c.isDigit = true := by
    intro k c hc
    rw [List.eq_of_mem_replicate hc]
    decide
  rcases lt_or_ge 0 places with hp | hp
  · -- The point stands among the digits or behind them, and zeros fill up to it.
    have hk : 0 < places.toNat := by omega
    have hwhole : (digitsOf n).take places.toNat ++ List.replicate (places.toNat - (digitsOf n).length) '0' ≠ [] := by
      simp [List.take_eq_nil_iff, digitsOf_ne_nil]
      omega
    have hhead : ((digitsOf n).take places.toNat ++
        List.replicate (places.toNat - (digitsOf n).length) '0').head? ≠ some '0' := by
      rw [List.head?_append_of_ne_nil _ (by simp [List.take_eq_nil_iff, digitsOf_ne_nil]; omega), List.head?_take,
        if_neg (by omega)]
      exact head?_digitsOf hn
    have hall : ∀ c ∈ (digitsOf n).take places.toNat ++
        List.replicate (places.toNat - (digitsOf n).length) '0', c.isDigit = true := by
      intro c hc
      rcases List.mem_append.mp hc with hc | hc
      · exact hd c (List.mem_of_mem_take hc)
      · exact hz _ c hc
    have hfraction : ∃ ds : Digits, ds.chars =
        if ((digitsOf n).drop places.toNat).isEmpty then ['0'] else (digitsOf n).drop places.toNat := by
      split
      · exact ⟨.zero, rfl⟩
      · rename_i h
        exact ⟨⟨_, fun c hc => hd c (List.mem_of_mem_drop hc), fun h' => h (List.isEmpty_iff.mpr h')⟩, rfl⟩
    obtain ⟨ds, hds⟩ := hfraction
    refine ⟨⟨false, ⟨_, hall, hwhole⟩, fun h => absurd h hhead, some ds, none⟩, rfl, ?_⟩
    simp [Numeral.chars, Numeral.fractionChars, Numeral.exponentChars, Decimal.Layout.withPoint, hds,
      Int.not_le.mpr hp]
  · -- The point stands before all digits.
    refine ⟨⟨false, .zero, fun _ => rfl, some ⟨List.replicate (-places).toNat '0' ++ digitsOf n, ?_, ?_⟩, none⟩, rfl,
      ?_⟩
    · intro c hc
      rcases List.mem_append.mp hc with hc | hc
      · exact hz _ c hc
      · exact hd c hc
    · simp [digitsOf_ne_nil]
    · simp [Numeral.chars, Numeral.fractionChars, Numeral.exponentChars, Decimal.Layout.withPoint, Digits.zero, hp]

/-- Digits with an exponent are a numeral. -/
theorem exists_numeral_withExponent {n : Nat} (exponent : Int) :
    ∃ a : Numeral, a.negative = false ∧ a.chars = Decimal.Layout.withExponent (digitsOf n) exponent := by
  have hd : ∀ c ∈ digitsOf n, c.isDigit = true := fun c => isDigit_of_mem_digitsOf
  obtain ⟨d, ds, hcons⟩ := List.exists_cons_of_ne_nil (digitsOf_ne_nil n)
  rw [hcons] at hd ⊢
  have hfraction : ∃ f : Option Digits, Numeral.fractionChars f = if ds.isEmpty then [] else '.' :: ds := by
    split
    · exact ⟨none, rfl⟩
    · rename_i h
      exact ⟨some ⟨ds, fun c hc => hd c (List.mem_cons_of_mem _ hc), fun h' => h (List.isEmpty_iff.mpr h')⟩, rfl⟩
  obtain ⟨f, hf⟩ := hfraction
  refine ⟨⟨false, ⟨[d], fun c hc => hd c (by simp_all), by simp⟩, fun _ => rfl, f,
    some (decide (exponent < 0), .of exponent.natAbs)⟩, rfl, ?_⟩
  simp [Numeral.chars, Numeral.exponentChars, Decimal.Layout.withExponent, hf, Digits.of]

/-- The text of a positive decimal number is a numeral. -/
theorem exists_numeral_write (l : Decimal.Layout) {d : Decimal} (hd : d.digits ≠ 0) :
    ∃ a : Numeral, a.negative = false ∧ a.chars = l.write d := by
  simp only [Decimal.Layout.write]
  split
  · exact exists_numeral_withPoint hd _
  · exact exists_numeral_withExponent _

theorem exists_numeral_sign {a : Numeral} (ha : a.negative = false) (negative : Bool) :
    ∃ a' : Numeral, a'.chars = (if negative then ['-'] else []) ++ a.chars :=
  ⟨⟨negative, a.whole, a.whole_head, a.fraction, a.exponent⟩, by simp [Numeral.chars, ha]⟩

/-- The text of a double is a numeral. -/
theorem exists_numeral_writeFloat (l : Decimal.Layout) (x : Float) : ∃ a : Numeral, a.chars = l.writeFloat x := by
  have hmagnitude : ∃ a : Numeral, a.negative = false ∧ a.chars =
      if (Decimal.Binary.ofBits x.toBits.toNat).mantissa = 0 then ['0', '.', '0']
      else l.write (Decimal.shortest (Decimal.Binary.ofBits x.toBits.toNat)) := by
    obtain ⟨hm, he⟩ := Decimal.Binary.ofBits_bounds x.toBits.toNat
    split
    · exact ⟨⟨false, .zero, fun _ => rfl, some .zero, none⟩, rfl, rfl⟩
    · exact exists_numeral_write l (Decimal.shortest_ne_zero (by omega) hm he)
  obtain ⟨a, ha, hc⟩ := hmagnitude
  obtain ⟨a', ha'⟩ := exists_numeral_sign ha (decide (x.toBits.toNat / 2 ^ 63 = 1))
  refine ⟨a', ?_⟩
  rw [ha', hc]
  simp only [Decimal.Layout.writeFloat, decide_eq_true_eq]

/-- The text of a number is a numeral. -/
theorem exists_numeral_text (n : Number) : ∃ a : Numeral, a.chars = n.text := by
  cases n with
  | float x => exact exists_numeral_writeFloat Number.layout x
  | int n =>
    refine ⟨⟨decide (n < 0), .of n.natAbs, whole_head_digitsOf n.natAbs, none, none⟩, ?_⟩
    by_cases h : n < 0 <;> simp [Numeral.chars, Numeral.fractionChars, Numeral.exponentChars, Number.text, h, Digits.of]

/-- The text of a number starts with a digit or the minus sign. -/
theorem text_head (n : Number) : ∃ c cs, n.text = c :: cs ∧ (c = '-' ∨ c.isDigit = true) := by
  obtain ⟨a, ha⟩ := exists_numeral_text n
  obtain ⟨c, cs, hw, hc⟩ := a.isDigit_head
  rw [← ha]
  cases hneg : a.negative
  · exact ⟨c, cs ++ Numeral.fractionChars a.fraction ++ Numeral.exponentChars a.exponent,
      by simp [Numeral.chars, hneg, hw], .inr hc⟩
  · exact ⟨'-', a.whole.chars ++ Numeral.fractionChars a.fraction ++ Numeral.exponentChars a.exponent,
      by simp [Numeral.chars, hneg], .inl rfl⟩

end Stencil.Json

namespace Stencil.Number

open Json

/-- The number that is read back from the text of a number, unless that is too large. -/
def reread? (n : Number) : Option Number := (readNumber? n.text).bind (·.1)

/-- The text of a number is read up to its end. -/
theorem readNumber?_text (n : Number) {rest : List Char} (hr : EndsNumber rest) :
    readNumber? (n.text ++ rest) = some (n.reread?, rest) := by
  obtain ⟨a, ha⟩ := exists_numeral_text n
  have hself := a.readNumber?_chars endsNumber_nil
  rw [List.append_nil] at hself
  rw [reread?, ← ha, a.readNumber?_chars hr, hself]
  rfl

/-- An integer in range is read back as it is. -/
theorem reread?_int {n : Int} (hlow : -2 ^ 63 ≤ n) (hhigh : n < 2 ^ 64) : (int n).reread? = some (int n) := by
  let a : Numeral := ⟨decide (n < 0), .of n.natAbs, whole_head_digitsOf n.natAbs, none, none⟩
  have ha : a.chars = (int n).text := by
    by_cases h : n < 0 <;> simp [a, Numeral.chars, Numeral.fractionChars, Numeral.exponentChars, text, h, Digits.of]
  have hread := a.readNumber?_chars endsNumber_nil
  rw [List.append_nil] at hread
  have hwhole : gatherWhole a.whole.chars = (n.natAbs, 0) :=
    gatherWhole_digitsOf (by simp only [maxSignificand]; omega)
  have hnumber : a.number? = some (makeInteger a.negative n.natAbs) := by
    simp only [Numeral.number?, hwhole]
    rfl
  rw [reread?, ← ha, hread, hnumber]
  by_cases h : n < 0
  · have hne : ¬(n.natAbs = 0 ∨ n.natAbs > 2 ^ 63) := by omega
    have hneg : a.negative = true := decide_eq_true h
    simp only [Option.bind_some, makeInteger, hneg, Bool.not_true, Bool.false_eq_true, if_false, if_neg hne,
      Option.some.injEq, int.injEq]
    omega
  · have hneg : a.negative = false := decide_eq_false h
    simp only [Option.bind_some, makeInteger, hneg, Bool.not_false, if_true, Option.some.injEq, int.injEq]
    omega

end Stencil.Number

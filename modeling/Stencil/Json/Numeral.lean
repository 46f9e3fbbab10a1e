import Stencil.Json.Value

/-!
Reading numbers. An integer between -2^63 and 2^64 - 1 is exact, minus zero apart; everything else becomes a
double. The digits of such a number are gathered into a significand while it stays below 2^64: further
digits before the point only raise the exponent, further digits after it are dropped. The significand is
then multiplied or divided by a power of ten, in one step where the power is a double.
-/

namespace Stencil.Json

-- Powers are those of the natural numbers themselves, also where monoids are at hand.
attribute [local instance (high)] instPowNat

/-- The largest significand. -/
def maxSignificand : Nat := 2 ^ (64 : Nat) - 1

/-- The value of a decimal digit. -/
def digitValue (c : Char) : Nat := c.toNat - 48

/-- The significand with one more digit, if it stays in range. -/
def shiftIn? (significand : Nat) (c : Char) : Option Nat :=
  let n := significand * 10 + digitValue c
  if n ≤ maxSignificand then some n else none

/-- The significand of the digits before the point, and the number of digits that did not fit. -/
def gatherWhole (digits : List Char) : Nat × Nat :=
  digits.foldl (fun (n, dropped) c =>
    if dropped = 0 then
      match shiftIn? n c with
      | some n => (n, 0)
      | none => (n, 1)
    else (n, dropped + 1)) (0, 0)

/-- The significand with the digits after the point that fit, and their number. -/
def gatherFraction (significand : Nat) : List Char → Nat × Nat
  | [] => (significand, 0)
  | c :: cs =>
    match shiftIn? significand c with
    | none => (significand, 0)
    | some n =>
      let (n, places) := gatherFraction n cs
      (n, places + 1)

/-- The largest exponent whose power of ten is a double. -/
def maxPower : Nat := 308

/-- The double nearest to a power of ten. -/
def powerOfTen (n : Nat) : Float := Float.ofScientific 1 false n

/-- A double times a power of ten; nothing if the result is too large. The steps are few, since what is
divided by the largest power twice is zero. -/
def scale? : Nat → Float → Int → Option Float
  | 0, x, _ => some x
  | steps + 1, x, e =>
    if e.natAbs ≤ maxPower then
      if 0 ≤ e then
        let y := x * powerOfTen e.natAbs
        if y.isInf then none else some y
      else some (x / powerOfTen e.natAbs)
    else if x == 0 then some x
    else if 0 ≤ e then none
    else scale? steps (x / powerOfTen maxPower) (e + maxPower)

/-- The digits at the start of a text, and what follows them. -/
def spanDigits (cs : List Char) : List Char × List Char := cs.span Char.isDigit

/-- The digits after a point, if one comes next; there has to be one. -/
def fraction? : List Char → Option (Option (List Char) × List Char)
  | '.' :: rest =>
    let (digits, rest) := spanDigits rest
    if digits.isEmpty then none else some (some digits, rest)
  | rest => some (none, rest)

/-- The exponent, if one comes next; it has at least one digit. -/
def exponent? : List Char → Option (Option Int × List Char)
  | c :: rest =>
    if c = 'e' ∨ c = 'E' then
      let negative := rest.head? = some '-'
      let rest := if negative ∨ rest.head? = some '+' then rest.drop 1 else rest
      let (digits, rest) := spanDigits rest
      let n := Text.digitsValue 0 digits
      if digits.isEmpty then none else some (some (if negative then -n else n), rest)
    else some (none, c :: rest)
  | [] => some (none, [])

/-- The number with a sign, a significand and digits that were dropped or moved behind the point. -/
def makeFloat? (negative : Bool) (significand : Nat) (exponent : Int) : Option Number :=
  (scale? 4 (Float.ofNat significand) exponent).map fun x => .float (if negative then -x else x)

/-- The number with a sign and a significand. -/
def makeInteger (negative : Bool) (significand : Nat) : Number :=
  if !negative then .int significand
  else if significand = 0 ∨ significand > 2 ^ (63 : Nat) then .float (-Float.ofNat significand)
  else .int (-significand)

/-- Reads a number. The result is the number, or nothing for one that is too large, and what follows it. -/
def readNumber? (cs : List Char) : Option (Option Number × List Char) := do
  let negative := cs.head? = some '-'
  let (whole, rest) := spanDigits (if negative then cs.drop 1 else cs)
  if whole.isEmpty ∨ (whole.head? = some '0' ∧ whole.length > 1) then none
  let (significand, dropped) := gatherWhole whole
  let (fraction, rest) ← fraction? rest
  let (exponent, rest) ← exponent? rest
  if dropped = 0 ∧ fraction.isNone ∧ exponent.isNone then
    return (some (makeInteger negative significand), rest)
  let (significand, places) := gatherFraction significand (fraction.getD [])
  return (makeFloat? negative significand (dropped - places + exponent.getD 0), rest)

end Stencil.Json

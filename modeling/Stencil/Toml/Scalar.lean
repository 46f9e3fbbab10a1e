import Stencil.Text.Cut
import Stencil.Text.Hex
import Stencil.Toml.Value

/-!
TOML numbers, truth values and times, read from whole words. Underscores may stand between digits. An integer
has 64 bits, a number with a point must not round to infinity, and the parts of a time must be in range.
-/

namespace Stencil.Toml

-- Powers are those of the natural numbers themselves, also where monoids are at hand.
attribute [local instance (high)] instPowNat

/-! ### Digits -/

/-- The digits with no underscore before the next digit; an underscore stands between digits only. -/
def digitRun? (isDigit : Char → Bool) : List Char → Option (List Char)
  | [] => none
  | [c] => if isDigit c then some [c] else none
  | c :: '_' :: rest => if isDigit c then (digitRun? isDigit rest).map (c :: ·) else none
  | c :: rest => if isDigit c then (digitRun? isDigit rest).map (c :: ·) else none

/-- The value of digits to a base. -/
def valueOf (base : Nat) (digits : List Char) : Nat :=
  digits.foldl (fun n c => n * base + (Text.hexValue? c).getD 0) 0

/-- The digit counts to the base. -/
def isDigitOf (base : Nat) (c : Char) : Bool := (Text.hexValue? c).any (· < base)

/-- The digits of a whole number, which has no leading zero. -/
def wholeDigits? (cs : List Char) : Option (List Char) :=
  match digitRun? Char.isDigit cs with
  | some ('0' :: _ :: _) => none
  | digits => digits

/-- A text without its sign, and whether it is negative. -/
def splitSign : List Char → Bool × List Char
  | '-' :: cs => (true, cs)
  | '+' :: cs => (false, cs)
  | cs => (false, cs)

/-! ### Numbers -/

/-- The greatest integer. -/
def maxInteger : Nat := 2 ^ (63 : Nat) - 1

/-- An integer without a sign, in range. -/
def positive? (n : Nat) : Option Toml := if n ≤ maxInteger then some (integer n) else none

/-- An integer to base ten, or without a sign to another one. -/
def integer? (cs : List Char) : Option Toml :=
  match cs with
  | '0' :: 'x' :: cs => do positive? (valueOf 16 (← digitRun? (isDigitOf 16) cs))
  | '0' :: 'o' :: cs => do positive? (valueOf 8 (← digitRun? (isDigitOf 8) cs))
  | '0' :: 'b' :: cs => do positive? (valueOf 2 (← digitRun? (isDigitOf 2) cs))
  | cs => do
    let (negative, cs) := splitSign cs
    let n := valueOf 10 (← wholeDigits? cs)
    if negative then if n ≤ maxInteger + 1 then some (integer (-n)) else none
    else positive? n

/-- The least natural number that rounds to infinity as a double. -/
def overflowBound : Nat := 2 ^ (1024 : Nat) - 2 ^ (970 : Nat)

/-- The number of the digits, moved by the exponent, rounds to infinity. -/
def overflows (digits : List Char) (exponent : Int) : Bool :=
  let digits := digits.dropWhile (· == '0')
  let places := digits.length + exponent
  if digits = [] ∨ places < 300 then false
  else if 320 < places then true
  else if 0 ≤ exponent then overflowBound ≤ valueOf 10 digits * 10 ^ exponent.toNat
  else overflowBound * 10 ^ exponent.natAbs ≤ valueOf 10 digits

/-- What stands before and after the first character of a kind. -/
def splitAt? (p : Char → Bool) (cs : List Char) : Option (List Char × List Char) :=
  match cs.dropWhile fun c => !p c with
  | [] => none
  | _ :: rest => some (cs.takeWhile fun c => !p c, rest)

/-- The value of an exponent. -/
def exponent? (cs : List Char) : Option Int := do
  let (negative, cs) := splitSign cs
  let n := valueOf 10 (← digitRun? Char.isDigit cs)
  return if negative then -n else n

/-- The digits of a number with a point or an exponent and no sign, and its exponent. -/
def floatParts? (cs : List Char) : Option (List Char × Int) := do
  let isMark (c : Char) := c == 'e' || c == 'E'
  let (mantissa, exponent) ← match splitAt? isMark cs with
    | some (m, e) => do pure (m, some (← exponent? e))
    | none => pure (cs, none)
  match splitAt? (· == '.') mantissa with
  | some (whole, fraction) =>
    let whole ← wholeDigits? whole
    let fraction ← digitRun? Char.isDigit fraction
    return (whole ++ fraction, exponent.getD 0 - fraction.length)
  | none => return (← wholeDigits? mantissa, ← exponent)

/-- A number with a point or an exponent, infinity, or no number. -/
def float? (cs : List Char) : Option Toml :=
  let (negative, unsigned) := splitSign cs
  if unsigned = "inf".toList ∨ unsigned = "nan".toList then some (float (String.ofList cs))
  else do
    let (digits, exponent) ← floatParts? unsigned
    if !negative ∧ overflows digits exponent then none else some (float (String.ofList cs))

/-! ### Times -/

/-- The value of a number of decimal digits, if they come next. -/
def fixedDigits? (count : Nat) (cs : List Char) : Option (Nat × List Char) :=
  let digits := cs.take count
  if digits.length = count ∧ digits.all Char.isDigit then some (valueOf 10 digits, cs.drop count) else none

/-- What follows a character, if it comes next. -/
def after? (c : Char) : List Char → Option (List Char)
  | d :: rest => if c = d then some rest else none
  | [] => none

/-- The number of days in a month. -/
def daysIn (year month : Nat) : Nat :=
  if month = 2 then
    if year % 4 = 0 ∧ (year % 100 ≠ 0 ∨ year % 400 = 0) then 29 else 28
  else if month = 4 ∨ month = 6 ∨ month = 9 ∨ month = 11 then 30
  else 31

/-- What follows a date, if one comes next. -/
def afterDate? (cs : List Char) : Option (List Char) := do
  let (year, rest) ← fixedDigits? 4 cs
  let (month, rest) ← fixedDigits? 2 (← after? '-' rest)
  let (day, rest) ← fixedDigits? 2 (← after? '-' rest)
  if 1 ≤ month ∧ month ≤ 12 ∧ 1 ≤ day ∧ day ≤ daysIn year month then some rest else none

/-- What follows hours and minutes, if they come next. -/
def afterHourMinute? (cs : List Char) : Option (List Char) := do
  let (hour, rest) ← fixedDigits? 2 cs
  let (minute, rest) ← fixedDigits? 2 (← after? ':' rest)
  if hour ≤ 23 ∧ minute ≤ 59 then some rest else none

/-- What follows the time of a day, if one comes next. -/
def afterClock? (cs : List Char) : Option (List Char) := do
  let (second, rest) ← fixedDigits? 2 (← after? ':' (← afterHourMinute? cs))
  if second > 60 then none
  match rest with
  | '.' :: rest =>
    let digits := rest.takeWhile Char.isDigit
    if digits.isEmpty then none else some (rest.drop digits.length)
  | rest => some rest

/-- The text is empty or an offset from universal time. -/
def isOffset : List Char → Bool
  | [] => true
  | [c] => c == 'Z' || c == 'z'
  | c :: cs => (c == '+' || c == '-') && afterHourMinute? cs == some []

/-- The text is the time of a day with or without an offset. -/
def isClockWithOffset (cs : List Char) : Bool := (afterClock? cs).any isOffset

/-- The text is a date, a time of a day, or both. -/
def isTime (cs : List Char) : Bool :=
  match afterDate? cs with
  | some [] => true
  | some (c :: rest) => (c == 'T' || c == 't' || c == ' ') && isClockWithOffset rest
  | none => afterClock? cs == some []

/-! ### Words -/

/-- The characters of words. -/
def isWordChar (c : Char) : Bool := c.isAlphanum || "+-_.:".toList.contains c

/-- The value of a word. -/
def word? (cs : List Char) : Option Toml :=
  if cs = "true".toList then some (bool true)
  else if cs = "false".toList then some (bool false)
  else if isTime cs then some (time (String.ofList cs))
  else (float? cs).or (integer? cs)

/-- A word at the start of a text, and what follows it. A date and a time may have a blank between them. -/
def spanWord (cs : List Char) : List Char × List Char :=
  let first := cs.takeWhile isWordChar
  let rest := cs.dropWhile isWordChar
  match rest with
  | ' ' :: c :: more =>
    if c.isDigit ∧ afterDate? first = some [] then
      (first ++ ' ' :: (c :: more).takeWhile isWordChar, (c :: more).dropWhile isWordChar)
    else (first, rest)
  | rest => (first, rest)

/-- A number, truth value or time, and what follows it. -/
def readScalar? (cs : List Char) : Option (Toml × List Char) :=
  let (w, rest) := spanWord cs
  (word? w).map (·, rest)

end Stencil.Toml

import Stencil.Decimal.Shortest
import Stencil.Text.Cut

/-!
Writing decimal numbers: positionally while the exponent of the first digit lies in a range, otherwise with
an exponent whose sign is always written.
-/

namespace Stencil.Decimal

-- Powers are those of the natural numbers themselves, also where monoids are at hand.
attribute [local instance (high)] instPowNat

/-- The exponents of the first digit that are written positionally: from the first one up to below the limit. -/
structure Layout where
  first : Int
  limit : Int

namespace Layout

/-- Digits with a point before all but the first `n` of them; missing places are zeros, and there is a digit
on each side of the point. -/
def withPoint (digits : List Char) (n : Int) : List Char :=
  if n ≤ 0 then '0' :: '.' :: List.replicate (-n).toNat '0' ++ digits
  else
    let n := n.toNat
    let whole := digits.take n ++ List.replicate (n - digits.length) '0'
    let fraction := digits.drop n
    whole ++ '.' :: (if fraction.isEmpty then ['0'] else fraction)

/-- Digits with a point after the first one if there are more, and an exponent. -/
def withExponent (digits : List Char) (exponent : Int) : List Char :=
  let fraction := digits.drop 1
  digits.take 1 ++ (if fraction.isEmpty then [] else '.' :: fraction) ++
    'e' :: (if exponent < 0 then '-' else '+') :: Text.digitsOf exponent.natAbs

/-- The text of a positive decimal number. -/
def write (l : Layout) (d : Decimal) : List Char :=
  let digits := Text.digitsOf d.digits
  let leading := d.exponent + digits.length - 1
  if l.first ≤ leading ∧ leading < l.limit then withPoint digits (leading + 1)
  else withExponent digits leading

/-- The text of a double; zeros are written `0.0` and `-0.0`. -/
def writeFloat (l : Layout) (x : Float) : List Char :=
  let bits := x.toBits.toNat
  let sign := if bits / 2 ^ (63 : Nat) = 1 then ['-'] else []
  let b := Binary.ofBits bits
  sign ++ if b.mantissa = 0 then ['0', '.', '0'] else l.write (shortest b)

end Layout

end Stencil.Decimal

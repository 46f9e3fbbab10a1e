/-!
The fewest decimal digits that read back. A binary number stands for every real number that rounds to it;
of the decimal numbers among them, one with the fewest digits is taken, and of those the nearest to the
binary number itself.
-/

namespace Stencil

/-- The positive number `digits · 10 ^ exponent`. -/
structure Decimal where
  digits : Nat
  exponent : Int
deriving DecidableEq

namespace Decimal

/-- The positive number `mantissa · 2 ^ exponent` of a binary format. -/
structure Binary where
  mantissa : Nat
  exponent : Int
  /-- The next smaller number of the format is only half as far away as the next larger one. -/
  narrowBelow : Bool
deriving DecidableEq

namespace Binary

-- Powers are those of the natural numbers themselves, also where monoids are at hand.
attribute [local instance (high)] instPowNat

/-- The magnitude of a double given by its bits, zero having mantissa zero. -/
def ofBits (bits : Nat) : Binary :=
  let fraction := bits % 2 ^ (52 : Nat)
  let biased : Nat := bits / 2 ^ (52 : Nat) % 2 ^ (11 : Nat)
  if biased = 0 then ⟨fraction, -1074, false⟩
  else ⟨2 ^ (52 : Nat) + fraction, Int.ofNat biased - 1075, fraction == 0 && biased > 1⟩

/-- The factors that bring quarters of the number's last place and multiples of `10 ^ grid` to a common
unit. -/
def scales (b : Binary) (grid : Int) : Nat × Nat :=
  (2 ^ (b.exponent - 2).toNat * 10 ^ (-grid).toNat, 10 ^ grid.toNat * 2 ^ (2 - b.exponent).toNat)

/-- The number `c · 10 ^ grid` rounds to the binary number. -/
def holds (b : Binary) (grid : Int) (c : Nat) : Bool :=
  let (quarter, unit) := b.scales grid
  let low := (4 * b.mantissa - if b.narrowBelow then 1 else 2) * quarter
  let high := (4 * b.mantissa + 2) * quarter
  if b.mantissa % 2 = 0 then low ≤ c * unit && c * unit ≤ high else low < c * unit && c * unit < high

/-- The multiple of `10 ^ grid` that rounds to the binary number and is nearest to it; of two at the same
distance the even one. -/
def nearest? (b : Binary) (grid : Int) : Option Nat :=
  let (quarter, unit) := b.scales grid
  let value := 4 * b.mantissa * quarter
  let below := value / unit
  let rest := value % unit
  match b.holds grid below, b.holds grid (below + 1) with
  | false, false => none
  | true, false => some below
  | false, true => some (below + 1)
  | true, true =>
    if 2 * rest < unit then some below
    else if 2 * rest > unit then some (below + 1)
    else if below % 2 = 0 then some below else some (below + 1)

/-- The largest exponent of at most `limit` whose power of ten is not above the number, searched downwards;
the search ends after `fuel` steps. -/
def leadingExponent (b : Binary) : Nat → Int → Int
  | 0, limit => limit
  | fuel + 1, limit =>
    let (quarter, unit) := b.scales limit
    if unit ≤ 4 * b.mantissa * quarter then limit else b.leadingExponent fuel (limit - 1)

/-- The first hit on the grids from `10 ^ grid` downwards. -/
def firstHit (b : Binary) : Nat → Int → Decimal
  | 0, grid => ⟨(b.nearest? grid).getD 0, grid⟩
  | fuel + 1, grid =>
    match b.nearest? grid with
    | some c => if c = 0 then b.firstHit fuel (grid - 1) else ⟨c, grid⟩
    | none => b.firstHit fuel (grid - 1)

end Binary

/-- The decimal number without trailing zeros in its digits. -/
def strip : Nat → Decimal → Decimal
  | 0, d => d
  | fuel + 1, d => if d.digits % 10 = 0 then strip fuel ⟨d.digits / 10, d.exponent + 1⟩ else d

/-- The decimal number with the fewest digits that rounds to a positive double. -/
def shortest (b : Binary) : Decimal :=
  (b.firstHit 20 (b.leadingExponent 700 309)).strip 20

end Decimal

end Stencil

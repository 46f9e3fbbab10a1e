import Mathlib.Algebra.Order.Field.Power
import Mathlib.Data.Rat.Cast.Order
import Mathlib.Tactic.Linarith
import Mathlib.Tactic.NormNum
import Mathlib.Tactic.Positivity
import Mathlib.Tactic.FieldSimp
import Mathlib.Tactic.Ring
import Stencil.Decimal.Shortest

/-! The shortest decimal of a positive double has a first digit: its digits are a positive number.

The search starts at the leading digit and goes twenty places down. There a unit is smaller than half
the distance to the next double, so that a multiple of it rounds to the double, and that multiple is
not zero since the unit is not above the double. -/

namespace Stencil.Decimal
namespace Binary

/-! ### Units and quarters as rational numbers -/

/-- A power with the positive part of an exponent is one with the exponent and its negative part. -/
theorem pow_toNat {a : ℚ} (ha : a ≠ 0) (z : Int) : a ^ z.toNat = a ^ z * a ^ (-z).toNat := by
  rcases Int.le_total 0 z with h | h
  · obtain ⟨n, rfl⟩ := Int.eq_ofNat_of_zero_le h
    simp
  · obtain ⟨n, hn⟩ := Int.eq_ofNat_of_zero_le (Int.neg_nonneg_of_nonpos h)
    obtain rfl : z = -(n : Int) := by omega
    simp [zpow_neg, ha]

/-- The unit of a grid, in terms of quarters of the number's last place. -/
theorem unit_eq (b : Binary) (grid : Int) :
    ((b.scales grid).2 : ℚ) = (b.scales grid).1 * (10 ^ grid * 2 ^ (2 - b.exponent)) := by
  have hten := pow_toNat (a := 10) (by norm_num) grid
  have htwo := pow_toNat (a := 2) (by norm_num) (2 - b.exponent)
  rw [show -(2 - b.exponent) = b.exponent - 2 by omega] at htwo
  simp only [scales, Nat.cast_mul, Nat.cast_pow, Nat.cast_ofNat, hten, htwo]
  ring

theorem quarter_pos (b : Binary) (grid : Int) : 0 < (b.scales grid).1 := by
  simp only [scales]
  positivity

theorem unit_pos (b : Binary) (grid : Int) : 0 < (b.scales grid).2 := by
  simp only [scales]
  positivity

/-- The power of ten of a grid is not above the number. -/
def Reaches (b : Binary) (grid : Int) : Prop := (b.scales grid).2 ≤ 4 * b.mantissa * (b.scales grid).1

instance (b : Binary) (grid : Int) : Decidable (b.Reaches grid) := inferInstanceAs (Decidable (_ ≤ _))

theorem reaches_iff {b : Binary} {grid : Int} :
    b.Reaches grid ↔ (10 : ℚ) ^ grid ≤ b.mantissa * 2 ^ b.exponent := by
  have hq : (0 : ℚ) < (b.scales grid).1 := by exact_mod_cast b.quarter_pos grid
  have h2 : (0 : ℚ) < 2 ^ (2 - b.exponent) := by positivity
  have hval : (b.mantissa : ℚ) * 2 ^ b.exponent * 2 ^ (2 - b.exponent) = 4 * b.mantissa := by
    rw [mul_assoc, ← zpow_add₀ (by norm_num)]
    norm_num
    ring
  rw [Reaches, ← @Nat.cast_le ℚ, unit_eq]
  push_cast
  rw [mul_comm (4 * (b.mantissa : ℚ)), mul_le_mul_iff_right₀ hq, ← hval, mul_le_mul_iff_left₀ h2]

/-! ### The leading digit -/

/-- The search for the leading digit ends where the number is reached, if its last place is. -/
theorem reaches_leadingExponent {b : Binary} {fuel : Nat} {limit : Int} (h : b.Reaches (limit - fuel)) :
    b.Reaches (b.leadingExponent fuel limit) := by
  induction fuel generalizing limit with
  | zero => simpa [leadingExponent] using h
  | succ fuel ih =>
    rw [leadingExponent]
    show b.Reaches (if b.Reaches limit then limit else b.leadingExponent fuel (limit - 1))
    split
    · assumption
    · refine ih ?_
      rwa [show limit - 1 - (fuel : Int) = limit - ((fuel + 1 : Nat) : Int) by omega]

/-- Every positive double is above the last place that is searched. -/
theorem reaches_lowest {b : Binary} (hm : 0 < b.mantissa) (he : -1074 ≤ b.exponent) :
    b.Reaches (309 - (700 : Nat)) := by
  rw [reaches_iff]
  have h1 : (1 : ℚ) ≤ b.mantissa := by exact_mod_cast hm
  have h2 : (2 : ℚ) ^ (-1074 : Int) ≤ 2 ^ b.exponent := zpow_le_zpow_right₀ (by norm_num) he
  have h3 : (10 : ℚ) ^ (-391 : Int) ≤ 2 ^ (-1074 : Int) := by
    rw [zpow_neg, zpow_neg]
    refine inv_anti₀ (by positivity) ?_
    calc (2 : ℚ) ^ (1074 : Int) = 8 ^ 358 := by
          rw [show (8 : ℚ) = 2 ^ 3 by norm_num, ← pow_mul]
          rfl
      _ ≤ 10 ^ 358 := pow_le_pow_left₀ (by norm_num) (by norm_num) 358
      _ ≤ 10 ^ 391 := pow_le_pow_right₀ (by norm_num) (by norm_num)
      _ = 10 ^ (391 : Int) := rfl
  calc (10 : ℚ) ^ (309 - ((700 : Nat) : Int)) = 10 ^ (-391 : Int) := by norm_num
    _ ≤ 2 ^ b.exponent := h3.trans h2
    _ ≤ b.mantissa * 2 ^ b.exponent := le_mul_of_one_le_left (by positivity) h1

/-! ### A hit -/

/-- Where a unit is smaller than half the distance to the next double, one of its multiples is a hit, and
not zero if the unit is not above the number. -/
theorem nearest?_of_fine {b : Binary} {grid : Int} (hr : b.Reaches grid)
    (hf : (b.scales grid).2 < 2 * (b.scales grid).1) : ∃ c, b.nearest? grid = some c ∧ c ≠ 0 := by
  have hu := b.unit_pos grid
  have hbelow : 1 ≤ 4 * b.mantissa * (b.scales grid).1 / (b.scales grid).2 :=
    (Nat.one_le_div_iff hu).mpr hr
  have hlt := Nat.lt_mul_div_succ (4 * b.mantissa * (b.scales grid).1) hu
  have hle := Nat.div_mul_le_self (4 * b.mantissa * (b.scales grid).1) (b.scales grid).2
  have hnext : b.holds grid (4 * b.mantissa * (b.scales grid).1 / (b.scales grid).2 + 1) = true := by
    generalize hd : 4 * b.mantissa * (b.scales grid).1 / (b.scales grid).2 = d at *
    have hlow : (4 * b.mantissa - if b.narrowBelow then 1 else 2) * (b.scales grid).1 ≤
        4 * b.mantissa * (b.scales grid).1 := Nat.mul_le_mul_right _ (Nat.sub_le _ _)
    have hhigh : (4 * b.mantissa + 2) * (b.scales grid).1 =
        4 * b.mantissa * (b.scales grid).1 + 2 * (b.scales grid).1 := Nat.add_mul _ _ _
    rw [Nat.mul_comm (b.scales grid).2] at hlt
    have hsucc := Nat.add_one_mul d (b.scales grid).2
    simp only [holds]
    split
    · simp only [Bool.and_eq_true, decide_eq_true_eq]
      omega
    · simp only [Bool.and_eq_true, decide_eq_true_eq]
      omega
  rw [nearest?]
  simp only [hnext]
  cases b.holds grid (4 * b.mantissa * (b.scales grid).1 / (b.scales grid).2)
  · exact ⟨_, rfl, Nat.succ_ne_zero _⟩
  · dsimp only
    split_ifs
    · exact ⟨_, rfl, by omega⟩
    · exact ⟨_, rfl, by omega⟩
    · exact ⟨_, rfl, by omega⟩
    · exact ⟨_, rfl, by omega⟩

/-- Twenty places below the leading digit a unit is smaller than half the distance to the next double. -/
theorem fine_of_reaches {b : Binary} {grid : Int} (hm : b.mantissa < 2 ^ 53) (h : b.Reaches grid) :
    (b.scales (grid - 20)).2 < 2 * (b.scales (grid - 20)).1 := by
  rw [reaches_iff] at h
  have hq : (0 : ℚ) < (b.scales (grid - 20)).1 := by exact_mod_cast b.quarter_pos _
  have hm' : (b.mantissa : ℚ) ≤ 2 ^ 53 := by exact_mod_cast hm.le
  have hten : (10 : ℚ) ^ (grid - 20) * 10 ^ 20 ≤ 2 ^ 53 * 2 ^ b.exponent := by
    rw [← zpow_natCast, ← zpow_add₀ (by norm_num), show grid - 20 + ((20 : Nat) : Int) = grid by omega]
    exact h.trans (mul_le_mul_of_nonneg_right hm' (by positivity))
  have htwo : (2 : ℚ) ^ b.exponent * 2 ^ (2 - b.exponent) = 4 := by
    rw [← zpow_add₀ (by norm_num)]
    norm_num
  have h2 : (0 : ℚ) < 2 ^ (2 - b.exponent) := by positivity
  have hlt : (10 : ℚ) ^ (grid - 20) * 2 ^ (2 - b.exponent) < 2 := by
    have := mul_le_mul_of_nonneg_right hten h2.le
    nlinarith
  rw [← @Nat.cast_lt ℚ, unit_eq]
  push_cast
  rw [mul_comm 2]
  exact mul_lt_mul_of_pos_left hlt hq

theorem reaches_sub {b : Binary} {grid : Int} (h : b.Reaches grid) (n : Nat) : b.Reaches (grid - n) := by
  rw [reaches_iff] at h ⊢
  exact (zpow_le_zpow_right₀ (by norm_num) (by omega)).trans h

/-- A search that ends at a hit that is not zero finds one that is not zero. -/
theorem firstHit_ne_zero {b : Binary} {fuel : Nat} {grid : Int}
    (h : ∃ c, b.nearest? (grid - fuel) = some c ∧ c ≠ 0) : (b.firstHit fuel grid).digits ≠ 0 := by
  induction fuel generalizing grid with
  | zero =>
    obtain ⟨c, hc, h0⟩ := h
    rw [show grid - ((0 : Nat) : Int) = grid by omega] at hc
    simpa [firstHit, hc] using h0
  | succ fuel ih =>
    have hstep := @ih (grid - 1) (by
      rwa [show grid - 1 - (fuel : Int) = grid - ((fuel + 1 : Nat) : Int) by omega])
    rw [firstHit]
    split
    · split
      · exact hstep
      · assumption
    · exact hstep

end Binary

theorem strip_ne_zero {fuel : Nat} {d : Decimal} (h : d.digits ≠ 0) : (strip fuel d).digits ≠ 0 := by
  induction fuel generalizing d with
  | zero => exact h
  | succ fuel ih =>
    rw [strip]
    split
    · exact ih (d := ⟨d.digits / 10, d.exponent + 1⟩) (by show d.digits / 10 ≠ 0; omega)
    · exact h

/-- The shortest decimal of a positive double is positive. -/
theorem shortest_ne_zero {b : Binary} (hm : 0 < b.mantissa) (hm' : b.mantissa < 2 ^ 53)
    (he : -1074 ≤ b.exponent) : (shortest b).digits ≠ 0 := by
  have hr := Binary.reaches_leadingExponent (Binary.reaches_lowest hm he)
  refine strip_ne_zero (Binary.firstHit_ne_zero ?_)
  exact Binary.nearest?_of_fine (Binary.reaches_sub hr 20) (Binary.fine_of_reaches hm' hr)

/-- What a double given by its bits satisfies. -/
theorem Binary.ofBits_bounds (bits : Nat) :
    (Binary.ofBits bits).mantissa < 2 ^ 53 ∧ -1074 ≤ (Binary.ofBits bits).exponent := by
  have hf : bits % 2 ^ 52 < 2 ^ 52 := Nat.mod_lt _ (by positivity)
  simp only [Binary.ofBits]
  split
  · simp only
    omega
  · simp only [Int.ofNat_eq_natCast]
    omega

end Stencil.Decimal

import Mathlib
import Stencil.Json.Value

/-! Integers as doubles.

A double holds an integer by a mantissa of 53 bits and a power of two. Converting an integer with more bits divides it by
a power of two and rounds the quotient to the nearest integer, and to the even one of two. So two integers are equal as
doubles exactly if they are rounded to the same one. -/

namespace Stencil.Double

open Float.Model Float.Model.UnpackedFloat

/-! ### Rounded quotients -/

/-- The quotient rounded to the nearest integer, and to the even one of two. -/
def nearestQuotient (n d : Nat) : Nat :=
  if 2 * (n % d) < d then n / d else if d < 2 * (n % d) then n / d + 1 else n / d + n / d % 2

theorem nearestQuotient_one (n : Nat) : nearestQuotient n 1 = n := by
  simp [nearestQuotient, Nat.mod_one]

theorem nearestQuotient_mul {d c : Nat} (n : Nat) (hc : 0 < c) :
    nearestQuotient (n * c) (d * c) = nearestQuotient n d := by
  have hmod : n * c % (d * c) = n % d * c := Nat.mul_mod_mul_right ..
  have hdiv : n * c / (d * c) = n / d := Nat.mul_div_mul_right _ _ hc
  have hlt (a b : Nat) : a * c < b * c ↔ a < b := Nat.mul_lt_mul_right hc
  simp only [nearestQuotient, hmod, hdiv, ← Nat.mul_assoc, hlt]

theorem nearestQuotient_exact {q d : Nat} (hd : 0 < d) : nearestQuotient (q * d) d = q := by
  have h := nearestQuotient_mul (d := 1) q hd
  rwa [Nat.one_mul, nearestQuotient_one] at h

/-- A rounded quotient is off by no more than a half. -/
theorem nearestQuotient_near (n : Nat) {d : Nat} (hd : 0 < d) :
    2 * n ≤ 2 * (nearestQuotient n d * d) + d ∧ 2 * (nearestQuotient n d * d) ≤ 2 * n + d := by
  have hsum : n / d * d + n % d = n := by rw [Nat.mul_comm, Nat.div_add_mod]
  have hlt : n % d < d := Nat.mod_lt _ hd
  unfold nearestQuotient
  split
  · omega
  · split
    · rw [Nat.add_mul, Nat.one_mul]
      omega
    · rw [Nat.add_mul]
      rcases Nat.mod_two_eq_zero_or_one (n / d) with h | h <;> rw [h] <;> omega

/-- Shifting a mantissa to the right divides it; the round bit tells whether half a unit or more is lost, the sticky bit
whether anything besides that half is. -/
theorem shiftRight_eq (m n : Nat) :
    HShiftRight.hShiftRight (⟨m, false, false⟩ : ExtendedMantissa) n =
      (⟨m / 2 ^ n, decide (2 ^ n ≤ 2 * (m % 2 ^ n)), decide (2 * (m % 2 ^ n) % 2 ^ n ≠ 0)⟩ : ExtendedMantissa) := by
  induction n with
  | zero => simp [HShiftRight.hShiftRight, Nat.repeat, Nat.mod_one]
  | succ n ih =>
    show ExtendedMantissa.shiftRightOne (HShiftRight.hShiftRight (⟨m, false, false⟩ : ExtendedMantissa) n) = _
    have hpos : 0 < 2 ^ n := Nat.two_pow_pos n
    have hsplit : m % 2 ^ (n + 1) = m % 2 ^ n + 2 ^ n * (m / 2 ^ n % 2) := Nat.mod_pow_succ
    have hlt : m % 2 ^ n < 2 ^ n := Nat.mod_lt _ hpos
    have hdiv : m / 2 ^ n / 2 = m / 2 ^ (n + 1) := by rw [Nat.div_div_eq_div_mul, Nat.pow_succ]
    have hround : (m / 2 ^ n % 2 != 0) = decide (2 ^ (n + 1) ≤ 2 * (m % 2 ^ (n + 1))) := by
      rw [hsplit, Nat.pow_succ]
      rcases Nat.mod_two_eq_zero_or_one (m / 2 ^ n) with h | h <;> simp only [h] <;> simp <;> omega
    have hsticky : (decide (2 ^ n ≤ 2 * (m % 2 ^ n)) || decide (2 * (m % 2 ^ n) % 2 ^ n ≠ 0)) =
        decide (2 * (m % 2 ^ (n + 1)) % 2 ^ (n + 1) ≠ 0) := by
      have hrest : 2 * (m % 2 ^ (n + 1)) % 2 ^ (n + 1) = 2 * (m % 2 ^ n) := by
        rw [hsplit, Nat.pow_succ, Nat.mul_comm (2 ^ n) 2, Nat.mul_mod_mul_left, Nat.add_mul_mod_self_left,
          Nat.mod_eq_of_lt hlt]
      rw [hrest, ← Bool.decide_or, decide_eq_decide]
      -- What is lost so far is half a unit or more, or stays itself when it is doubled.
      by_cases hhalf : 2 ^ n ≤ 2 * (m % 2 ^ n)
      · exact iff_of_true (.inl hhalf) (by omega)
      · rw [Nat.mod_eq_of_lt (Nat.lt_of_not_le hhalf)]
        exact or_iff_right hhalf
    rw [ih, ExtendedMantissa.shiftRightOne, hdiv, hround, hsticky]

theorem roundedMantissa_eq (q : Nat) (round sticky : Bool) :
    (⟨q, round, sticky⟩ : ExtendedMantissa).roundedMantissa =
      if round then (if sticky then q + 1 else q + q % 2) else q := by
  cases round <;> cases sticky <;> rfl

/-- Shifting a mantissa to the right and rounding it is rounding the quotient. -/
theorem roundedMantissa_shiftRight (m n : Nat) :
    (HShiftRight.hShiftRight (⟨m, false, false⟩ : ExtendedMantissa) n : ExtendedMantissa).roundedMantissa =
      nearestQuotient m (2 ^ n) := by
  have hlt : m % 2 ^ n < 2 ^ n := Nat.mod_lt _ (Nat.two_pow_pos n)
  rw [shiftRight_eq, roundedMantissa_eq, nearestQuotient]
  rcases Nat.lt_trichotomy (2 * (m % 2 ^ n)) (2 ^ n) with h | h | h
  · rw [if_pos h, if_neg (by simpa using h)]
  · simp only [h, lt_irrefl, if_false, le_refl, decide_true, if_true, Nat.mod_self, ne_eq, not_true_eq_false, decide_false,
      Bool.false_eq_true]
  · have hsticky : 2 * (m % 2 ^ n) % 2 ^ n ≠ 0 := by
      rw [Nat.mod_eq_sub_mod (Nat.le_of_lt h), Nat.mod_eq_of_lt (by omega)]
      omega
    rw [if_neg (Nat.lt_asymm h), if_pos h, if_pos (decide_eq_true (Nat.le_of_lt h)), if_pos (decide_eq_true hsticky)]

/-- What is left of a mantissa without all but 53 of its bits. -/
theorem shift_bounds {m : Nat} (h : 52 ≤ m.log2) :
    2 ^ 52 ≤ m / 2 ^ (m.log2 - 52) ∧ m / 2 ^ (m.log2 - 52) < 2 ^ 53 := by
  have hne : m ≠ 0 := by
    rintro rfl
    exact absurd h (by decide)
  have hpow (k : Nat) (hk : 52 ≤ k) : 2 ^ k * 2 ^ (m.log2 - 52) = 2 ^ (m.log2 + (k - 52)) := by
    rw [← Nat.pow_add]
    congr 1
    omega
  rw [Nat.le_div_iff_mul_le (Nat.two_pow_pos _), Nat.div_lt_iff_lt_mul (Nat.two_pow_pos _), hpow 52 (by omega),
    hpow 53 (by omega)]
  exact ⟨Nat.log2_self_le hne, Nat.lt_log2_self⟩

theorem log2_of_bounds {m : Nat} (hlow : 2 ^ 52 ≤ m) (hhigh : m < 2 ^ 53) : m.log2 = 52 :=
  (Nat.log2_eq_iff (by omega)).mpr ⟨hlow, hhigh⟩

/-- A rounded mantissa has 53 bits, or is the least number with 54. -/
theorem nearestQuotient_bounds {m : Nat} (h : 52 ≤ m.log2) :
    2 ^ 52 ≤ nearestQuotient m (2 ^ (m.log2 - 52)) ∧ nearestQuotient m (2 ^ (m.log2 - 52)) ≤ 2 ^ 53 := by
  obtain ⟨hlow, hhigh⟩ := shift_bounds h
  unfold nearestQuotient
  split
  · omega
  · split <;> omega

/-- A mantissa with 53 bits or more is shifted to 53 bits. -/
theorem shiftToTargetExponent_eq {m : Nat} {e : Int} (h : 52 ≤ m.log2) (he : -1074 ≤ e + (m.log2 - 52 : Nat)) :
    shiftToTargetExponent Format.binary64 m e .exact =
      (HShiftRight.hShiftRight (⟨m, false, false⟩ : ExtendedMantissa) (m.log2 - 52), e + (m.log2 - 52 : Nat)) := by
  have htarget : Format.binary64.targetExponent (totalExponent m e) = e + (m.log2 - 52 : Nat) := by
    simp only [Format.targetExponent, totalExponent, Format.mantissaBits, Format.minExponent]
    omega
  have hshift : (e + ((m.log2 - 52 : Nat) : Int) - e).toNat = m.log2 - 52 := by omega
  rw [shiftToTargetExponent, htarget, shiftToExponent, hshift]
  rfl

/-- The double is an integer: a zero, or a mantissa of 53 bits that is scaled by no less than the last of them. -/
inductive Holds : UnpackedFloat → Int → Prop
  | zero : Holds (.zero .positive) 0
  | finite {s : Sign} {m v : Nat} {e : Int} {hm : 0 < m} (hlog : m.log2 = 52) (he : 0 ≤ e + 52)
      (hv : m * 2 ^ (e + 52).toNat = v * 2 ^ 52) : Holds (.finite s m e hm) (s.apply v)

theorem holds_round {s : Sign} {m v : Nat} {e : Int} (h : 52 ≤ m.log2) (he : 0 ≤ e + m.log2)
    (hv : nearestQuotient m (2 ^ (m.log2 - 52)) * 2 ^ (e + m.log2).toNat = v * 2 ^ 52) :
    Holds (roundWithAccuracy Format.binary64 s m e .exact) (s.apply v) := by
  obtain ⟨hlow, hhigh⟩ := nearestQuotient_bounds h
  generalize hq : nearestQuotient m (2 ^ (m.log2 - 52)) = q at hv hlow hhigh
  have hlog : 52 ≤ q.log2 := (Nat.le_log2 (by omega)).mpr hlow
  have hmantissa := log2_of_bounds (shift_bounds hlog).1 (shift_bounds hlog).2
  -- Rounding may carry into one more bit, and then the mantissa is a power of two.
  have hexact : q / 2 ^ (q.log2 - 52) * 2 ^ (q.log2 - 52) = q := by
    rcases Nat.lt_or_eq_of_le hhigh with hlt | rfl
    · rw [log2_of_bounds hlow hlt, Nat.sub_self, Nat.pow_zero, Nat.div_one, Nat.mul_one]
    · rw [Nat.log2_two_pow]
      rfl
  have hpos : q / 2 ^ (q.log2 - 52) ≠ 0 := by
    intro h0
    rw [h0, Nat.log2_zero] at hmantissa
    omega
  have hfirst := shiftToTargetExponent_eq (e := e) h (by omega)
  have hsecond := shiftToTargetExponent_eq (e := e + (m.log2 - 52 : Nat)) hlog (by omega)
  rw [roundWithAccuracy, hfirst]
  dsimp only
  rw [roundedMantissa_shiftRight, hq, hsecond]
  dsimp only
  rw [shiftRight_eq]
  dsimp only
  rw [dif_neg hpos]
  refine .finite hmantissa (by omega) ?_
  have hexp : (e + ((m.log2 - 52 : Nat) : Int) + ((q.log2 - 52 : Nat) : Int) + 52).toNat =
      (q.log2 - 52) + (e + m.log2).toNat := by omega
  rw [hexp, Nat.pow_add, ← Nat.mul_assoc, hexact, hv]

/-! ### Packing -/

theorem unpackSign_packComponents {spec : Format} {s : Sign} {e : BitVec spec.exponentBits}
    {m : BitVec spec.mantissaBitsWithoutImplicit} : unpackSign (packComponents spec s e m) = s.toBitVec := by
  ext i hi
  obtain rfl : i = 0 := by omega
  simp [unpackSign, packComponents, BitVec.getLsbD_append, BitVec.getElem_append]

theorem ofBitVec_toBitVec (s : Sign) : Sign.ofBitVec s.toBitVec = s := by
  cases s <;> rfl

section
variable {s : Sign} {m b : Nat} {hm : 0 < m}

/-- A mantissa of 53 bits is packed beside its biased exponent. -/
theorem pack_finite (hlog : m.log2 = 52) (hb : b < 2047) :
    UnpackedFloat.pack Format.binary64 (.finite s m (b - 1075) hm) =
      packComponents Format.binary64 s (BitVec.ofNat _ b) (BitVec.ofNat _ m) := by
  have hbiased : ((b : Int) - 1075 + Format.binary64.exponentBias + Format.binary64.mantissaBitsWithoutImplicit).toNat =
      b := by
    simp only [Format.exponentBias]
    omega
  have hbits : 52 + 1 = Format.binary64.mantissaBits := rfl
  simp only [UnpackedFloat.pack, hbiased, hlog, hbits, if_true]
  rw [if_neg]
  show ¬2 ^ 11 ≤ b + 1
  omega

/-- The leading bit of a mantissa of 53 bits is not packed, and is put in front again. -/
theorem toNat_mantissa (hlow : 2 ^ 52 ≤ m) (hhigh : m < 2 ^ 53) : (1#1 ++ BitVec.ofNat 52 m).toNat = m := by
  have hdiv : m = 1 <<< 52 + m % 2 ^ 52 := by
    rw [Nat.shiftLeft_eq]
    omega
  have hor := Nat.shiftLeft_add_eq_or_of_lt (i := 52) (b := m % 2 ^ 52) (Nat.mod_lt _ (by decide)) 1
  rw [BitVec.toNat_append, BitVec.toNat_ofNat, BitVec.toNat_ofNat, ← hor]
  omega

theorem unpack_packComponents (hlow : 2 ^ 52 ≤ m) (hhigh : m < 2 ^ 53) (hpos : 0 < b) (hb : b < 2047) :
    UnpackedFloat.unpack Format.binary64 (packComponents Format.binary64 s (BitVec.ofNat _ b) (BitVec.ofNat _ m)) =
      .finite s m (b - 1075) hm := by
  have hexponent : (BitVec.ofNat 11 b).toNat = b := Nat.mod_eq_of_lt (by omega)
  have hne {v : BitVec 11} (hv : v.toNat ≠ b) : BitVec.ofNat 11 b ≠ v := by
    rintro rfl
    exact hv hexponent
  have hnan : BitVec.ofNat 11 b ≠ -1#11 := hne (Nat.ne_of_gt hb)
  have hzero : BitVec.ofNat 11 b ≠ 0#11 := hne (Nat.ne_of_lt hpos)
  rw [UnpackedFloat.unpack]
  simp only [unpackExponent_packComponents, unpackMantissa_packComponents, unpackSign_packComponents, ofBitVec_toBitVec,
    hnan, hzero, if_false, toNat_mantissa hlow hhigh, hexponent]
  congr

end

/-- Packing keeps an integer that a double can hold. -/
theorem Holds.unpack_pack {u : UnpackedFloat} {i : Int} (h : Holds u i) (hi : i.natAbs ≤ 2 ^ 64) :
    UnpackedFloat.unpack Format.binary64 (UnpackedFloat.pack Format.binary64 u) = u := by
  cases h with
  | zero => rfl
  | @finite s m v e hm hlog he hv =>
    have hv' : v ≤ 2 ^ 64 := by cases s <;> simpa [Sign.apply] using hi
    have hlow : 2 ^ 52 ≤ m := hlog ▸ Nat.log2_self_le (by omega)
    have hhigh : m < 2 ^ 53 := by
      have := Nat.lt_log2_self (n := m)
      rwa [hlog] at this
    have hexp : e + 52 < 65 := by
      by_contra hge
      have hpow : 2 ^ 65 ≤ 2 ^ (e + 52).toNat := Nat.pow_le_pow_right (by decide) (by omega)
      have hle := Nat.mul_le_mul hlow hpow
      rw [hv] at hle
      omega
    obtain ⟨b, rfl, hpos, hb⟩ : ∃ b : Nat, e = b - 1075 ∧ 0 < b ∧ b < 2047 := ⟨(e + 1075).toNat, by omega, by omega, by omega⟩
    rw [pack_finite hlog hb, unpack_packComponents hlow hhigh hpos hb]

/-! ### Comparing -/

theorem log2_mul_two_pow {m : Nat} (hm : m ≠ 0) (k : Nat) : (m * 2 ^ k).log2 = m.log2 + k := by
  induction k with
  | zero => rw [Nat.pow_zero, Nat.mul_one, Nat.add_zero]
  | succ k ih =>
    have hne : m * 2 ^ k ≠ 0 := Nat.mul_ne_zero hm (Nat.two_pow_pos k).ne'
    rw [Nat.pow_succ, ← Nat.mul_assoc, Nat.mul_comm _ 2, Nat.log2_two_mul hne, ih, Nat.add_assoc]

/-- A mantissa of 53 bits and its exponent are determined by the integer. -/
theorem mantissa_unique {m n v : Nat} {d e : Int} (hm : m.log2 = 52) (hn : n.log2 = 52) (hd : 0 ≤ d + 52) (he : 0 ≤ e + 52)
    (hv : m * 2 ^ (d + 52).toNat = v) (hw : n * 2 ^ (e + 52).toNat = v) : d = e ∧ m = n := by
  have hne {m : Nat} (h : m.log2 = 52) : m ≠ 0 := by
    rintro rfl
    exact absurd h (by decide)
  have hlog := congrArg Nat.log2 (hv.trans hw.symm)
  rw [log2_mul_two_pow (hne hm), log2_mul_two_pow (hne hn), hm, hn] at hlog
  have hexp : d = e := by omega
  subst hexp
  exact ⟨rfl, Nat.eq_of_mul_eq_mul_right (Nat.two_pow_pos _) (hv.trans hw.symm)⟩

theorem some_beq_eq (o : Ordering) : (some o == some .eq) = decide (o = .eq) := by
  cases o <;> rfl

theorem some_swap_beq_eq (o : Ordering) : (some o.swap == some .eq) = decide (o = .eq) := by
  cases o <;> rfl

theorem then_eq_eq {a b : Ordering} : a.then b = .eq ↔ a = .eq ∧ b = .eq := by
  cases a <;> cases b <;> decide

theorem pos_of_scaled {m v k : Nat} (hm : 0 < m) (hv : m * 2 ^ k = v * 2 ^ 52) : 0 < v := by
  refine Nat.pos_of_ne_zero fun h => ?_
  rw [h, Nat.zero_mul] at hv
  exact absurd hv (Nat.mul_ne_zero hm.ne' (Nat.two_pow_pos _).ne')

theorem apply_ne_zero (s : Sign) {v : Nat} (hv : 0 < v) : s.apply (v : Int) ≠ 0 := by
  cases s
  · show -(v : Int) ≠ 0
    omega
  · show (v : Int) ≠ 0
    omega

/-- Doubles that are integers are equal exactly if the integers are. -/
theorem Holds.beq {x y : UnpackedFloat} {i j : Int} (hx : Holds x i) (hy : Holds y j) : x.beq y = decide (i = j) := by
  cases hx with
  | zero =>
    cases hy with
    | zero => rfl
    | @finite t n w e hn _ _ hw =>
      rw [decide_eq_false (apply_ne_zero t (pos_of_scaled hn hw)).symm]
      cases t <;> rfl
  | @finite s m v d hm hlog hd hv =>
    have hvpos := pos_of_scaled hm hv
    cases hy with
    | zero =>
      rw [decide_eq_false (apply_ne_zero s hvpos)]
      cases s <;> rfl
    | @finite t n w e hn hlog' he hw =>
      have hwpos := pos_of_scaled hn hw
      -- A mantissa with its top bit set determines the exponent, so equal values are the same floats.
      have hsame : (d = e ∧ m = n) ↔ v = w := by
        constructor
        · rintro ⟨rfl, rfl⟩
          exact Nat.eq_of_mul_eq_mul_right (by decide) (hv.symm.trans hw)
        · rintro rfl
          exact mantissa_unique hlog hlog' hd he hv hw
      have hcompare : (((compare d e).then (compare m n)) = .eq) ↔ v = w := by
        rw [then_eq_eq, compare_eq_iff_eq, compare_eq_iff_eq, hsame]
      cases s <;> cases t
      · show (some ((compare d e).then (compare m n)).swap == some .eq) = decide (-(v : Int) = -w)
        rw [some_swap_beq_eq, decide_eq_decide, hcompare]
        omega
      · refine (decide_eq_false ?_).symm
        show ¬-(v : Int) = w
        omega
      · refine (decide_eq_false ?_).symm
        show ¬(v : Int) = -w
        omega
      · show (some ((compare d e).then (compare m n)) == some .eq) = decide ((v : Int) = w)
        rw [some_beq_eq, decide_eq_decide, hcompare]
        omega

/-! ### Converting -/

/-- The double nearest to a natural number, which is one with 53 significant bits, and the even one of two. -/
def roundedNat (n : Nat) : Nat := nearestQuotient n (2 ^ (n.log2 - 52)) * 2 ^ (n.log2 - 52)

theorem roundedNat_of_lt {n : Nat} (h : n < 2 ^ 53) : roundedNat n = n := by
  have hlog : n.log2 - 52 = 0 := by
    by_cases hn : n = 0
    · subst hn
      decide
    · have := (Nat.log2_lt hn).mpr h
      omega
  rw [roundedNat, hlog, Nat.pow_zero, nearestQuotient_one, Nat.mul_one]

theorem roundedNat_two_pow (k : Nat) : roundedNat (2 ^ k) = 2 ^ k := by
  have hdvd : 2 ^ k = 2 ^ (k - (k - 52)) * 2 ^ (k - 52) := by
    rw [← Nat.pow_add]
    congr 1
    omega
  rw [roundedNat, Nat.log2_two_pow]
  conv_lhs => rw [hdvd]
  rw [nearestQuotient_exact (Nat.two_pow_pos _), ← hdvd]

theorem roundedNat_le {n : Nat} (h : n ≤ 2 ^ 64) : roundedNat n ≤ 2 ^ 64 := by
  rcases Nat.lt_or_eq_of_le h with hlt | rfl
  · by_cases hsmall : n < 2 ^ 53
    · rw [roundedNat_of_lt hsmall]
      exact h
    · have hlog : 52 ≤ n.log2 := (Nat.le_log2 (by omega)).mpr (by omega)
      have hlog' : n.log2 < 64 := (Nat.log2_lt (by omega)).mpr hlt
      calc roundedNat n ≤ 2 ^ 53 * 2 ^ (n.log2 - 52) := Nat.mul_le_mul_right _ (nearestQuotient_bounds hlog).2
        _ ≤ 2 ^ 53 * 2 ^ 11 := Nat.mul_le_mul_left _ (Nat.pow_le_pow_right (by decide) (by omega))
        _ = 2 ^ 64 := by rw [← Nat.pow_add]
  · rw [roundedNat_two_pow]

theorem mul_finite (spec : Format) (s t : Sign) (m n : Nat) (d e : Int) (hm : 0 < m) (hn : 0 < n) :
    UnpackedFloat.mul spec (.finite s m d hm) (.finite t n e hn) = roundWithAccuracy spec (s * t) (m * n) (d + e) .exact :=
  rfl

theorem positive_mul_positive : Sign.positive * Sign.positive = Sign.positive := rfl

/-- A number with 53 bits or more is rounded. -/
theorem holds_ofScientific {n : Nat} (h : 2 ^ 53 ≤ n) :
    Holds (UnpackedFloat.ofScientific Format.binary64 n 0) (roundedNat n) := by
  have hne : n ≠ 0 := by omega
  have hlog : 53 ≤ n.log2 := (Nat.le_log2 hne).mpr h
  have hmantissa : n <<< Format.binary64.mantissaBits * 10 ^ (0 : Int).toNat = n * 2 ^ 53 := by
    rw [Nat.shiftLeft_eq, Int.toNat_zero, Nat.pow_zero, Nat.mul_one]
    rfl
  have hexponent : -(Format.binary64.mantissaBits : Int) + 0 = -53 := rfl
  have hround : UnpackedFloat.ofScientific Format.binary64 n 0 =
      roundWithAccuracy Format.binary64 .positive (n * 2 ^ 53) (-53) .exact := by
    have hsmall : ¬(0 : Int) < -((2 ^ Format.binary64.exponentBits : Int) + n.log2) := by
      simp only
      omega
    have hlarge : ¬(0 : Int) > 2 ^ Format.binary64.exponentBits := Int.not_lt.mpr (Int.pow_nonneg (by decide))
    rw [UnpackedFloat.ofScientific, dif_neg hne, if_neg hlarge, if_neg hsmall, if_pos (Int.le_refl 0), mul_finite]
    rw [hmantissa, hexponent, positive_mul_positive]
  have hlog' : (n * 2 ^ 53).log2 = n.log2 + 53 := log2_mul_two_pow hne 53
  have hscale : 2 ^ (n.log2 + 53 - 52) = 2 ^ (n.log2 - 52) * 2 ^ 53 := by
    rw [show n.log2 + 53 - 52 = (n.log2 - 52) + 53 by omega, Nat.pow_add]
  rw [hround]
  refine holds_round (s := .positive) (by omega) (by omega) ?_
  have hexp : (-53 + ((n * 2 ^ 53).log2 : Int)).toNat = (n.log2 - 52) + 52 := by omega
  rw [hexp, hlog', hscale, nearestQuotient_mul n (Nat.two_pow_pos 53), roundedNat, Nat.pow_add, ← Nat.mul_assoc]

/-- A number with less than 54 bits is kept. -/
theorem holds_ofNat {n : Nat} (h : n < 2 ^ 53) : Holds (UnpackedFloat.ofNat Format.binary64 n) n := by
  rcases Nat.eq_zero_or_pos n with rfl | hpos
  · exact .zero
  have hlog : n.log2 < 53 := (Nat.log2_lt hpos.ne').mpr h
  have hround : UnpackedFloat.ofNat Format.binary64 n =
      roundWithAccuracy Format.binary64 .positive (n * 2 ^ (52 - n.log2)) (n.log2 - 52) .exact := by
    have htarget : Format.binary64.targetExponent (totalExponent n 0) = n.log2 - 52 := by
      simp only [Format.targetExponent, totalExponent, Format.mantissaBits, Format.minExponent]
      omega
    have hcompare : compare (n : Int) 0 = .gt := compare_gt_iff_gt.mpr (by omega)
    have hshift : (0 - ((n.log2 : Int) - 52)).toNat = 52 - n.log2 := by omega
    have hexponent : (0 : Int) - (52 - n.log2 : Nat) = n.log2 - 52 := by omega
    rw [UnpackedFloat.ofNat, UnpackedFloat.ofInt, UnpackedFloat.normalize, hcompare]
    dsimp only
    rw [Int.toNat_natCast, UnpackedFloat.round, htarget, decreaseExponent]
    dsimp only
    rw [hshift, hexponent, Nat.shiftLeft_eq]
  have hlog' : (n * 2 ^ (52 - n.log2)).log2 = 52 := by
    rw [log2_mul_two_pow hpos.ne']
    omega
  rw [hround]
  refine holds_round (s := .positive) (by omega) (by omega) ?_
  have hexp : ((n.log2 : Int) - 52 + ((n * 2 ^ (52 - n.log2)).log2 : Int)).toNat = n.log2 := by omega
  rw [hexp, hlog', Nat.sub_self, Nat.pow_zero, nearestQuotient_one, Nat.mul_assoc, ← Nat.pow_add,
    show 52 - n.log2 + n.log2 = 52 by omega]

/-- The double `1` in its normal form. -/
def one : UnpackedFloat := .finite .positive (2 ^ 52) (-52) (by decide)

/-- A double times one is itself. -/
theorem Holds.mul_one {x : UnpackedFloat} {i : Int} (h : Holds x i) :
    Holds (UnpackedFloat.mul Format.binary64 x one) i := by
  cases h with
  | zero => exact .zero
  | @finite s m v e hm hlog he hv =>
    have hlog' : (m * 2 ^ 52).log2 = 104 := by rw [log2_mul_two_pow hm.ne', hlog]
    have hsign : s * .positive = s := by cases s <;> rfl
    rw [one, mul_finite, hsign]
    refine holds_round (by omega) (by omega) ?_
    have hexp : (e + -52 + ((m * 2 ^ 52).log2 : Int)).toNat = (e + 52).toNat := by omega
    rw [hexp, hlog', nearestQuotient_exact (Nat.two_pow_pos _), hv]

theorem unpack_pack_model (x : UnpackedFloat) :
    (Float.Model.pack x).unpack = UnpackedFloat.unpack Format.binary64 (UnpackedFloat.pack Format.binary64 x) := rfl

/-- The double of a natural number is the nearest one. -/
theorem holds_float_ofNat {n : Nat} (h : n ≤ 2 ^ 64) : Holds (Float.ofNat n).toModel.unpack (roundedNat n) := by
  have hle := roundedNat_le h
  by_cases hsmall : n < 2 ^ 53
  · -- A small number is converted exactly and multiplied by one.
    have hfast : Float.ofNat n = n.toUInt64.toFloat * Float.ofBits 0x3FF0000000000000 := by
      rw [Float.ofNat]
      show Float.ofScientific n false 0 = _
      rw [Float.ofScientific, dif_pos ⟨hsmall, by decide⟩]
      rfl
    have hone : (Float.ofBits 0x3FF0000000000000).toModel.unpack = one := rfl
    have hword : n.toUInt64.toFloat.toModel.unpack = UnpackedFloat.ofNat Format.binary64 n := by
      have hn : n.toUInt64.toNat = n := Nat.mod_eq_of_lt (by omega)
      show (Float.Model.pack (UnpackedFloat.ofNat Format.binary64 n.toUInt64.toNat)).unpack = _
      rw [hn, unpack_pack_model, (holds_ofNat hsmall).unpack_pack (by omega)]
    have hproduct : (Float.ofNat n).toModel = Float.Model.pack
        (UnpackedFloat.mul Format.binary64 n.toUInt64.toFloat.toModel.unpack (Float.ofBits 0x3FF0000000000000).toModel.unpack) := by
      rw [hfast]
      rfl
    have hmul := (holds_ofNat hsmall).mul_one
    rw [hproduct, hone, hword, unpack_pack_model, hmul.unpack_pack (by omega), roundedNat_of_lt hsmall]
    exact hmul
  · -- Any other number is rounded as a decimal without an exponent.
    have hslow : (Float.ofNat n).toModel = Float.Model.pack (UnpackedFloat.ofScientific Format.binary64 n 0) := by
      rw [Float.ofNat]
      show (Float.ofScientific n false 0).toModel = _
      rw [Float.ofScientific, dif_neg fun h => hsmall h.1]
      rfl
    have hround := holds_ofScientific (Nat.le_of_not_lt hsmall)
    rw [hslow, unpack_pack_model, hround.unpack_pack (by omega)]
    exact hround

/-- Rounding a number of up to 64 bits moves it by no more than 1024. -/
theorem roundedNat_near {n : Nat} (h : n ≤ 2 ^ 64) : n ≤ roundedNat n + 2 ^ 10 ∧ roundedNat n ≤ n + 2 ^ 10 := by
  rcases Nat.lt_or_eq_of_le h with hlt | rfl
  · have hlog : n.log2 ≤ 63 := by
      rcases Nat.eq_zero_or_pos n with rfl | hpos
      · decide
      · have := (Nat.log2_lt hpos.ne').mpr hlt
        omega
    have hunit : 2 ^ (n.log2 - 52) ≤ 2 ^ 11 := Nat.pow_le_pow_right (by decide) (by omega)
    have hnear := nearestQuotient_near n (Nat.two_pow_pos (n.log2 - 52))
    rw [roundedNat]
    omega
  · rw [roundedNat_two_pow]
    omega

theorem roundedNat_pos {n : Nat} (h : 0 < n) : 0 < roundedNat n := by
  by_cases hsmall : n < 2 ^ 53
  · rwa [roundedNat_of_lt hsmall]
  · have hlog : 52 ≤ n.log2 := (Nat.le_log2 h.ne').mpr (by omega)
    exact Nat.mul_pos (by have := (nearestQuotient_bounds hlog).1; omega) (Nat.two_pow_pos _)

/-- The double nearest to an integer. -/
def rounded (i : Int) : Int := i.sign * roundedNat i.natAbs

theorem rounded_natCast (n : Nat) : rounded n = roundedNat n := by
  rcases Nat.eq_zero_or_pos n with rfl | hpos
  · rfl
  · rw [rounded, Int.sign_eq_one_of_pos (by omega), Int.one_mul, Int.natAbs_natCast]

theorem rounded_neg (i : Int) : rounded (-i) = -rounded i := by
  rw [rounded, rounded, Int.sign_neg, Int.natAbs_neg, Int.neg_mul]

/-- Integers of up to 53 bits are doubles. -/
theorem rounded_of_natAbs_le {i : Int} (h : i.natAbs ≤ 2 ^ 53) : rounded i = i := by
  have hself : roundedNat i.natAbs = i.natAbs := by
    rcases Nat.lt_or_eq_of_le h with hlt | heq
    · exact roundedNat_of_lt hlt
    · rw [heq, roundedNat_two_pow]
  rw [rounded, hself, Int.sign_mul_natAbs]

/-- Integers of up to 64 bits that are rounded to the same double are close to each other. -/
theorem near_of_rounded_eq {i j : Int} (hi : i.natAbs ≤ 2 ^ 64) (hj : j.natAbs ≤ 2 ^ 64) (h : rounded i = rounded j) :
    (i - j).natAbs ≤ 2 ^ 11 := by
  have hnear {i : Int} (hi : i.natAbs ≤ 2 ^ 64) : (i - rounded i).natAbs ≤ 2 ^ 10 := by
    obtain ⟨hlow, hhigh⟩ := roundedNat_near hi
    obtain ⟨n, rfl | rfl⟩ := Int.eq_nat_or_neg i
    · rw [Int.natAbs_natCast] at hlow hhigh
      rw [rounded_natCast]
      omega
    · rw [Int.natAbs_neg, Int.natAbs_natCast] at hlow hhigh
      rw [rounded_neg, rounded_natCast]
      omega
  have hi' := hnear hi
  have hj' := hnear hj
  omega

theorem Holds.neg {x : UnpackedFloat} {i : Int} (h : Holds x i) (hi : i ≠ 0) : Holds x.neg (-i) := by
  cases h with
  | zero => exact absurd rfl hi
  | @finite s m v e hm hlog he hv =>
    have hsign : -s.apply (v : Int) = (-s).apply v := by
      cases s
      · exact Int.neg_neg _
      · rfl
    rw [hsign]
    exact .finite hlog he hv

/-- The double of an integer is the nearest one. -/
theorem holds_float_ofInt {i : Int} (h : i.natAbs ≤ 2 ^ 64) : Holds (Float.ofInt i).toModel.unpack (rounded i) := by
  cases i with
  | ofNat n =>
    show Holds (Float.ofNat n).toModel.unpack (rounded (n : Nat))
    rw [rounded_natCast]
    exact holds_float_ofNat h
  | negSucc n =>
    have hn : n.succ ≤ 2 ^ 64 := h
    have hpos := roundedNat_pos (Nat.succ_pos n)
    have hle := roundedNat_le hn
    have hneg := (holds_float_ofNat hn).neg (by omega)
    show Holds (Float.Model.pack (Float.ofNat n.succ).toModel.unpack.neg).unpack _
    rw [unpack_pack_model, hneg.unpack_pack (by omega), Int.negSucc_eq, ← Nat.cast_succ, rounded_neg, rounded_natCast]
    exact hneg

/-- Two integers are equal as doubles exactly if the doubles nearest to them are the same. -/
theorem ofInt_beq {i j : Int} (hi : i.natAbs ≤ 2 ^ 64) (hj : j.natAbs ≤ 2 ^ 64) :
    (Float.ofInt i == Float.ofInt j) = decide (rounded i = rounded j) :=
  (holds_float_ofInt hi).beq (holds_float_ofInt hj)

end Stencil.Double

import Mathlib.Tactic.FieldSimp
import SmallLisp.Proofs.Number.Floats

set_option autoImplicit false

/-! # The float nearest to an integer

An integer that becomes a float keeps its 53 leading bits. What is shifted out is summed up in two
more bits, and they tell whether it was less than half a unit of the last place, more, or just half
(`Floats.Shifted`). So the float is off by half a unit at most (`Floats.Rounds`), and no other float
is nearer (`Floats.Rounds.nearest`): one with the same last place or a larger one is a multiple of
the same unit, and one with a smaller last place is below the leading bit.
-/

namespace SmallLisp.Floats

open Float.Model Float.Model.UnpackedFloat

/-! ## Shifted mantissas -/

/-- **A mantissa shifted by some places**, with what the places that are lost come to: the round bit
says whether it is half a unit or more, the sticky bit whether it is neither nothing nor just half
a unit. -/
structure Shifted (em : ExtendedMantissa) (m n : ℕ) : Prop where
  mantissa : em.mantissa = m / 2 ^ n
  round : em.roundBit = true ↔ 2 ^ n ≤ 2 * (m % 2 ^ n)
  sticky : em.stickyBit = true ↔ m % 2 ^ n ≠ 0 ∧ 2 * (m % 2 ^ n) ≠ 2 ^ n

section

variable {em : ExtendedMantissa} {m n : ℕ}

/-- One place more. -/
theorem Shifted.shiftRightOne (h : Shifted em m n) : Shifted em.shiftRightOne m (n + 1) := by
  have hpos : 0 < 2 ^ n := Nat.two_pow_pos n
  have hrest : m % 2 ^ n < 2 ^ n := Nat.mod_lt m hpos
  have hmod : m % 2 ^ (n + 1) = m % 2 ^ n + 2 ^ n * (m / 2 ^ n % 2) := by
    rw [Nat.pow_succ, Nat.mod_mul]
  have hbit := Nat.mod_two_eq_zero_or_one (m / 2 ^ n)
  constructor
  · show em.mantissa / 2 = _
    rw [h.mantissa, Nat.div_div_eq_div_mul, Nat.pow_succ]
  · show (em.mantissa % 2 != 0) = true ↔ _
    rw [h.mantissa, bne_iff_ne, hmod, Nat.pow_succ]
    rcases hbit with hbit | hbit <;> rw [hbit] <;> omega
  · show (em.roundBit || em.stickyBit) = true ↔ _
    rw [Bool.or_eq_true, h.round, h.sticky, hmod, Nat.pow_succ]
    rcases hbit with hbit | hbit <;> rw [hbit] <;> omega

/-- **Any number of places.** -/
theorem shifted_shiftRight (m n : ℕ) :
    Shifted (ExtendedMantissa.ofMantissaAndAccuracy m .exact >>> n) m n := by
  show Shifted (Nat.repeat _ n _) m n
  induction n with
  | zero => constructor <;> simp [Nat.repeat, ExtendedMantissa.ofMantissaAndAccuracy, Nat.mod_one]
  | succ n ih => exact ih.shiftRightOne

/-- A mantissa is rounded down, or up to the next one. -/
theorem Shifted.rounded_bounds (h : Shifted em m n) :
    m / 2 ^ n ≤ em.roundedMantissa ∧ em.roundedMantissa ≤ m / 2 ^ n + 1 := by
  have hmantissa := h.mantissa
  obtain ⟨mantissa, roundBit, stickyBit⟩ := em
  subst hmantissa
  cases roundBit <;> cases stickyBit <;>
    simp only [ExtendedMantissa.roundedMantissa, ExtendedMantissa.accuracy,
      Accuracy.roundToNearestEven] <;> omega

/-- **A rounded mantissa is off by half a unit at most.** -/
theorem Shifted.rounded_error (h : Shifted em m n) :
    2 * (em.roundedMantissa * 2 ^ n) ≤ 2 * m + 2 ^ n ∧
      2 * m ≤ 2 * (em.roundedMantissa * 2 ^ n) + 2 ^ n := by
  have hrest : m % 2 ^ n < 2 ^ n := Nat.mod_lt m (Nat.two_pow_pos n)
  have hsum : m / 2 ^ n * 2 ^ n + m % 2 ^ n = m := Nat.div_add_mod' m (2 ^ n)
  have hround := h.round
  have hsticky := h.sticky
  have hmantissa := h.mantissa
  obtain ⟨mantissa, roundBit, stickyBit⟩ := em
  subst hmantissa
  cases roundBit <;> cases stickyBit <;>
    simp only [ExtendedMantissa.roundedMantissa, ExtendedMantissa.accuracy,
      Accuracy.roundToNearestEven] <;>
    simp only [Bool.false_eq_true, false_iff, true_iff] at hround hsticky
  · omega
  · omega
  · -- just half a unit: either way the error is the same
    rcases Nat.mod_two_eq_zero_or_one (m / 2 ^ n) with hbit | hbit
    · rw [hbit, Nat.add_zero]
      omega
    · rw [hbit, Nat.add_mul]
      omega
  · rw [Nat.add_mul]
    omega

end

/-! ## Rounding to 53 bits -/

/-- **What rounding gives**: a mantissa of 53 bits whose value is a multiple of the last place that
is kept, and not off by more than half of it. -/
structure Rounds (m : ℕ) (e : ℤ) (m' : ℕ) (e' : ℤ) : Prop where
  low : 2 ^ 52 ≤ m'
  high : m' < 2 ^ 53
  exponent_low : e + m.log2 - 52 ≤ e'
  exponent_high : e' ≤ e + m.log2 - 51
  multiple : ∃ q : ℤ, (m' : ℝ) * 2 ^ e' = q * 2 ^ (e + m.log2 - 52)
  error : 2 * |(m' : ℝ) * 2 ^ e' - m * 2 ^ e| ≤ 2 ^ (e + m.log2 - 52)

section

variable {m m' q : ℕ} {e e' : ℤ}

theorem shiftToTargetExponent_eq (hm : 52 ≤ m.log2) (he : -1074 ≤ e + m.log2 - 52) :
    shiftToTargetExponent Format.binary64 m e .exact =
      (ExtendedMantissa.ofMantissaAndAccuracy m .exact >>> (m.log2 - 52),
        e + (m.log2 - 52 : ℕ)) := by
  have htarget : Format.binary64.targetExponent (totalExponent m e) = e + (m.log2 - 52 : ℕ) := by
    show max ((m.log2 : ℤ) + 1 + e - 53) (-1074) = _
    omega
  have hshift : (e + (m.log2 - 52 : ℕ) - e).toNat = m.log2 - 52 := by omega
  simp only [shiftToTargetExponent, shiftToExponent, htarget, hshift]

/-- The leading bits of a mantissa. -/
theorem leading_bounds {k : ℕ} (hm : m ≠ 0) (hk : m.log2 = 52 + k) :
    2 ^ 52 ≤ m / 2 ^ k ∧ m / 2 ^ k < 2 ^ 53 := by
  have hlow : 2 ^ 52 * 2 ^ k ≤ m := by
    rw [← Nat.pow_add, ← hk]
    exact Nat.log2_self_le hm
  have hhigh : m < 2 ^ 53 * 2 ^ k := by
    rw [← Nat.pow_add, show 53 + k = m.log2 + 1 by omega]
    exact Nat.lt_log2_self
  exact ⟨(Nat.le_div_iff_mul_le (Nat.two_pow_pos k)).2 hlow,
    (Nat.div_lt_iff_lt_mul (Nat.two_pow_pos k)).2 hhigh⟩

/-- A mantissa that has been rounded up to one bit more is shifted again, and nothing is lost. -/
theorem shift_again (hlow : 2 ^ 52 ≤ q) (hhigh : q ≤ 2 ^ 53) :
    52 ≤ q.log2 ∧ q.log2 ≤ 53 ∧ 2 ^ 52 ≤ q / 2 ^ (q.log2 - 52) ∧
      q / 2 ^ (q.log2 - 52) < 2 ^ 53 ∧ q / 2 ^ (q.log2 - 52) * 2 ^ (q.log2 - 52) = q := by
  rcases Nat.lt_or_eq_of_le hhigh with hlt | rfl
  · rw [log2_eq hlow hlt]
    omega
  · decide

/-- The error in units of the exponent. -/
theorem error_of_units (hm : 52 ≤ m.log2)
    (hq : 2 * (q * 2 ^ (m.log2 - 52)) ≤ 2 * m + 2 ^ (m.log2 - 52) ∧
      2 * m ≤ 2 * (q * 2 ^ (m.log2 - 52)) + 2 ^ (m.log2 - 52)) :
    2 * |(q : ℝ) * 2 ^ (e + m.log2 - 52) - m * 2 ^ e| ≤ 2 ^ (e + m.log2 - 52) := by
  have hunit : (0 : ℝ) < 2 ^ e := by positivity
  have hexponent : e + (m.log2 : ℤ) - 52 = (m.log2 - 52 : ℕ) + e := by omega
  have hupper : 2 * ((q : ℝ) * 2 ^ (m.log2 - 52)) ≤ 2 * m + 2 ^ (m.log2 - 52) := by
    exact_mod_cast hq.1
  have hlower : 2 * (m : ℝ) ≤ 2 * (q * 2 ^ (m.log2 - 52)) + 2 ^ (m.log2 - 52) := by
    exact_mod_cast hq.2
  rw [hexponent, zpow_add₀ two_ne_zero, zpow_natCast, ← mul_assoc, ← sub_mul, abs_mul,
    abs_of_pos hunit, ← mul_assoc]
  gcongr
  rw [← le_div_iff₀' two_pos, abs_le]
  constructor <;> linarith

/-- **Rounding a mantissa that has bits enough.** -/
theorem exists_rounds (s : Sign) (hm : 52 ≤ m.log2) (he : -1074 ≤ e + m.log2 - 52) :
    ∃ m' e' hm', roundWithAccuracy Format.binary64 s m e .exact = .finite s m' e' hm' ∧
      Rounds m e m' e' := by
  have hpos : m ≠ 0 := by
    rintro rfl
    simp at hm
  have hfirst := shiftToTargetExponent_eq hm he
  have hleading := leading_bounds hpos (show m.log2 = 52 + (m.log2 - 52) by omega)
  have hshifted := shifted_shiftRight m (m.log2 - 52)
  generalize ExtendedMantissa.ofMantissaAndAccuracy m .exact >>> (m.log2 - 52) = em
    at hfirst hshifted
  have hbounds := hshifted.rounded_bounds
  have herror := hshifted.rounded_error
  generalize hq : em.roundedMantissa = q at hbounds herror
  obtain ⟨hj, hj', hlow, hhigh, hexact⟩ := shift_again (q := q) (by omega) (by omega)
  have hsecond := shiftToTargetExponent_eq (e := e + (m.log2 - 52 : ℕ)) hj (by omega)
  have hmantissa := (shifted_shiftRight q (q.log2 - 52)).mantissa
  refine ⟨q / 2 ^ (q.log2 - 52), e + (m.log2 - 52 : ℕ) + (q.log2 - 52 : ℕ), by omega, ?_, ?_⟩
  · simp only [roundWithAccuracy, hfirst, hq, hsecond, hmantissa]
    rw [dif_neg (by omega)]
  · have hvalue : ((q / 2 ^ (q.log2 - 52) : ℕ) : ℝ) *
        2 ^ (e + (m.log2 - 52 : ℕ) + (q.log2 - 52 : ℕ) : ℤ) = q * 2 ^ (e + m.log2 - 52 : ℤ) := by
      have hcast : ((q / 2 ^ (q.log2 - 52) : ℕ) : ℝ) * 2 ^ (q.log2 - 52) = q := by
        exact_mod_cast hexact
      have hexponent : e + (m.log2 : ℤ) - 52 = e + (m.log2 - 52 : ℕ) := by omega
      rw [hexponent, zpow_add₀ two_ne_zero _ ((q.log2 - 52 : ℕ) : ℤ), zpow_natCast,
        mul_comm _ (2 ^ (q.log2 - 52)), ← mul_assoc, hcast]
    refine ⟨hlow, hhigh, by omega, by omega, ⟨q, hvalue⟩, ?_⟩
    rw [hvalue]
    exact error_of_units hm herror

/-! ## Nearest floats -/

/-- A multiple that is off by half a unit at most is nearest among all multiples. -/
theorem nearest_multiple {q : ℤ} {u x : ℝ} (hu : 0 < u) (hq : 2 * |q * u - x| ≤ u) (z : ℤ) :
    |q * u - x| ≤ |z * u - x| := by
  by_cases hz : z = q
  · rw [hz]
  · have hgap : u ≤ |z * u - q * u| := by
      rw [← sub_mul, abs_mul, abs_of_pos hu]
      have hone : (1 : ℝ) ≤ |(z : ℝ) - q| := by
        exact_mod_cast Int.one_le_abs (sub_ne_zero.2 hz)
      exact le_mul_of_one_le_left hu.le hone
    have htriangle := abs_sub_le (z * u) x (q * u)
    rw [abs_sub_comm x] at htriangle
    linarith

/-- **No float is nearer than the one that rounding gives.** -/
theorem Rounds.nearest (h : Rounds m e m' e') (hm : m ≠ 0) {v : ℝ} (hv : IsDyadic v) :
    |(m' : ℝ) * 2 ^ e' - m * 2 ^ e| ≤ |v - m * 2 ^ e| := by
  obtain ⟨z, place, hz, _, rfl⟩ := hv
  obtain ⟨q, hq⟩ := h.multiple
  have herror := h.error
  rw [hq] at herror ⊢
  set t := e + m.log2 - 52 with ht
  have hunit : (0 : ℝ) < 2 ^ t := by positivity
  rcases le_or_gt t place with hle | hgt
  · -- the other number is a multiple of the last place as well
    have hmultiple : (z : ℝ) * 2 ^ place = (z * 2 ^ (place - t).toNat : ℤ) * 2 ^ t := by
      push_cast
      rw [mul_assoc, ← zpow_natCast, ← zpow_add₀ two_ne_zero]
      congr 2
      omega
    rw [hmultiple]
    exact nearest_multiple hunit herror _
  · -- it has smaller places, so it is below the leading bit, which is a multiple
    have hleading : (2 : ℝ) ^ 52 * 2 ^ t ≤ m * 2 ^ e := by
      have hlog : (2 : ℝ) ^ m.log2 ≤ m := by exact_mod_cast Nat.log2_self_le hm
      calc (2 : ℝ) ^ 52 * 2 ^ t = 2 ^ m.log2 * 2 ^ e := by
            rw [← zpow_natCast, ← zpow_natCast, ← zpow_add₀ two_ne_zero, ← zpow_add₀ two_ne_zero]
            congr 1
            push_cast
            omega
        _ ≤ m * 2 ^ e := by gcongr
    have hbelow : (z : ℝ) * 2 ^ place ≤ 2 ^ 52 * 2 ^ t := by
      have hbits : (z : ℝ) ≤ 2 ^ 53 := by exact_mod_cast (le_abs_self z).trans hz.le
      calc (z : ℝ) * 2 ^ place ≤ 2 ^ 53 * 2 ^ (t - 1) := by
            gcongr
            · norm_num
            · omega
        _ = 2 ^ 52 * 2 ^ t := by
            rw [zpow_sub_one₀ two_ne_zero]
            ring
    have hnearest := nearest_multiple hunit herror (2 ^ 52)
    rw [Int.cast_pow, Int.cast_ofNat, abs_of_nonpos (by linarith : (2 : ℝ) ^ 52 * 2 ^ t - _ ≤ 0)]
      at hnearest
    rw [abs_of_nonpos (by linarith : (z : ℝ) * 2 ^ place - m * 2 ^ e ≤ 0)]
    linarith

/-- **Rounding gives a nearest float**, and a normal one unless it is too small or too large. -/
theorem exists_normal_round (s : Sign) (hm : 52 ≤ m.log2) (helow : -1074 ≤ e + m.log2 - 52)
    (hehigh : e + m.log2 - 51 ≤ 971) : ∃ m' e',
      Normal (roundWithAccuracy Format.binary64 s m e .exact) s m' e' ∧ e' ≤ e + m.log2 - 51 ∧
      ∀ v, IsDyadic v → |(m' : ℝ) * 2 ^ e' - m * 2 ^ e| ≤ |v - m * 2 ^ e| := by
  obtain ⟨m', e', hm', heq, hr⟩ := exists_rounds s hm helow
  have hlow := hr.exponent_low
  have hhigh := hr.exponent_high
  refine ⟨m', e', ⟨⟨hm', heq⟩, hr.low, hr.high, by omega, by omega⟩, hhigh,
    fun v hv => hr.nearest ?_ hv⟩
  rintro rfl
  simp at hm

end

/-! ## Integers -/

section

variable {m n : ℕ} {e e' : ℤ}

theorem log2_shiftLeft (hn : n ≠ 0) (k : ℕ) : (n <<< k).log2 = n.log2 + k := by
  rw [Nat.shiftLeft_eq]
  refine log2_eq ?_ ?_
  · rw [Nat.pow_add]
    exact Nat.mul_le_mul_right _ (Nat.log2_self_le hn)
  · rw [Nat.add_right_comm, Nat.pow_add]
    exact Nat.mul_lt_mul_of_pos_right Nat.lt_log2_self (Nat.two_pow_pos k)

/-- More places do not change a value. -/
theorem cast_shiftLeft (n k : ℕ) (he : e' = e - k) :
    ((n <<< k : ℕ) : ℝ) * 2 ^ e' = n * 2 ^ e := by
  rw [Nat.shiftLeft_eq, he, zpow_sub₀ two_ne_zero, zpow_natCast]
  push_cast
  field_simp

theorem mul_finite (spec : Format) {s s' : Sign} {m' : ℕ} (hm : 0 < m) (hm' : 0 < m') :
    UnpackedFloat.mul spec (.finite s m e hm) (.finite s' m' e' hm') =
      roundWithAccuracy spec (s * s') (m * m') (e + e') .exact := rfl

/-- The product with one is rounded again. -/
theorem mul_one_eq (hm : 0 < m) :
    UnpackedFloat.mul Format.binary64 (.finite .positive m e hm)
      (Float.ofBits 0x3FF0000000000000).toModel.unpack =
        roundWithAccuracy Format.binary64 .positive (m <<< 52) (e - 52) .exact := by
  have hone : (Float.ofBits 0x3FF0000000000000).toModel.unpack =
      .finite .positive (2 ^ 52) (-52) (by decide) := rfl
  rw [hone, mul_finite, Nat.shiftLeft_eq]
  rfl

theorem ofUInt64_eq (hn : 0 < n) (hlt : n < 2 ^ 53) :
    UnpackedFloat.ofUInt64 Format.binary64 n.toUInt64 =
      roundWithAccuracy Format.binary64 .positive (n <<< (52 - n.log2)) (-(52 - n.log2 : ℕ))
        .exact := by
  have hlog : n.log2 < 53 := (Nat.log2_lt (by omega)).2 hlt
  have htoNat : n.toUInt64.toNat = n := by
    show n % 2 ^ 64 = n
    omega
  have htarget : Format.binary64.targetExponent (totalExponent n 0) = n.log2 - 52 := by
    show max ((n.log2 : ℤ) + 1 + 0 - 53) (-1074) = _
    omega
  have hgt : compare (n : ℤ) 0 = .gt := compare_gt_iff_gt.2 (by omega)
  have hshift : (0 - ((n.log2 : ℤ) - 52)).toNat = 52 - n.log2 := by omega
  simp only [UnpackedFloat.ofUInt64, UnpackedFloat.ofNat, UnpackedFloat.ofInt,
    UnpackedFloat.normalize, htoNat, hgt, UnpackedFloat.round, Int.toNat_natCast, htarget,
    decreaseExponent, hshift]
  rw [zero_sub]

theorem ofScientific_eq (hn : n ≠ 0) :
    UnpackedFloat.ofScientific Format.binary64 n 0 =
      roundWithAccuracy Format.binary64 .positive (n <<< 53) (-53) .exact := by
  have hbig : ¬ (0 : ℤ) > 2 ^ Format.binary64.exponentBits := by decide
  have hsmall : ¬ (0 : ℤ) < -((2 ^ Format.binary64.exponentBits : ℤ) + n.log2) := by
    show ¬ (0 : ℤ) < -(2 ^ 11 + n.log2)
    omega
  have hbits : Format.binary64.mantissaBits = 53 := rfl
  rw [UnpackedFloat.ofScientific, dif_neg hn, if_neg hbig, if_neg hsmall, if_pos le_rfl, mul_finite]
  simp only [hbits, Int.toNat_zero, Nat.pow_zero, Nat.mul_one, Int.add_zero]
  rfl

theorem ofNat_of_lt (hlt : n < 2 ^ 53) :
    Float.ofNat n = n.toUInt64.toFloat * Float.ofBits 0x3FF0000000000000 := by
  show Float.ofScientific n false 0 = _
  rw [Float.ofScientific, dif_pos ⟨hlt, by omega⟩]
  rfl

theorem ofNat_of_ge (hge : 2 ^ 53 ≤ n) :
    Float.ofNat n = .ofModel (Float.Model.ofScientific n 0) := by
  show Float.ofScientific n false 0 = _
  rw [Float.ofScientific, dif_neg (by omega)]
  rfl

/-- An integer of 53 bits is taken as it is. -/
theorem exists_unpack_toFloat (hn : 0 < n) (hlt : n < 2 ^ 53) : ∃ m e,
    Normal n.toUInt64.toFloat.toModel.unpack .positive m e ∧ e ≤ 1 ∧ (m : ℝ) * 2 ^ e = n := by
  have hlog : n.log2 < 53 := (Nat.log2_lt (by omega)).2 hlt
  have hbits : (n <<< (52 - n.log2)).log2 = 52 := by
    rw [log2_shiftLeft (by omega)]
    omega
  obtain ⟨m, e, hnormal, he, hnearest⟩ := exists_normal_round .positive
    (m := n <<< (52 - n.log2)) (e := -(52 - n.log2 : ℕ)) (by omega) (by omega) (by omega)
  rw [← ofUInt64_eq hn hlt] at hnormal
  have heq : n.toUInt64.toFloat.toModel.unpack = UnpackedFloat.ofUInt64 _ n.toUInt64 :=
    hnormal.unpack_pack
  refine ⟨m, e, heq ▸ hnormal, by omega, ?_⟩
  have hzero := hnearest n (.ofNat hlt.le)
  rw [cast_shiftLeft n _ (e := 0) (by omega), zpow_zero, mul_one, sub_self, abs_zero] at hzero
  exact sub_eq_zero.1 (abs_nonpos_iff.1 hzero)

/-- **A natural number becomes a float that is nearest to it.** -/
theorem exists_unpack_ofNat (hn : 0 < n) (hlt : n < 2 ^ 64) : ∃ m e,
    Normal (Float.ofNat n).toModel.unpack .positive m e ∧
      ∀ v, IsDyadic v → |(m : ℝ) * 2 ^ e - n| ≤ |v - n| := by
  rcases Nat.lt_or_ge n (2 ^ 53) with hsmall | hlarge
  · obtain ⟨m, e, hnormal, he, hvalue⟩ := exists_unpack_toFloat hn hsmall
    obtain ⟨hm, hunpack⟩ := hnormal.eq
    have hlow := hnormal.exponent_low
    have hbits : (m <<< 52).log2 = 104 := by
      rw [log2_shiftLeft (by omega), log2_eq hnormal.low hnormal.high]
    obtain ⟨m', e', hproduct, _, hnearest⟩ := exists_normal_round .positive (m := m <<< 52)
      (e := e - 52) (by omega) (by omega) (by omega)
    rw [← mul_one_eq hm, ← hunpack] at hproduct
    have heq : (Float.ofNat n).toModel.unpack = UnpackedFloat.mul Format.binary64
        n.toUInt64.toFloat.toModel.unpack (Float.ofBits 0x3FF0000000000000).toModel.unpack := by
      rw [ofNat_of_lt hsmall]
      exact hproduct.unpack_pack
    refine ⟨m', e', heq ▸ hproduct, fun v hv => ?_⟩
    have hdistance := hnearest v hv
    rwa [cast_shiftLeft m 52 (e := e) (by omega), hvalue] at hdistance
  · have hbits : (n <<< 53).log2 = n.log2 + 53 := log2_shiftLeft (by omega) 53
    have hlog : n.log2 < 64 := (Nat.log2_lt (by omega)).2 hlt
    obtain ⟨m, e, hnormal, _, hnearest⟩ := exists_normal_round .positive (m := n <<< 53) (e := -53)
      (by omega) (by omega) (by omega)
    rw [← ofScientific_eq (by omega)] at hnormal
    have heq : (Float.ofNat n).toModel.unpack = UnpackedFloat.ofScientific Format.binary64 n 0 := by
      rw [ofNat_of_ge hlarge]
      exact hnormal.unpack_pack
    refine ⟨m, e, heq ▸ hnormal, fun v hv => ?_⟩
    have hdistance := hnearest v hv
    rwa [cast_shiftLeft n 53 (e := 0) (by omega), zpow_zero, mul_one] at hdistance

end

/-- **An integer becomes a float that is nearest to it.** -/
theorem nearest_ofInt {i : ℤ} (hi : i.natAbs < 2 ^ 64) :
    (Float.ofInt i).toModel.unpack.isFinite = true ∧
      ∀ v, IsDyadic v → |real (Float.ofInt i).toModel.unpack - i| ≤ |v - i| := by
  cases i with
  | ofNat n =>
      rcases Nat.eq_zero_or_pos n with rfl | hn
      · have hzero : (Float.ofInt (.ofNat 0)).toModel.unpack = .zero .positive := rfl
        rw [hzero]
        exact ⟨rfl, fun v _ => by simp⟩
      · obtain ⟨m, e, hnormal, hnearest⟩ := exists_unpack_ofNat hn hi
        obtain ⟨hm, hunpack⟩ := hnormal.eq
        have hofNat : (Float.ofInt (.ofNat n)).toModel.unpack = .finite .positive m e hm := hunpack
        rw [hofNat]
        exact ⟨rfl, fun v hv => by simpa using hnearest v hv⟩
  | negSucc n =>
      obtain ⟨m, e, hnormal, hnearest⟩ := exists_unpack_ofNat (Nat.succ_pos n) hi
      obtain ⟨hm, hunpack⟩ := hnormal.eq
      have hneg : Normal (Float.ofNat (n + 1)).toModel.unpack.neg .negative m e := by
        rw [hunpack]
        exact ⟨⟨hm, rfl⟩, hnormal.low, hnormal.high, hnormal.exponent_low, hnormal.exponent_high⟩
      have hofInt : (Float.ofInt (.negSucc n)).toModel.unpack = .finite .negative m e hm := by
        have hpack : (Float.ofInt (.negSucc n)).toModel.unpack =
          (Float.ofNat (n + 1)).toModel.unpack.neg := hneg.unpack_pack
        rw [hpack, hunpack]
        rfl
      rw [hofInt]
      refine ⟨rfl, fun v hv => ?_⟩
      -- the distances are those of the numbers with their signs changed
      calc |real (.finite .negative m e hm) - (Int.negSucc n : ℝ)|
        _ = |(m : ℝ) * 2 ^ e - (n + 1 : ℕ)| := by
            rw [real_negative, Int.cast_negSucc, neg_sub_neg, abs_sub_comm]
        _ ≤ |-v - (n + 1 : ℕ)| := hnearest (-v) hv.neg
        _ = |v - (Int.negSucc n : ℝ)| := by
            rw [Int.cast_negSucc, ← abs_neg]
            congr 1
            ring

end SmallLisp.Floats

import Mathlib
import SmallLisp.Number

set_option autoImplicit false

/-! # Floats as real numbers

A float is a bit pattern; what it stands for is a real number with a mantissa of 53 bits, or an
infinity (`Floats.value`). A float is compared by its exponent first and its mantissa second. This
is the order of the real numbers because of the form that floats have when they are unpacked
(`Floats.Canonical`): no leading bit is wasted unless the exponent is the least one.
-/

namespace SmallLisp.Floats

open Float.Model Float.Model.UnpackedFloat

/-! ## Values -/

/-- **The exact value of a float**, if it is finite. -/
noncomputable def real : UnpackedFloat → ℝ
  | .finite s m e _ => (s.apply m : ℤ) * 2 ^ e
  | _ => 0

/-- **The exact value of a float**, which may be infinite. -/
noncomputable def value : UnpackedFloat → EReal
  | .infinity .positive => ⊤
  | .infinity .negative => ⊥
  | u => real u

/-- **The real numbers that are exact values of floats**: 53 bits with an exponent that is not too
small. (Those that are too large do no harm here.) -/
def IsDyadic (v : ℝ) : Prop := ∃ z e : ℤ, |z| < 2 ^ 53 ∧ -1074 ≤ e ∧ v = z * 2 ^ e

section

variable {u : UnpackedFloat} {m : ℕ} {e : ℤ} {hm : 0 < m}

@[simp]
theorem real_zero (s : Sign) : real (.zero s) = 0 := rfl

@[simp]
theorem real_positive : real (.finite .positive m e hm) = m * 2 ^ e := rfl

@[simp]
theorem real_negative : real (.finite .negative m e hm) = -(m * 2 ^ e) := by
  show ((-(m : ℤ) : ℤ) : ℝ) * 2 ^ e = _
  push_cast
  ring

theorem value_of_isFinite (hu : u.isFinite = true) : value u = real u := by
  cases u with
  | infinity s => cases hu
  | _ => rfl

theorem magnitude_pos (hm : 0 < m) (e : ℤ) : (0 : ℝ) < m * 2 ^ e := by
  have hcast : (0 : ℝ) < m := Nat.cast_pos.2 hm
  positivity

theorem IsDyadic.zero : IsDyadic 0 := ⟨0, 0, by norm_num, by norm_num, by simp⟩

theorem IsDyadic.neg {v : ℝ} (hv : IsDyadic v) : IsDyadic (-v) := by
  obtain ⟨z, e, hz, he, rfl⟩ := hv
  refine ⟨-z, e, by rwa [abs_neg], he, ?_⟩
  push_cast
  ring

/-- Integers of 53 bits, and the one after them. -/
theorem IsDyadic.ofNat {n : ℕ} (hn : n ≤ 2 ^ 53) : IsDyadic n := by
  rcases hn.lt_or_eq with hlt | rfl
  · refine ⟨n, 0, ?_, by norm_num, by simp⟩
    rw [Nat.abs_cast]
    exact_mod_cast hlt
  · exact ⟨2 ^ 52, 1, by norm_num, by norm_num, by norm_num⟩

theorem IsDyadic.ofInt {i : ℤ} (hi : i.natAbs ≤ 2 ^ 53) : IsDyadic i := by
  rcases i.natAbs_eq with heq | heq
  · rw [heq, Int.cast_natCast]
    exact .ofNat hi
  · rw [heq, Int.cast_neg, Int.cast_natCast]
    exact (IsDyadic.ofNat hi).neg

end

/-! ## Canonical forms -/

/-- **A mantissa and an exponent in canonical form**: the mantissa has 53 bits, or less if the
exponent is the least one. -/
structure Canonical (m : ℕ) (e : ℤ) : Prop where
  high : m < 2 ^ 53
  exponent_low : -1074 ≤ e
  low : -1074 < e → 2 ^ 52 ≤ m

section

variable {m m₁ m₂ : ℕ} {e e₁ e₂ : ℤ}

theorem Canonical.isDyadic (h : Canonical m e) : IsDyadic (m * 2 ^ e) := by
  refine ⟨m, e, ?_, h.exponent_low, by push_cast; rfl⟩
  rw [Nat.abs_cast]
  exact_mod_cast h.high

/-- The larger exponent wins, whatever the mantissas are. -/
theorem Canonical.lt_of_exponent_lt (h₁ : Canonical m₁ e₁) (h₂ : Canonical m₂ e₂) (he : e₁ < e₂) :
    (m₁ : ℝ) * 2 ^ e₁ < m₂ * 2 ^ e₂ := by
  have hhigh : (m₁ : ℝ) < 2 ^ 53 := by exact_mod_cast h₁.high
  have hlow : (2 ^ 52 : ℝ) ≤ m₂ := by exact_mod_cast h₂.low (h₁.exponent_low.trans_lt he)
  calc (m₁ : ℝ) * 2 ^ e₁ < 2 ^ 53 * 2 ^ e₁ := by gcongr
    _ = 2 ^ 52 * 2 ^ (e₁ + 1) := by
        rw [zpow_add_one₀ two_ne_zero]
        ring
    _ ≤ 2 ^ 52 * 2 ^ e₂ := by
        gcongr
        · norm_num
        · omega
    _ ≤ m₂ * 2 ^ e₂ := by gcongr

/-- **Canonical forms are compared by exponent and mantissa.** -/
theorem Canonical.compare_eq_cmp (h₁ : Canonical m₁ e₁) (h₂ : Canonical m₂ e₂) :
    (compare e₁ e₂).then (compare m₁ m₂) = cmp ((m₁ : ℝ) * 2 ^ e₁) (m₂ * 2 ^ e₂) := by
  rcases lt_trichotomy e₁ e₂ with he | rfl | he
  · rw [compare_lt_iff_lt.2 he, (cmp_eq_lt_iff _ _).2 (h₁.lt_of_exponent_lt h₂ he)]
    rfl
  · have hunit : (0 : ℝ) < 2 ^ e₁ := by positivity
    rw [compare_eq_iff_eq.2 rfl, cmp_mul_pos_right hunit, Nat.strictMono_cast.cmp_map_eq,
      cmp_eq_compare]
    rfl
  · rw [compare_gt_iff_gt.2 he, (cmp_eq_gt_iff _ _).2 (h₂.lt_of_exponent_lt h₁ he)]
    rfl

/-- An unpacked float has its mantissa and its exponent in canonical form. -/
def IsCanonical (u : UnpackedFloat) : Prop := ∀ s m e hm, u = .finite s m e hm → Canonical m e

theorem toNat_withLeadingBit (y : BitVec 52) : (1#1 ++ y).toNat = 2 ^ 52 + y.toNat := by
  rw [BitVec.toNat_append, ← Nat.shiftLeft_add_eq_or_of_lt y.isLt]
  rfl

/-- **Whatever is unpacked is canonical.** -/
theorem isCanonical_unpack (b : BitVec Format.binary64.numBits) :
    IsCanonical (UnpackedFloat.unpack Format.binary64 b) := by
  intro s m e hm h
  unfold UnpackedFloat.unpack at h
  dsimp only at h
  have hbias : Format.binary64.exponentBias = 1023 := rfl
  have hmantissa : (unpackMantissa b).toNat < 2 ^ 52 := (unpackMantissa b).isLt
  split at h
  · split at h <;> cases h
  · split at h
    · rename_i hzero
      split at h
      · cases h
      · -- a subnormal float
        obtain ⟨_, rfl, rfl⟩ := UnpackedFloat.finite.inj h
        rw [hzero, hbias]
        refine ⟨by omega, ?_, ?_⟩
        · simp
        · simp
    · rename_i hzero
      obtain ⟨_, rfl, rfl⟩ := UnpackedFloat.finite.inj h
      have hpos : 0 < (unpackExponent b).toNat :=
        Nat.pos_of_ne_zero fun heq => hzero (BitVec.eq_of_toNat_eq heq)
      rw [hbias]
      refine ⟨?_, ?_, fun _ => ?_⟩
      · exact (toNat_withLeadingBit _).trans_lt (by omega)
      · push_cast
        omega
      · exact (Nat.le_add_right _ _).trans_eq (toNat_withLeadingBit _).symm

end

/-! ## Order -/

section

variable {u v : UnpackedFloat}

theorem IsCanonical.isDyadic (hu : IsCanonical u) : IsDyadic (real u) := by
  cases u with
  | finite s m e hm =>
      have hmagnitude := (hu s m e hm rfl).isDyadic
      cases s with
      | positive => exact hmagnitude
      | negative =>
          rw [real_negative]
          exact hmagnitude.neg
  | _ => exact .zero

/-- What the value of a float can be. -/
theorem IsCanonical.value_cases (hu : IsCanonical u) :
    value u = ⊤ ∨ value u = ⊥ ∨ ∃ v, IsDyadic v ∧ value u = (v : EReal) := by
  have hdyadic := hu.isDyadic
  rcases u with (_ | _) | _ | _ | _
  · exact .inr (.inl rfl)
  · exact .inl rfl
  all_goals exact .inr (.inr ⟨_, hdyadic, rfl⟩)

theorem cmp_neg_neg (x y : ℝ) : cmp (-x) (-y) = (cmp x y).swap := by
  rw [cmp_swap]
  simp [cmp, cmpUsing]

/-- Finite floats are compared by their values: by sign, and then by magnitude. -/
theorem compare_finite (hu : IsCanonical u) (hv : IsCanonical v) (hufinite : u.isFinite = true)
    (hvfinite : v.isFinite = true) : u.compare v = some (cmp (real u) (real v)) := by
  rcases u with _ | _ | s | ⟨_ | _, m, e, hm⟩
  · cases hufinite
  · cases hufinite
  · rcases v with _ | _ | s' | ⟨_ | _, m', e', hm'⟩
    · cases hvfinite
    · cases hvfinite
    · rw [real_zero, real_zero, cmp_self_eq_eq]
      rfl
    · have hlt := neg_neg_of_pos (magnitude_pos hm' e')
      rw [real_zero, real_negative, (cmp_eq_gt_iff _ _).2 hlt]
      rfl
    · rw [real_zero, real_positive, (cmp_eq_lt_iff _ _).2 (magnitude_pos hm' e')]
      rfl
  · have hlt := neg_neg_of_pos (magnitude_pos hm e)
    rcases v with _ | _ | s' | ⟨_ | _, m', e', hm'⟩
    · cases hvfinite
    · cases hvfinite
    · rw [real_zero, real_negative, (cmp_eq_lt_iff _ _).2 hlt]
      rfl
    · rw [real_negative, real_negative, cmp_neg_neg,
        ← (hu _ _ _ _ rfl).compare_eq_cmp (hv _ _ _ _ rfl)]
      rfl
    · rw [real_negative, real_positive,
        (cmp_eq_lt_iff _ _).2 (hlt.trans (magnitude_pos hm' e'))]
      rfl
  · have hpos := magnitude_pos hm e
    rcases v with _ | _ | s' | ⟨_ | _, m', e', hm'⟩
    · cases hvfinite
    · cases hvfinite
    · rw [real_zero, real_positive, (cmp_eq_gt_iff _ _).2 hpos]
      rfl
    · have hlt := neg_neg_of_pos (magnitude_pos hm' e')
      rw [real_negative, real_positive, (cmp_eq_gt_iff _ _).2 (hlt.trans hpos)]
      rfl
    · rw [real_positive, real_positive, ← (hu _ _ _ _ rfl).compare_eq_cmp (hv _ _ _ _ rfl)]
      rfl

/-- A float that is a number is finite or one of the two infinities. -/
theorem finite_or_infinity (hu : u.isNaN = false) :
    u.isFinite = true ∨ u = .infinity .positive ∨ u = .infinity .negative := by
  cases u with
  | infinity s => cases s <;> simp
  | notANumber => cases hu
  | _ => exact .inl rfl

theorem compare_infinity (hu : u.isFinite = true) :
    (u.compare (.infinity .positive) = some .lt ∧ u.compare (.infinity .negative) = some .gt) ∧
      UnpackedFloat.compare (.infinity .positive) u = some .gt ∧
      UnpackedFloat.compare (.infinity .negative) u = some .lt := by
  cases u with
  | zero s => exact ⟨⟨rfl, rfl⟩, rfl, rfl⟩
  | finite s m e hm => exact ⟨⟨rfl, rfl⟩, rfl, rfl⟩
  | _ => cases hu

/-- **Floats are compared by their exact values.** -/
theorem compare_eq_cmp (hu : IsCanonical u) (hv : IsCanonical v) (hunumber : u.isNaN = false)
    (hvnumber : v.isNaN = false) : u.compare v = some (cmp (value u) (value v)) := by
  have hpositive : value (.infinity .positive) = ⊤ := rfl
  have hnegative : value (.infinity .negative) = ⊥ := rfl
  rcases finite_or_infinity hunumber with hufinite | rfl | rfl
  · have hinfinity := compare_infinity hufinite
    rw [value_of_isFinite hufinite]
    rcases finite_or_infinity hvnumber with hvfinite | rfl | rfl
    · rw [value_of_isFinite hvfinite, EReal.coe_strictMono.cmp_map_eq,
        compare_finite hu hv hufinite hvfinite]
    · rw [hpositive, (cmp_eq_lt_iff _ _).2 (EReal.coe_lt_top _), hinfinity.1.1]
    · rw [hnegative, (cmp_eq_gt_iff _ _).2 (EReal.bot_lt_coe _), hinfinity.1.2]
  · rw [hpositive]
    rcases finite_or_infinity hvnumber with hvfinite | rfl | rfl
    · rw [value_of_isFinite hvfinite, (cmp_eq_gt_iff _ _).2 (EReal.coe_lt_top _),
        (compare_infinity hvfinite).2.1]
    · rw [hpositive, cmp_self_eq_eq]
      rfl
    · rw [hnegative, (cmp_eq_gt_iff _ _).2 bot_lt_top]
      rfl
  · rw [hnegative]
    rcases finite_or_infinity hvnumber with hvfinite | rfl | rfl
    · rw [value_of_isFinite hvfinite, (cmp_eq_lt_iff _ _).2 (EReal.bot_lt_coe _),
        (compare_infinity hvfinite).2.2]
    · rw [hpositive, (cmp_eq_lt_iff _ _).2 bot_lt_top]
      rfl
    · rw [hnegative, cmp_self_eq_eq]
      rfl

end

/-! ## Bits -/

theorem unpackSign_packComponents {spec : Format} {sign : Sign}
    {exponent : BitVec spec.exponentBits} {mantissa : BitVec spec.mantissaBitsWithoutImplicit} :
    unpackSign (packComponents spec sign exponent mantissa) = sign.toBitVec := by
  ext i hi
  obtain rfl : i = 0 := by omega
  simp [unpackSign, packComponents, BitVec.getLsbD_append, BitVec.getElem_append]

section

variable {s : Sign} {m : ℕ} {e : ℤ}

theorem log2_eq {k : ℕ} (hlow : 2 ^ k ≤ m) (hhigh : m < 2 ^ (k + 1)) : m.log2 = k := by
  have hm : m ≠ 0 := Nat.ne_of_gt ((Nat.two_pow_pos k).trans_le hlow)
  have hlt := (Nat.log2_lt hm).2 hhigh
  have hle := (Nat.le_log2 hm).2 hlow
  omega

/-- The bits of a normal float. -/
theorem unpack_packComponents {x : BitVec 11} {y : BitVec 52} (hones : x ≠ -1#11)
    (hzero : x ≠ 0#11) (hm : 0 < m) (hmantissa : (1#1 ++ y).toNat = m)
    (hexponent : (x.toNat : ℤ) - 1075 = e) :
    UnpackedFloat.unpack Format.binary64 (packComponents Format.binary64 s x y) =
      .finite s m e hm := by
  have hx : unpackExponent (packComponents Format.binary64 s x y) = x :=
    unpackExponent_packComponents
  have hy : unpackMantissa (packComponents Format.binary64 s x y) = y :=
    unpackMantissa_packComponents
  have hs : Sign.ofBitVec (unpackSign (packComponents Format.binary64 s x y)) = s := by
    rw [unpackSign_packComponents]
    cases s <;> rfl
  subst hmantissa hexponent
  unfold UnpackedFloat.unpack
  simp only [hx, hy, hs]
  rw [if_neg hones]
  split
  · exact absurd (by assumption) hzero
  · rfl

theorem pack_normal (hm : 0 < m) (hlow : 2 ^ 52 ≤ m) (hhigh : m < 2 ^ 53) (he : e ≤ 971) :
    UnpackedFloat.pack Format.binary64 (.finite s m e hm) =
      packComponents Format.binary64 s (BitVec.ofNat 11 (e + 1075).toNat) (BitVec.ofNat 52 m) := by
  have hbits : m.log2 + 1 = Format.binary64.mantissaBits := by
    rw [log2_eq hlow hhigh]
    rfl
  have hbiased : (e + Format.binary64.exponentBias +
      Format.binary64.mantissaBitsWithoutImplicit).toNat = (e + 1075).toNat := by
    show (e + (1023 : ℤ) + (52 : ℤ)).toNat = _
    congr 1
    omega
  have hinRange : ¬ 2 ^ 11 ≤ (e + 1075).toNat + 1 := by omega
  simp only [UnpackedFloat.pack, hbiased, hbits]
  rw [if_neg hinRange, if_pos trivial]

/-- **A normal float**: all 53 bits of the mantissa are used, and the exponent is in range. -/
structure Normal (u : UnpackedFloat) (s : Sign) (m : ℕ) (e : ℤ) : Prop where
  eq : ∃ hm, u = .finite s m e hm
  low : 2 ^ 52 ≤ m
  high : m < 2 ^ 53
  exponent_low : -1074 ≤ e
  exponent_high : e ≤ 971

/-- **A normal float is kept by its bits.** -/
theorem Normal.unpack_pack {u : UnpackedFloat} (h : Normal u s m e) :
    (Float.Model.pack u).unpack = u := by
  obtain ⟨hm, rfl⟩ := h.eq
  have hlow := h.low
  have hhigh := h.high
  have helow := h.exponent_low
  have hehigh := h.exponent_high
  have hexponent : (BitVec.ofNat 11 (e + 1075).toNat).toNat = (e + 1075).toNat := by
    rw [BitVec.toNat_ofNat]
    exact Nat.mod_eq_of_lt (by omega)
  have hmantissa : (1#1 ++ BitVec.ofNat 52 m).toNat = m := by
    rw [toNat_withLeadingBit, BitVec.toNat_ofNat]
    omega
  show UnpackedFloat.unpack _ (UnpackedFloat.pack _ _) = _
  rw [pack_normal hm hlow hhigh hehigh]
  refine unpack_packComponents (fun hones => ?_) (fun hzero => ?_) hm hmantissa (by omega)
  · have hall : (-1#11).toNat = 2047 := by decide
    have heq := congrArg BitVec.toNat hones
    omega
  · have hnone : (0#11).toNat = 0 := rfl
    have heq := congrArg BitVec.toNat hzero
    omega

end

end SmallLisp.Floats

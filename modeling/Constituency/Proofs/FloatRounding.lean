import Mathlib
import Constituency.Proofs.Rounding

/-!
# Floating-point arithmetic

The model of floating-point numbers in terms of codes: how magnitudes are rounded, and what sums and
comparisons of negative numbers come to.
-/

namespace Constituency.Rounding

open Float.Model Float.Model.UnpackedFloat

section Shifting

theorem shiftRight_zero (em : ExtendedMantissa) : em >>> 0 = em := rfl

theorem shiftRight_succ (em : ExtendedMantissa) (n : Nat) :
    em >>> (n + 1) = (em >>> n).shiftRightOne := rfl

/-- The last bit shifted out is the round bit, and all before it make up the sticky bit. -/
theorem shiftRight_exact (m n : Nat) : (⟨m, false, false⟩ : ExtendedMantissa) >>> (n + 1) =
    ⟨m / 2 ^ (n + 1), m / 2 ^ n % 2 != 0, m % 2 ^ n != 0⟩ := by
  induction n with
  | zero => simp [shiftRight_succ, shiftRight_zero, ExtendedMantissa.shiftRightOne, Nat.mod_one]
  | succ n ih =>
    have hmod : m % 2 ^ (n + 1) = m % 2 ^ n + 2 ^ n * (m / 2 ^ n % 2) := Nat.mod_pow_succ
    rw [shiftRight_succ, ih]
    simp only [ExtendedMantissa.shiftRightOne, Nat.div_div_eq_div_mul, ← Nat.pow_succ, hmod]
    congr 1
    rcases Nat.mod_two_eq_zero_or_one (m / 2 ^ n) with h | h <;> simp [h]

theorem roundedMantissa_below (q : Nat) (sticky : Bool) :
    (⟨q, false, sticky⟩ : ExtendedMantissa).roundedMantissa = q := by
  cases sticky <;> rfl

theorem roundedMantissa_middle (q : Nat) :
    (⟨q, true, false⟩ : ExtendedMantissa).roundedMantissa = q + q % 2 := rfl

theorem roundedMantissa_above (q : Nat) :
    (⟨q, true, true⟩ : ExtendedMantissa).roundedMantissa = q + 1 := rfl

theorem roundedMantissa_exact (m n : Nat) :
    (ExtendedMantissa.ofMantissaAndAccuracy m .exact >>> n).roundedMantissa = nearest m n := by
  change ((⟨m, false, false⟩ : ExtendedMantissa) >>> n).roundedMantissa = nearest m n
  cases n with
  | zero =>
    rw [shiftRight_zero, roundedMantissa_below]
    simp [nearest, Nat.mod_one]
  | succ n =>
    have hmod : m % 2 ^ (n + 1) = m % 2 ^ n + 2 ^ n * (m / 2 ^ n % 2) := Nat.mod_pow_succ
    have hlt : m % 2 ^ n < 2 ^ n := Nat.mod_lt _ (Nat.two_pow_pos n)
    have hpow : 2 ^ (n + 1) = 2 * 2 ^ n := by rw [Nat.pow_succ, Nat.mul_comm]
    rw [shiftRight_exact, nearest]
    rcases Nat.mod_two_eq_zero_or_one (m / 2 ^ n) with h | h
    · rw [h, bne_self_eq_false, roundedMantissa_below, if_pos (by rw [hmod, h]; omega)]
    · by_cases hs : m % 2 ^ n = 0
      · rw [h, hs, bne_self_eq_false]
        rw [if_neg (by rw [hmod, h]; omega), if_pos (by rw [hmod, h]; omega)]
        exact roundedMantissa_middle _
      · rw [h, bne_iff_ne.mpr hs]
        rw [if_neg (by rw [hmod, h]; omega), if_neg (by rw [hmod, h]; omega)]
        exact roundedMantissa_above _

theorem mantissa_shiftRight (em : ExtendedMantissa) (n : Nat) :
    (em >>> n).mantissa = em.mantissa / 2 ^ n := by
  induction n with
  | zero => rw [shiftRight_zero, Nat.pow_zero, Nat.div_one]
  | succ n ih =>
    rw [shiftRight_succ, ExtendedMantissa.shiftRightOne, ih, Nat.div_div_eq_div_mul, ← Nat.pow_succ]

theorem mantissa_ofMantissaAndAccuracy (m : Nat) (accuracy : Accuracy) :
    (ExtendedMantissa.ofMantissaAndAccuracy m accuracy).mantissa = m := by
  cases accuracy with
  | exact => rfl
  | inexact half => cases half <;> rfl

theorem roundedMantissa_bounds (em : ExtendedMantissa) :
    em.mantissa ≤ em.roundedMantissa ∧ em.roundedMantissa ≤ em.mantissa + 1 := by
  obtain ⟨q, halfway, sticky⟩ := em
  cases halfway with
  | false => simp [roundedMantissa_below]
  | true =>
    cases sticky with
    | false =>
      rw [roundedMantissa_middle]
      constructor <;> dsimp only <;> omega
    | true => simp [roundedMantissa_above]

end Shifting

section Codes

/-- The target exponent leaves out the bits in excess. -/
theorem targetExponent_eq {m : Nat} (hm : m ≠ 0) (s : Nat) :
    Format.binary64.targetExponent (totalExponent m (s - 1074 : Int)) =
      (excess (m * 2 ^ s) : Int) - 1074 := by
  simp only [Format.targetExponent, totalExponent, Format.mantissaBits, Format.minExponent, excess,
    log2_mul_two_pow hm]
  norm_num
  omega

theorem shiftToTargetExponent_eq {m s : Nat} (hm : m ≠ 0) (hs : s ≤ excess (m * 2 ^ s))
    (accuracy : Accuracy) :
    shiftToTargetExponent Format.binary64 m (s - 1074 : Int) accuracy =
      (ExtendedMantissa.ofMantissaAndAccuracy m accuracy >>> (excess (m * 2 ^ s) - s),
        (excess (m * 2 ^ s) : Int) - 1074) := by
  have hshift : ((excess (m * 2 ^ s) : Int) - 1074 - (s - 1074)).toNat =
      excess (m * 2 ^ s) - s := by omega
  simp only [shiftToTargetExponent, shiftToExponent, targetExponent_eq hm, hshift]
  congr 1
  omega

/-- The code of a number that is neither zero nor infinite, beside its sign. -/
def HasCode (sign : Sign) (u : UnpackedFloat) (k : Nat) : Prop :=
  ∃ (q s : Nat) (h : 0 < q), u = .finite sign q ((s : Int) - 1074) h ∧
    k = s * 2 ^ 52 + q ∧ q < 2 ^ 53 ∧ (0 < s → 2 ^ 52 ≤ q)

variable {sign : Sign}

theorem HasCode.of_lt {q s : Nat} (hpos : 0 < q) (hq : q < 2 ^ 53) (hs : 0 < s → 2 ^ 52 ≤ q) :
    HasCode sign (.finite sign q ((s : Int) - 1074) hpos) (s * 2 ^ 52 + q) :=
  ⟨q, s, hpos, rfl, rfl, hq, hs⟩

theorem shiftToTargetExponent_of_lt {q s : Nat} (hpos : 0 < q) (hq : q < 2 ^ 53)
    (hs : 0 < s → 2 ^ 52 ≤ q) : shiftToTargetExponent Format.binary64 q (s - 1074 : Int) .exact =
      (⟨q, false, false⟩, (s : Int) - 1074) := by
  have he := excess_mul hq hs
  rw [shiftToTargetExponent_eq hpos.ne' (by rw [he]) .exact, he, Nat.sub_self]
  rfl

theorem shiftToTargetExponent_carry (s : Nat) :
    shiftToTargetExponent Format.binary64 (2 ^ 53) (s - 1074 : Int) .exact =
      (⟨2 ^ 52, false, false⟩, ((s + 1 : Nat) : Int) - 1074) := by
  have he : excess (2 ^ 53 * 2 ^ s) = s + 1 := by
    rw [show 2 ^ 53 * 2 ^ s = 2 ^ 52 * 2 ^ (s + 1) by ring]
    exact excess_mul (by decide) fun _ => le_refl _
  rw [shiftToTargetExponent_eq (by decide) (by omega) .exact, he, Nat.add_sub_cancel_left]
  rfl

/-- If rounding makes a mantissa one bit too long, that bit is zero. -/
theorem hasCode_carry {q s : Nat} (hpos : 0 < q) (hq : q ≤ 2 ^ 53) (hs : 0 < s → 2 ^ 52 ≤ q)
    {shifted : ExtendedMantissa × Int}
    (h : shiftToTargetExponent Format.binary64 q (s - 1074 : Int) .exact = shifted) :
    HasCode sign (if h0 : shifted.1.mantissa = 0 then .zero sign
      else .finite sign shifted.1.mantissa shifted.2 (Nat.pos_of_ne_zero h0))
      (s * 2 ^ 52 + q) := by
  subst h
  rcases Nat.lt_or_eq_of_le hq with hq | rfl
  · simp only [shiftToTargetExponent_of_lt hpos hq hs]
    rw [dif_neg hpos.ne']
    exact .of_lt hpos hq hs
  · simp only [shiftToTargetExponent_carry]
    rw [dif_neg (by decide), show s * 2 ^ 52 + 2 ^ 53 = (s + 1) * 2 ^ 52 + 2 ^ 52 by ring]
    exact .of_lt (by decide) (by decide) fun _ => le_refl _

/-- Whether a mantissa is rounded up or down, the result has a code. -/
theorem hasCode_of_rounded {m s q : Nat} (hm : m ≠ 0) (hs : s ≤ excess (m * 2 ^ s))
    {accuracy : Accuracy} (hlow : m * 2 ^ s / 2 ^ excess (m * 2 ^ s) ≤ q)
    (hhigh : q ≤ m * 2 ^ s / 2 ^ excess (m * 2 ^ s) + 1)
    (hround : (ExtendedMantissa.ofMantissaAndAccuracy m accuracy >>>
      (excess (m * 2 ^ s) - s)).roundedMantissa = q) :
    HasCode sign (roundWithAccuracy Format.binary64 sign m (s - 1074 : Int) accuracy)
      (excess (m * 2 ^ s) * 2 ^ 52 + q) := by
  have hlt := div_excess_lt (m * 2 ^ s)
  have hfull : 0 < excess (m * 2 ^ s) → 2 ^ 52 ≤ q := fun h0 => (le_div_excess h0).trans hlow
  have hpos : 0 < q := by
    rcases Nat.eq_zero_or_pos (excess (m * 2 ^ s)) with h0 | h0
    · have hm' : 0 < m * 2 ^ s := by positivity
      rw [h0, Nat.pow_zero, Nat.div_one] at hlow
      omega
    · have := hfull h0
      omega
  simp only [roundWithAccuracy, shiftToTargetExponent_eq hm hs, hround]
  exact hasCode_carry hpos (by omega) hfull rfl

theorem hasCode_roundWithAccuracy {m s : Nat} (hm : m ≠ 0) (hs : s ≤ excess (m * 2 ^ s)) :
    HasCode sign (roundWithAccuracy Format.binary64 sign m (s - 1074 : Int) .exact)
      (code (m * 2 ^ s)) :=
  hasCode_of_rounded hm hs (div_le_nearest _ _) (nearest_le _ _)
    (by rw [roundedMantissa_exact, nearest_mul_two_pow hs])

/-- What is cut off adds at most one to a code. -/
theorem exists_hasCode_roundWithAccuracy {m s : Nat} (hm : m ≠ 0) (hs : s ≤ excess (m * 2 ^ s))
    (accuracy : Accuracy) :
    ∃ k, HasCode sign (roundWithAccuracy Format.binary64 sign m (s - 1074 : Int) accuracy) k ∧
      excess (m * 2 ^ s) * 2 ^ 52 ≤ k ∧
      k ≤ excess (m * 2 ^ s) * 2 ^ 52 + m * 2 ^ s / 2 ^ excess (m * 2 ^ s) + 1 := by
  have hbounds := roundedMantissa_bounds
    (ExtendedMantissa.ofMantissaAndAccuracy m accuracy >>> (excess (m * 2 ^ s) - s))
  have hpow : 2 ^ excess (m * 2 ^ s) = 2 ^ (excess (m * 2 ^ s) - s) * 2 ^ s := by
    rw [← Nat.pow_add, Nat.sub_add_cancel hs]
  have hdiv : m / 2 ^ (excess (m * 2 ^ s) - s) = m * 2 ^ s / 2 ^ excess (m * 2 ^ s) := by
    rw [hpow, Nat.mul_div_mul_right _ _ (Nat.two_pow_pos s)]
  rw [mantissa_shiftRight, mantissa_ofMantissaAndAccuracy, hdiv] at hbounds
  obtain ⟨hlow, hhigh⟩ := hbounds
  exact ⟨_, hasCode_of_rounded hm hs hlow hhigh rfl, by omega, by omega⟩

theorem decreaseExponent_eq (m s k : Nat) : decreaseExponent m (s - 1074 : Int) (k - 1074 : Int) =
    (m * 2 ^ (s - k), ((min s k : Nat) : Int) - 1074) := by
  have hshift : ((s : Int) - 1074 - (k - 1074)).toNat = s - k := by omega
  simp only [decreaseExponent, hshift, Nat.shiftLeft_eq]
  congr 1
  omega

theorem hasCode_round {m : Nat} (hm : m ≠ 0) (s : Nat) :
    HasCode sign (round Format.binary64 sign m (s - 1074 : Int)) (code (m * 2 ^ s)) := by
  have hval : m * 2 ^ (s - excess (m * 2 ^ s)) * 2 ^ min s (excess (m * 2 ^ s)) = m * 2 ^ s := by
    rw [Nat.mul_assoc, ← Nat.pow_add,
      show s - excess (m * 2 ^ s) + min s (excess (m * 2 ^ s)) = s by omega]
  simp only [UnpackedFloat.round, targetExponent_eq hm, decreaseExponent_eq]
  have h : HasCode sign (roundWithAccuracy Format.binary64 sign (m * 2 ^ (s - excess (m * 2 ^ s)))
      ((min s (excess (m * 2 ^ s)) : Nat) - 1074) .exact) _ :=
    hasCode_roundWithAccuracy (by positivity) (by rw [hval]; exact Nat.min_le_right _ _)
  rwa [hval] at h

/-- The sum of negative numbers is the rounded sum of their magnitudes. -/
theorem HasCode.add {u v : UnpackedFloat} {j k : Nat} (hu : HasCode .negative u j)
    (hv : HasCode .negative v k) :
    HasCode .negative (u.add Format.binary64 v) (code (magnitude j + magnitude k)) := by
  obtain ⟨q, s, hqpos, rfl, rfl, hq, hs⟩ := hu
  obtain ⟨r, t, hrpos, rfl, rfl, hr, ht⟩ := hv
  have hmin : min ((s : Int) - 1074) (t - 1074) = ((min s t : Nat) : Int) - 1074 := by omega
  have hscale (m e : Nat) (he : min s t ≤ e) :
      m * 2 ^ (e - min s t) * 2 ^ min s t = m * 2 ^ e := by
    rw [Nat.mul_assoc, ← Nat.pow_add, Nat.sub_add_cancel he]
  have hsum : (q * 2 ^ (s - min s t) + r * 2 ^ (t - min s t)) * 2 ^ min s t =
      q * 2 ^ s + r * 2 ^ t := by
    rw [Nat.add_mul, hscale q s (Nat.min_le_left s t), hscale r t (Nat.min_le_right s t)]
  have hpos : 0 < q * 2 ^ (s - min s t) := by positivity
  rw [magnitude_of_lt hq hs, magnitude_of_lt hr ht, ← hsum]
  simp only [UnpackedFloat.add, hmin, decreaseExponent_eq, Sign.apply]
  generalize q * 2 ^ (s - min s t) = a at *
  generalize r * 2 ^ (t - min s t) = b at *
  have hlt : compare (-(a : Int) + -(b : Int)) 0 = .lt := by
    rw [compare_lt_iff_lt]
    omega
  have habs : (-(-(a : Int) + -(b : Int))).toNat = a + b := by omega
  simp only [UnpackedFloat.normalize, hlt, habs]
  exact hasCode_round (by omega) _

/-- The order of exponents, and of mantissas at the same exponent, is that of the codes. -/
theorem compare_code {q r s t : Nat} (hq : q < 2 ^ 53) (hs : 0 < s → 2 ^ 52 ≤ q) (hr : r < 2 ^ 53)
    (ht : 0 < t → 2 ^ 52 ≤ r) :
    (compare ((s : Int) - 1074) (t - 1074)).then (compare q r) =
      compare (s * 2 ^ 52 + q) (t * 2 ^ 52 + r) := by
  rcases Nat.lt_trichotomy s t with h | rfl | h
  · have := ht (Nat.zero_lt_of_lt h)
    rw [compare_lt_iff_lt.mpr (show (s : Int) - 1074 < t - 1074 by omega),
      compare_lt_iff_lt.mpr (show s * 2 ^ 52 + q < t * 2 ^ 52 + r by omega)]
    rfl
  · generalize s * 2 ^ 52 = base
    simp only [Std.compare_self, Ordering.eq_then, Nat.compare_eq_ite_lt, Nat.add_lt_add_iff_left]
  · have := hs (Nat.zero_lt_of_lt h)
    rw [compare_gt_iff_gt.mpr (show (t : Int) - 1074 < s - 1074 by omega),
      compare_gt_iff_gt.mpr (show t * 2 ^ 52 + r < s * 2 ^ 52 + q by omega)]
    rfl

/-- Negative numbers are in the reverse order of their codes. -/
theorem HasCode.le_iff {u v : UnpackedFloat} {j k : Nat} (hu : HasCode .negative u j)
    (hv : HasCode .negative v k) : u.le v = true ↔ k ≤ j := by
  obtain ⟨q, s, hqpos, rfl, hj, hq, hs⟩ := hu
  obtain ⟨r, t, hrpos, rfl, hk, hr, ht⟩ := hv
  have hcompare := compare_code hq hs hr ht
  rw [← hj, ← hk] at hcompare
  simp only [UnpackedFloat.le, UnpackedFloat.compare, Option.any_some, hcompare,
    Ordering.isLE_swap, Nat.isGE_compare]

/-- Positive numbers are in the order of their codes. -/
theorem HasCode.le_iff_of_positive {u v : UnpackedFloat} {j k : Nat} (hu : HasCode .positive u j)
    (hv : HasCode .positive v k) : u.le v = true ↔ j ≤ k := by
  obtain ⟨q, s, hqpos, rfl, hj, hq, hs⟩ := hu
  obtain ⟨r, t, hrpos, rfl, hk, hr, ht⟩ := hv
  have hcompare := compare_code hq hs hr ht
  rw [← hj, ← hk] at hcompare
  simp only [UnpackedFloat.le, UnpackedFloat.compare, Option.any_some, hcompare,
    Nat.isLE_compare]

end Codes

section Bits

/-- The code of negative infinity. -/
def top : Nat :=
  2047 * 2 ^ 52

variable (b : BitVec Format.binary64.numBits)

theorem toNat_unpackMantissa : (unpackMantissa b).toNat = b.toNat % 2 ^ 52 := by
  simp [unpackMantissa]

theorem toNat_unpackExponent : (unpackExponent b).toNat = b.toNat / 2 ^ 52 % 2 ^ 11 := by
  simp [unpackExponent, Nat.shiftRight_eq_div_pow]

theorem toNat_unpackSign : (unpackSign b).toNat = b.toNat / 2 ^ 63 % 2 := by
  simp [unpackSign, Nat.shiftRight_eq_div_pow]

/-- The three parts of a bit pattern in place of the pattern. -/
theorem toNat_eq : b.toNat = (unpackSign b).toNat * 2 ^ 63 + (unpackExponent b).toNat * 2 ^ 52 +
    (unpackMantissa b).toNat := by
  have hlt : b.toNat < 2 ^ 64 := b.isLt
  rw [toNat_unpackSign, toNat_unpackExponent, toNat_unpackMantissa]
  omega

theorem toNat_of_sign_negative (h : Sign.ofBitVec (unpackSign b) = .negative) :
    (unpackSign b).toNat = 1 := by
  unfold Sign.ofBitVec at h
  split at h
  · simp at h
  · rename_i hne
    have hlt : (unpackSign b).toNat < 2 := (unpackSign b).isLt
    have : (unpackSign b).toNat ≠ 0 := fun h0 => hne (BitVec.eq_of_toNat_eq h0)
    omega

variable {b}

theorem toNat_of_unpack_infinity
    (h : UnpackedFloat.unpack Format.binary64 b = .infinity .negative) :
    b.toNat = 2 ^ 63 + top := by
  simp only [UnpackedFloat.unpack] at h
  split at h
  · rename_i he
    split at h
    · rename_i hm
      have hs := toNat_of_sign_negative b (by simpa using h)
      rw [toNat_eq, hs, he, hm]
      rfl
    · simp at h
  · split at h
    · split at h <;> simp at h
    · simp at h

theorem toNat_of_unpack_finite {q : Nat} {e : Int} {hq : 0 < q}
    (h : UnpackedFloat.unpack Format.binary64 b = .finite .negative q e hq) :
    2 ^ 63 < b.toNat ∧ b.toNat < 2 ^ 63 + top := by
  have hm : (unpackMantissa b).toNat < 2 ^ 52 := (unpackMantissa b).isLt
  have hx : (unpackExponent b).toNat < 2 ^ 11 := (unpackExponent b).isLt
  have hb := toNat_eq b
  have htop : top = 2047 * 2 ^ 52 := rfl
  simp only [UnpackedFloat.unpack] at h
  split at h
  · split at h <;> simp at h
  · rename_i hinf
    have hinf' : (unpackExponent b).toNat ≠ 2047 := fun h0 => hinf (BitVec.eq_of_toNat_eq h0)
    split at h
    · split at h
      · simp at h
      · injection h with hsign hmantissa _
        rw [toNat_of_sign_negative b hsign] at hb
        omega
    · rename_i he
      have he' : (unpackExponent b).toNat ≠ 0 := fun h0 => he (BitVec.eq_of_toNat_eq h0)
      injection h with hsign _ _
      rw [toNat_of_sign_negative b hsign] at hb
      omega

/-- The sign as the first bit of a pattern. -/
def signBit : Sign → Nat
  | .negative => 2 ^ 63
  | .positive => 0

theorem sign_of_toNat {sign : Sign} {k : Nat} (h : b.toNat = signBit sign + k) (hk : k < 2 ^ 63) :
    Sign.ofBitVec (unpackSign b) = sign := by
  cases sign with
  | negative =>
    have hs : unpackSign b = 1#1 := by
      apply BitVec.eq_of_toNat_eq
      change (unpackSign b).toNat = 1
      rw [toNat_unpackSign, h, signBit]
      omega
    rw [hs]
    rfl
  | positive =>
    have hs : unpackSign b = 0#1 := by
      apply BitVec.eq_of_toNat_eq
      change (unpackSign b).toNat = 0
      rw [toNat_unpackSign, h, signBit]
      omega
    rw [hs]
    rfl

theorem unpack_of_toNat_top (h : b.toNat = 2 ^ 63 + top) :
    UnpackedFloat.unpack Format.binary64 b = .infinity .negative := by
  have hb : b = BitVec.ofNat 64 (2 ^ 63 + top) := BitVec.eq_of_toNat_eq (h.trans rfl)
  rw [hb]
  rfl

theorem hasCode_unpack {sign : Sign} {k : Nat} (h : b.toNat = signBit sign + k) (hpos : 0 < k)
    (hlt : k < top) : HasCode sign (UnpackedFloat.unpack Format.binary64 b) k := by
  have htop : top = 2047 * 2 ^ 52 := rfl
  have hsign : signBit sign % 2 ^ 52 = 0 ∧ signBit sign / 2 ^ 52 % 2 ^ 11 = 0 := by
    cases sign <;> decide
  have hm : (unpackMantissa b).toNat = k % 2 ^ 52 := by
    rw [toNat_unpackMantissa]
    omega
  have hx : (unpackExponent b).toNat = k / 2 ^ 52 := by
    rw [toNat_unpackExponent]
    omega
  have hbias : (Format.binary64.exponentBias : Int) = 1023 := rfl
  simp only [UnpackedFloat.unpack, sign_of_toNat h (by omega)]
  split
  · rename_i hinf
    have hinf' : (unpackExponent b).toNat = 2047 := congrArg BitVec.toNat hinf
    omega
  · split
    · rename_i he
      have he' : (unpackExponent b).toNat = 0 := congrArg BitVec.toNat he
      split
      · rename_i hzero
        have hzero' : (unpackMantissa b).toNat = 0 := congrArg BitVec.toNat hzero
        omega
      · refine ⟨(unpackMantissa b).toNat, 0, by omega, ?_, ?_, ?_, ?_⟩
        · congr 1
          rw [he', hbias]
          rfl
        all_goals omega
    · rename_i he
      have he' : (unpackExponent b).toNat ≠ 0 := fun h0 => he (BitVec.eq_of_toNat_eq h0)
      have happend : (1#1 ++ unpackMantissa b).toNat = 2 ^ 52 + (unpackMantissa b).toNat := by
        rw [BitVec.toNat_append, ← Nat.shiftLeft_add_eq_or_of_lt (unpackMantissa b).isLt]
        rfl
      refine ⟨(1#1 ++ unpackMantissa b).toNat, (unpackExponent b).toNat - 1, by omega, ?_, ?_, ?_,
        ?_⟩
      · congr 1
        rw [hbias]
        omega
      all_goals omega

theorem toNat_packComponents (sign : Sign) (x : BitVec 11) (m : BitVec 52) :
    (packComponents Format.binary64 sign x m).toNat =
      signBit sign + x.toNat * 2 ^ 52 + m.toNat := by
  have hx : x.toNat < 2 ^ 11 := x.isLt
  have hm : m.toNat < 2 ^ 52 := m.isLt
  rw [packComponents, BitVec.toNat_append, BitVec.toNat_append]
  rw [← Nat.shiftLeft_add_eq_or_of_lt hm, ← Nat.shiftLeft_add_eq_or_of_lt hx]
  simp only [Nat.shiftLeft_eq]
  cases sign with
  | negative =>
    change (1 * 2 ^ 11 + x.toNat) * 2 ^ 52 + m.toNat = 2 ^ 63 + x.toNat * 2 ^ 52 + m.toNat
    omega
  | positive =>
    change (0 * 2 ^ 11 + x.toNat) * 2 ^ 52 + m.toNat = 0 + x.toNat * 2 ^ 52 + m.toNat
    omega

/-- A code beyond the top overflows to infinity. -/
theorem HasCode.toNat_pack {sign : Sign} {u : UnpackedFloat} {k : Nat} (hu : HasCode sign u k) :
    (UnpackedFloat.pack Format.binary64 u).toNat = signBit sign + min k top := by
  obtain ⟨q, s, hpos, rfl, rfl, hq, hs⟩ := hu
  have htop : top = 2047 * 2 ^ 52 := rfl
  have hbiased : ((s : Int) - 1074 + (Format.binary64.exponentBias : Int) +
      (Format.binary64.mantissaBitsWithoutImplicit : Int)).toNat = s + 1 := by
    change ((s : Int) - 1074 + 1023 + 52).toNat = s + 1
    omega
  simp only [UnpackedFloat.pack, hbiased]
  split
  · rename_i hinf
    have hinf : 2 ^ 11 ≤ s + 1 + 1 := hinf
    have := hs (by omega)
    rw [Nat.min_eq_right (by omega)]
    cases sign <;> rfl
  · rename_i hfin
    have hfin : ¬2 ^ 11 ≤ s + 1 + 1 := hfin
    rw [Nat.min_eq_left (by omega)]
    split
    · rename_i hlog
      have hlog : q.log2 + 1 = 53 := hlog
      have hfull : 2 ^ 52 ≤ q := (Nat.le_log2 hpos.ne').mp (by omega)
      rw [toNat_packComponents, BitVec.toNat_ofNat, BitVec.toNat_ofNat]
      omega
    · rename_i hlog
      have hlog : q.log2 + 1 ≠ 53 := hlog
      have hupper : q.log2 < 53 := (Nat.log2_lt hpos.ne').mpr hq
      have hpart : q < 2 ^ 52 := (Nat.log2_lt hpos.ne').mp (by omega)
      rw [toNat_packComponents, BitVec.toNat_ofNat, BitVec.toNat_ofNat]
      omega

end Bits

end Constituency.Rounding

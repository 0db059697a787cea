import Constituency.Proofs.LogProbability
import Constituency.Proofs.Shares

/-!
# Floating-point shares

Counts of up to 53 bits are exact as floating-point numbers, and their quotients are rounded to
positive numbers that are one at most. Sums of the logarithms of as many shares stay far from
overflow. Floating-point numbers thus do for the counts of every treebank that fits in memory.
-/

namespace Constituency

open Float.Model Float.Model.UnpackedFloat
open Rounding

namespace Rounding

/-- The exponent of one. -/
def scale : Nat :=
  1074

/-- The code of one. -/
def one : Nat :=
  (scale - 52 + 1) * 2 ^ 52

theorem magnitude_one : magnitude one = 2 ^ scale :=
  calc magnitude one = 2 ^ (52 + (scale - 52)) := magnitude_two_pow _
    _ = 2 ^ scale := by rw [Nat.add_sub_cancel' (show 52 ≤ scale by decide)]

/-- The codes of counts have a wide margin to the codes of zero and of infinity. -/
theorem code_count_bounds {n : Nat} (hpos : 0 < n) (hn : n < 2 ^ 53) :
    one ≤ code (n * 2 ^ scale) ∧ code (n * 2 ^ scale) ≤ (scale + 2) * 2 ^ 52 :=
  code_mul_bounds hpos hn (by decide)

variable {u v : UnpackedFloat} {j k : Nat}

/-- A product with one is not rounded. -/
theorem HasCode.mul_one (hu : HasCode .positive u k) (hv : HasCode .positive v one)
    (hk : one ≤ k) : HasCode .positive (u.mul Format.binary64 v) k := by
  obtain ⟨q, s, hqpos, rfl, rfl, hq, hs⟩ := hu
  obtain ⟨r, t, hrpos, rfl, hone, hr, ht⟩ := hv
  have hdef : one = 1023 * 2 ^ 52 := rfl
  obtain ⟨rfl, rfl⟩ : r = 2 ^ 52 ∧ t = 1022 := by omega
  have hexponent : (s : Int) - 1074 + (((1022 : Nat) : Int) - 1074) =
      ((s - 52 : Nat) : Int) - 1074 := by omega
  have hvalue : q * 2 ^ 52 * 2 ^ (s - 52) = q * 2 ^ s := by
    rw [Nat.mul_assoc, ← Nat.pow_add, show 52 + (s - 52) = s by omega]
  have hround : HasCode .positive (roundWithAccuracy Format.binary64 .positive (q * 2 ^ 52)
      ((s - 52 : Nat) - 1074) .exact) (code (q * 2 ^ 52 * 2 ^ (s - 52))) :=
    hasCode_roundWithAccuracy (by positivity) (by rw [hvalue, excess_mul hq hs]; omega)
  rw [hvalue, ← magnitude_of_lt hq hs, code_magnitude] at hround
  simp only [UnpackedFloat.mul, hexponent]
  exact hround

/-- A quotient has 53 bits or 54. -/
theorem divCore_eq {q r s t : Nat} (hq : q < 2 ^ 53) (hqfull : 2 ^ 52 ≤ q) (hr : r < 2 ^ 53)
    (hrfull : 2 ^ 52 ≤ r) (hst : s ≤ t) (hts : t ≤ s + 1021) :
    divCore Format.binary64 q ((s : Int) - 1074) r (t - 1074) =
      (q * 2 ^ 53 / r, ((1021 - (t - s) : Nat) : Int) - 1074,
        accuracyOfFraction (q * 2 ^ 53 % r) r) := by
  have hqlog : q.log2 = 52 := (Nat.log2_eq_iff (by omega)).mpr ⟨hqfull, hq⟩
  have hrlog : r.log2 = 52 := (Nat.log2_eq_iff (by omega)).mpr ⟨hrfull, hr⟩
  have htarget : Format.binary64.targetExponent (totalExponent q ((s : Int) - 1074) -
      totalExponent r ((t : Int) - 1074)) = ((1021 - (t - s) : Nat) : Int) - 1074 := by
    simp only [Format.targetExponent, totalExponent, Format.mantissaBits, Format.minExponent,
      hqlog, hrlog]
    norm_num
    omega
  have hmin : min ((s : Int) - 1074 - (t - 1074)) (((1021 - (t - s) : Nat) : Int) - 1074) =
      ((1021 - (t - s) : Nat) : Int) - 1074 := by omega
  have hshift : ((s : Int) - 1074 - (t - 1074) - (((1021 - (t - s) : Nat) : Int) - 1074)).toNat =
      53 := by omega
  simp only [divCore, htarget, hmin, hshift, Nat.shiftLeft_eq]

/-- A quotient below one stays so when it is cut off. -/
theorem div_mul_two_pow_lt {q r s t : Nat} (hr : 0 < r) (hst : s ≤ t) (hts : t ≤ s + 1021)
    (h : q * 2 ^ s < r * 2 ^ t) : q * 2 ^ 53 / r * 2 ^ (1021 - (t - s)) < magnitude one := by
  have hpow : 2 ^ t = 2 ^ (t - s) * 2 ^ s := by rw [← Nat.pow_add, Nat.sub_add_cancel hst]
  rw [hpow, ← Nat.mul_assoc] at h
  have hquotient : q * 2 ^ 53 / r < 2 ^ (t - s) * 2 ^ 53 := by
    rw [Nat.div_lt_iff_lt_mul hr]
    calc q * 2 ^ 53 < r * 2 ^ (t - s) * 2 ^ 53 :=
          Nat.mul_lt_mul_of_pos_right (Nat.lt_of_mul_lt_mul_right h) (by decide)
      _ = 2 ^ (t - s) * 2 ^ 53 * r := by ring
  calc q * 2 ^ 53 / r * 2 ^ (1021 - (t - s))
      < 2 ^ (t - s) * 2 ^ 53 * 2 ^ (1021 - (t - s)) :=
        Nat.mul_lt_mul_of_pos_right hquotient (Nat.two_pow_pos _)
    _ = 2 ^ (t - s + 53 + (1021 - (t - s))) := by rw [Nat.pow_add, Nat.pow_add]
    _ = magnitude one := by
        rw [magnitude_one, show t - s + 53 + (1021 - (t - s)) = scale by unfold scale; omega]

theorem div_self_mul_two_pow {q : Nat} (hq : 0 < q) (s : Nat) :
    q * 2 ^ 53 / q * 2 ^ (1021 - (s - s)) = magnitude one := by
  rw [Nat.mul_div_cancel_left _ hq, ← Nat.pow_add, magnitude_one,
    show 53 + (1021 - (s - s)) = scale by unfold scale; omega]

/-- The quotient of a number and one that is no smaller is one at most. -/
theorem HasCode.exists_div {n : Nat} (hu : HasCode .positive u j) (hv : HasCode .positive v k)
    (hj : 2 ^ 52 ≤ j) (hjk : j ≤ k) (hkj : k ≤ j + n * 2 ^ 52) (hn : n ≤ 1021) :
    ∃ i ≤ one, (1021 - n) * 2 ^ 52 ≤ i ∧ HasCode .positive (u.div Format.binary64 v) i := by
  obtain ⟨q, s, hqpos, rfl, hjcode, hq, hs⟩ := hu
  obtain ⟨r, t, hrpos, rfl, hkcode, hr, ht⟩ := hv
  have hqfull : 2 ^ 52 ≤ q := by omega
  have hrfull : 2 ^ 52 ≤ r := by omega
  have hst : s ≤ t := by omega
  have htn : t ≤ s + n := by omega
  have hts : t ≤ s + 1021 := by omega
  have hlong : 2 ^ 52 ≤ q * 2 ^ 53 / r := by
    rw [Nat.le_div_iff_mul_le hrpos]
    exact Nat.mul_le_mul hqfull hr.le
  have hexcess : 1021 - (t - s) ≤ excess (q * 2 ^ 53 / r * 2 ^ (1021 - (t - s))) := by
    have hlog : 52 ≤ (q * 2 ^ 53 / r).log2 := (Nat.le_log2 (by omega)).mpr hlong
    rw [excess, log2_mul_two_pow (by omega)]
    omega
  simp only [UnpackedFloat.div, divCore_eq hq hqfull hr hrfull hst hts]
  -- A quotient below one may be rounded up to one. Only that of equal numbers is exact.
  rcases Nat.lt_or_eq_of_le hjk with hlt | heq
  · have hmagnitude := magnitude_strictMono hlt
    rw [hjcode, hkcode, magnitude_of_lt hq hs, magnitude_of_lt hr ht] at hmagnitude
    obtain ⟨i, hi, hlow, hhigh⟩ := exists_hasCode_roundWithAccuracy (by omega) hexcess
      (accuracyOfFraction (q * 2 ^ 53 % r) r)
    have hfloor := code_div_lt (div_mul_two_pow_lt hrpos hst hts hmagnitude)
    have hfull : 1021 - n ≤ excess (q * 2 ^ 53 / r * 2 ^ (1021 - (t - s))) :=
      le_trans (by omega) hexcess
    exact ⟨i, by omega, (Nat.mul_le_mul_right _ hfull).trans hlow, hi⟩
  · obtain ⟨rfl, rfl⟩ : q = r ∧ s = t := by omega
    have hround : HasCode .positive (roundWithAccuracy Format.binary64 .positive (q * 2 ^ 53 / q)
        ((1021 - (s - s) : Nat) - 1074) .exact) _ :=
      hasCode_roundWithAccuracy (by omega) hexcess
    rw [div_self_mul_two_pow hqpos, code_magnitude] at hround
    rw [Nat.mul_mod_right]
    have hfull : 1021 - n ≤ scale - 52 + 1 := (Nat.sub_le _ _).trans (by decide)
    exact ⟨one, le_refl _, Nat.mul_le_mul_right _ hfull, hround⟩

end Rounding

section IsPositive

/-- The number is positive and finite, and its bits are the code. -/
def IsPositive (x : Float) (k : Nat) : Prop :=
  0 < k ∧ k < top ∧ x.toBits.toNat = k

variable {x y : Float} {j k : Nat}

theorem isPositive_pack {u : UnpackedFloat} (hu : HasCode .positive u k) (hk : k < top) :
    IsPositive (.ofModel (.pack u)) k := by
  have hpos : 0 < k := by
    obtain ⟨q, s, hq, -, rfl, -⟩ := hu
    omega
  refine ⟨hpos, hk, hu.toNat_pack.trans ?_⟩
  rw [signBit, Nat.zero_add, Nat.min_eq_left hk.le]

theorem IsPositive.hasCode (hx : IsPositive x k) : HasCode .positive x.toModel.unpack k :=
  hasCode_unpack (hx.2.2.trans (Nat.zero_add k).symm) hx.1 hx.2.1

theorem IsPositive.inj (hx : IsPositive x k) (hy : IsPositive y k) : x = y :=
  eq_of_toNat_toBits (hx.2.2.trans hy.2.2.symm)

theorem IsPositive.le_iff (hx : IsPositive x j) (hy : IsPositive y k) : x ≤ y ↔ j ≤ k :=
  le_iff_unpack.trans (hx.hasCode.le_iff_of_positive hy.hasCode)

theorem IsPositive.compare_zero (hx : IsPositive x k) :
    x.toModel.unpack.compare (.zero .positive) = some .gt ∧
      UnpackedFloat.compare (.zero .positive) x.toModel.unpack = some .lt := by
  obtain ⟨q, s, hq, hu, -⟩ := hx.hasCode
  rw [hu]
  exact ⟨rfl, rfl⟩

theorem IsPositive.zero_lt (hx : IsPositive x k) : 0 < x :=
  lt_iff_unpack.mpr (beq_iff_eq.mpr hx.compare_zero.2)

theorem IsPositive.zero_le (hx : IsPositive x k) : 0 ≤ x := by
  have hle : UnpackedFloat.le (.zero .positive) x.toModel.unpack = true := by
    rw [UnpackedFloat.le, hx.compare_zero.2]
    rfl
  exact le_iff_unpack.mpr hle

theorem IsPositive.not_le_zero (hx : IsPositive x k) : ¬x ≤ 0 := fun h => by
  have hle : x.toModel.unpack.le (.zero .positive) = true := le_iff_unpack.mp h
  simp [UnpackedFloat.le, hx.compare_zero.1] at hle

theorem isPositive_one : IsPositive 1 one :=
  ⟨by decide, by decide, by decide +kernel⟩

theorem hasCode_ofNat {n : Nat} (hpos : 0 < n) :
    HasCode .positive (UnpackedFloat.ofNat Format.binary64 n) (code (n * 2 ^ scale)) := by
  have hcompare : compare (n : Int) 0 = .gt := compare_gt_iff_gt.mpr (by omega)
  simp only [UnpackedFloat.ofNat, UnpackedFloat.ofInt, UnpackedFloat.normalize, hcompare]
  exact hasCode_round hpos.ne' scale

/-- The number of a count is scaled by a power of ten, which is one. -/
theorem ofNat_eq_mul {n : Nat} (hn : n < 2 ^ 53) :
    Float.ofNat n = n.toUInt64.toFloat * Float.ofBits 0x3FF0000000000000 := by
  have hfast : n < 2 ^ 53 ∧ 0 ≤ 22 := ⟨hn, by decide⟩
  change (if h : n < 2 ^ 53 ∧ 0 ≤ 22 then _ else _) = _
  rw [dif_pos hfast]
  rfl

theorem isPositive_ofNat {n : Nat} (hpos : 0 < n) (hn : n < 2 ^ 53) :
    IsPositive (Float.ofNat n) (code (n * 2 ^ scale)) := by
  have htop : (scale + 2) * 2 ^ 52 < top := by decide
  obtain ⟨hlow, hhigh⟩ := code_count_bounds hpos hn
  have hlt := hhigh.trans_lt htop
  have hsize : n.toUInt64.toNat = n := UInt64.toNat_ofNat_of_lt (hn.trans (by decide))
  have hcode : HasCode .positive (UnpackedFloat.ofUInt64 Format.binary64 n.toUInt64)
      (code (n * 2 ^ scale)) := by
    rw [UnpackedFloat.ofUInt64, hsize]
    exact hasCode_ofNat hpos
  have hcount : IsPositive n.toUInt64.toFloat (code (n * 2 ^ scale)) := isPositive_pack hcode hlt
  have hfactor : IsPositive (Float.ofBits 0x3FF0000000000000) one :=
    ⟨by decide, by decide, by decide +kernel⟩
  rw [ofNat_eq_mul hn]
  exact isPositive_pack (hcount.hasCode.mul_one hfactor.hasCode hlow) hlt

/-- The quotient of two counts. -/
theorem exists_isPositive_ofRatio {part whole : Nat} (hpos : 0 < part) (hle : part ≤ whole)
    (hwhole : whole < 2 ^ 53) : ∃ k ≤ one, IsPositive (Float.ofNat part / Float.ofNat whole) k ∧
      968 * 2 ^ 52 ≤ k := by
  have hone : 2 ^ 52 ≤ one ∧ (scale + 2) * 2 ^ 52 ≤ one + 53 * 2 ^ 52 ∧ one < top := by decide
  have hpart := isPositive_ofNat hpos (hle.trans_lt hwhole)
  have hwhole' := isPositive_ofNat (hpos.trans_le hle) hwhole
  obtain ⟨hlow, -⟩ := code_count_bounds hpos (hle.trans_lt hwhole)
  obtain ⟨-, hhigh⟩ := code_count_bounds (hpos.trans_le hle) hwhole
  have hcodes := code_mono (Nat.mul_le_mul_right (2 ^ scale) hle)
  obtain ⟨k, hk, hfloor, hcode⟩ := hpart.hasCode.exists_div hwhole'.hasCode (hone.1.trans hlow)
    hcodes (hhigh.trans (hone.2.1.trans (Nat.add_le_add_right hlow _))) (by decide)
  exact ⟨k, hk, isPositive_pack hcode (hk.trans_lt hone.2.2), hfloor⟩

/-- A positive number up to one is a probability, and it is not zero. -/
theorem IsPositive.isValid (hx : IsPositive x k) (hk : k ≤ one) : Probability.isValid x = true :=
  Bool.and_eq_true_iff.mpr
    ⟨decide_eq_true hx.zero_le, decide_eq_true ((hx.le_iff isPositive_one).mpr hk)⟩

theorem IsPositive.isZero (hx : IsPositive x k) : Probability.isZero x = false :=
  Bool.and_eq_false_iff.mpr (.inl (decide_eq_false hx.not_le_zero))

theorem IsPositive.clamp_eq (hx : IsPositive x k) (hk : k ≤ one) : Probability.clamp x = x := by
  refine (if_neg hx.not_le_zero).trans ?_
  split
  · rename_i hge
    obtain rfl : one = k := le_antisymm ((isPositive_one.le_iff hx).mp hge) hk
    exact isPositive_one.inj hx
  · rfl

end IsPositive

section IsBounded

/-- The exponent of 1024. -/
def depth : Nat :=
  scale + 10

/-- The score is no smaller than `n` times -1024. -/
def IsBounded (a : LogProbability) (n : Nat) : Prop :=
  ∃ k ≤ code (n * 2 ^ depth), Reads a.value k

variable {a b : LogProbability} {m n : Nat}

/-- The bound is representable, so that no sum is rounded beyond it. -/
theorem IsBounded.add (ha : IsBounded a m) (hb : IsBounded b n) (hn : m + n < 2 ^ 53) :
    IsBounded (a + b) (m + n) := by
  obtain ⟨j, hj, ha⟩ := ha
  obtain ⟨k, hk, hb⟩ := hb
  have hmagnitudes : magnitude j + magnitude k ≤ (m + n) * 2 ^ depth := by
    have hjm := magnitude_mono hj
    have hkm := magnitude_mono hk
    rw [magnitude_code_mul (by omega)] at hjm hkm
    rw [Nat.add_mul]
    exact Nat.add_le_add hjm hkm
  exact ⟨_, (Nat.min_le_left _ _).trans (code_mono hmagnitudes), LogProbability.reads_add ha hb⟩

theorem IsBounded.possible (ha : IsBounded a n) (hn : n < 2 ^ 53) : Score.Possible a := by
  obtain ⟨k, hk, ha⟩ := ha
  have htop : (depth + 2) * 2 ^ 52 < top := by decide
  have hlt : k < top := by
    rcases Nat.eq_zero_or_pos n with rfl | hpos
    · rw [Nat.zero_mul] at hk
      exact hk.trans_lt (by decide)
    · exact hk.trans_lt ((code_mul_bounds hpos hn (by decide)).2.trans_lt htop)
  exact Bool.eq_false_iff.mpr fun h => hlt.ne (ha.isInf_iff.mp h)

theorem reads_least : Reads (-1024) (code (1 * 2 ^ depth)) := by
  have hcode : code (2 ^ (52 + (depth - 52))) = (depth - 52 + 1) * 2 ^ 52 := code_two_pow _
  rw [Nat.add_sub_cancel' (show 52 ≤ depth by decide)] at hcode
  rw [Nat.one_mul, hcode]
  exact ⟨by decide, by decide +kernel⟩

-- The kernel knows nothing of the logarithm. That of the smallest positive number is about -744.4.
variable (hlog : ∀ x : Float, 0 < x → x ≤ 1 → -1024 ≤ x.log)
include hlog

theorem isBounded_log {x : Float} (hpos : 0 < x) (hone : x ≤ 1) :
    IsBounded (Probability.log x) 1 := by
  change IsBounded (.ofFloat x.log) 1
  unfold LogProbability.ofFloat
  split
  · rename_i hneg
    obtain ⟨k, hk⟩ := exists_reads_of_neg hneg
    exact ⟨k, (reads_least.le_iff hk).mp (hlog x hpos hone), hk⟩
  · exact ⟨0, Nat.zero_le _, .zero⟩

variable {limit : Nat} (hlimit : limit < 2 ^ 53)
include hlimit

theorem ShareSum.isBounded (hsum : ShareSum Float limit n a) (hn : n < 2 ^ 53) :
    IsBounded a n := by
  induction hsum with
  | share hpos hle hwhole =>
    obtain ⟨k, hk, hx, -⟩ := exists_isPositive_ofRatio hpos hle (hwhole.trans_lt hlimit)
    exact isBounded_log hlog hx.zero_lt ((hx.le_iff isPositive_one).mpr hk)
  | add left right ihl ihr => exact (ihl (by omega)).add (ihr (by omega)) hn

/-- Floating-point numbers reckon with counts of up to 53 bits. -/
theorem reckons_float : Reckons Float limit where
  isValid_zero := by decide +kernel
  isValid_share hpos hle hwhole := by
    obtain ⟨k, hk, hx, -⟩ := exists_isPositive_ofRatio hpos hle (hwhole.trans_lt hlimit)
    exact hx.isValid hk
  isZero_share hpos hle hwhole := by
    obtain ⟨k, _, hx, -⟩ := exists_isPositive_ofRatio hpos hle (hwhole.trans_lt hlimit)
    exact hx.isZero
  clamp_share hpos hle hwhole := by
    obtain ⟨k, hk, hx, -⟩ := exists_isPositive_ofRatio hpos hle (hwhole.trans_lt hlimit)
    exact hx.clamp_eq hk
  possible_sum hsum hn :=
    (hsum.isBounded hlog hlimit (hn.trans_lt hlimit)).possible (hn.trans_lt hlimit)

end IsBounded

end Constituency

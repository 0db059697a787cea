import Mathlib.Data.Nat.Log
import Mathlib.Tactic.Linarith
import Mathlib.Tactic.Ring

/-!
# Rounding to 53 bits

Magnitudes are counted in units of the smallest positive floating-point number. The codes of those
that are representable are consecutive: a code is the bit pattern without its sign. A magnitude
that is not representable is rounded to the nearest one, with ties to even codes.
-/

namespace Constituency.Rounding

/-- The quotient by a power of two, rounded to the nearest number and in the middle to the even
one. -/
def nearest (m s : Nat) : Nat :=
  if 2 * (m % 2 ^ s) < 2 ^ s then m / 2 ^ s
  else if 2 * (m % 2 ^ s) = 2 ^ s then m / 2 ^ s + m / 2 ^ s % 2
  else m / 2 ^ s + 1

theorem div_le_nearest (m s : Nat) : m / 2 ^ s ≤ nearest m s := by
  unfold nearest
  split <;> [skip; split] <;> omega

theorem nearest_le (m s : Nat) : nearest m s ≤ m / 2 ^ s + 1 := by
  unfold nearest
  split <;> [skip; split] <;> omega

theorem nearest_mul (q s : Nat) : nearest (q * 2 ^ s) s = q := by
  have hpos : 0 < 2 ^ s := Nat.two_pow_pos s
  simp [nearest, hpos]

theorem nearest_mono {m n : Nat} (h : m ≤ n) (s : Nat) : nearest m s ≤ nearest n s := by
  have hq : m / 2 ^ s ≤ n / 2 ^ s := Nat.div_le_div_right h
  rcases Nat.lt_or_eq_of_le hq with hlt | heq
  · have hm := nearest_le m s
    have hn := div_le_nearest n s
    omega
  · have hr : m % 2 ^ s ≤ n % 2 ^ s := by
      have hm := Nat.div_add_mod m (2 ^ s)
      have hn := Nat.div_add_mod n (2 ^ s)
      rw [heq] at hm
      omega
    by_cases hlow : 2 * (m % 2 ^ s) < 2 ^ s
    · rw [nearest, if_pos hlow, heq]
      exact div_le_nearest n s
    · by_cases hmiddle : 2 * (m % 2 ^ s) = 2 ^ s
      · rw [nearest, if_neg hlow, if_pos hmiddle, heq, nearest, if_neg (by omega)]
        split <;> omega
      · rw [nearest, if_neg hlow, if_neg hmiddle, heq, nearest, if_neg (by omega),
          if_neg (by omega)]

/-- Zeros at the end do not matter. -/
theorem nearest_mul_two_pow {m s n : Nat} (h : s ≤ n) :
    nearest m (n - s) = nearest (m * 2 ^ s) n := by
  have hpos : 0 < 2 ^ s := Nat.two_pow_pos s
  have hpow : 2 ^ n = 2 ^ (n - s) * 2 ^ s := by rw [← Nat.pow_add, Nat.sub_add_cancel h]
  simp only [nearest, hpow, Nat.mul_mod_mul_right, Nat.mul_div_mul_right _ _ hpos,
    ← Nat.mul_assoc, Nat.mul_lt_mul_right hpos, Nat.mul_left_inj hpos.ne']

/-- How many of the last bits of a magnitude are not represented. -/
def excess (m : Nat) : Nat :=
  m.log2 - 52

/-- The code of the representable magnitude nearest to `m`. -/
def code (m : Nat) : Nat :=
  excess m * 2 ^ 52 + nearest m (excess m)

/-- The magnitude with this code. -/
def magnitude (code : Nat) : Nat :=
  (code - (code / 2 ^ 52 - 1) * 2 ^ 52) * 2 ^ (code / 2 ^ 52 - 1)

theorem div_excess_lt (m : Nat) : m / 2 ^ excess m < 2 ^ 53 := by
  rw [Nat.div_lt_iff_lt_mul (Nat.two_pow_pos _), ← Nat.pow_add]
  exact Nat.lt_of_lt_of_le Nat.lt_log2_self
    (Nat.pow_le_pow_right (by decide) (by unfold excess; omega))

theorem le_div_excess {m : Nat} (h : 0 < excess m) : 2 ^ 52 ≤ m / 2 ^ excess m := by
  have hm : m ≠ 0 := by
    intro heq
    simp [excess, heq] at h
  rw [Nat.le_div_iff_mul_le (Nat.two_pow_pos _), ← Nat.pow_add,
    show 52 + excess m = m.log2 by unfold excess at h ⊢; omega]
  exact Nat.log2_self_le hm

theorem log2_mono {m n : Nat} (h : m ≤ n) : m.log2 ≤ n.log2 := by
  by_cases hm : m = 0
  · simp [hm]
  · exact (Nat.le_log2 (by omega)).mpr ((Nat.log2_self_le hm).trans h)

theorem code_mono {m n : Nat} (h : m ≤ n) : code m ≤ code n := by
  have hle : excess m ≤ excess n := Nat.sub_le_sub_right (log2_mono h) 52
  unfold code
  rcases Nat.lt_or_eq_of_le hle with hlt | heq
  · have hm := (nearest_le m (excess m)).trans (div_excess_lt m)
    have hn := (le_div_excess (Nat.zero_lt_of_lt hlt)).trans (div_le_nearest n (excess n))
    have hstep : (excess m + 1) * 2 ^ 52 ≤ excess n * 2 ^ 52 := Nat.mul_le_mul_right _ hlt
    omega
  · rw [heq]
    have := nearest_mono h (excess n)
    omega

theorem log2_mul_two_pow {m : Nat} (hm : m ≠ 0) (s : Nat) : (m * 2 ^ s).log2 = m.log2 + s := by
  refine (Nat.log2_eq_iff (by positivity)).mpr ⟨?_, ?_⟩
  · rw [Nat.pow_add]
    exact Nat.mul_le_mul_right _ (Nat.log2_self_le hm)
  · rw [Nat.add_right_comm, Nat.pow_add]
    exact Nat.mul_lt_mul_of_pos_right Nat.lt_log2_self (Nat.two_pow_pos s)

/-- Of a magnitude with at most 53 significant bits, that many are kept. -/
theorem excess_mul {q s : Nat} (hq : q < 2 ^ 53) (hs : 0 < s → 2 ^ 52 ≤ q) :
    excess (q * 2 ^ s) = s := by
  by_cases h0 : q = 0
  · subst h0
    cases s with
    | zero => rfl
    | succ s => exact absurd (hs (Nat.succ_pos s)) (by decide)
  · have hlog := log2_mul_two_pow h0 s
    have hupper : q.log2 < 53 := (Nat.log2_lt h0).mpr hq
    have hlower : 0 < s → 52 ≤ q.log2 := fun h => (Nat.le_log2 h0).mpr (hs h)
    unfold excess
    omega

theorem exists_magnitude (k : Nat) : ∃ q s, k = s * 2 ^ 52 + q ∧ magnitude k = q * 2 ^ s ∧
    q < 2 ^ 53 ∧ (0 < s → 2 ^ 52 ≤ q) :=
  ⟨k - (k / 2 ^ 52 - 1) * 2 ^ 52, k / 2 ^ 52 - 1, by omega, rfl, by omega, by omega⟩

theorem magnitude_of_lt {q s : Nat} (hq : q < 2 ^ 53) (hs : 0 < s → 2 ^ 52 ≤ q) :
    magnitude (s * 2 ^ 52 + q) = q * 2 ^ s := by
  have hdiv : (s * 2 ^ 52 + q) / 2 ^ 52 - 1 = s := by omega
  rw [magnitude, hdiv, Nat.add_sub_cancel_left]

/-- What is representable is not rounded. -/
theorem code_magnitude (k : Nat) : code (magnitude k) = k := by
  obtain ⟨q, s, hk, hm, hq, hs⟩ := exists_magnitude k
  rw [hm, code, excess_mul hq hs, nearest_mul, hk]

theorem magnitude_mono {j k : Nat} (h : j ≤ k) : magnitude j ≤ magnitude k := by
  obtain ⟨q, s, hj, hm, hq, hs⟩ := exists_magnitude j
  obtain ⟨q', s', hk, hm', hq', hs'⟩ := exists_magnitude k
  rw [hm, hm']
  rcases Nat.lt_trichotomy s s' with hlt | rfl | hgt
  · calc q * 2 ^ s ≤ 2 ^ 53 * 2 ^ s := Nat.mul_le_mul_right _ hq.le
      _ = 2 ^ 52 * 2 ^ (s + 1) := by ring
      _ ≤ q' * 2 ^ s' := Nat.mul_le_mul (hs' (Nat.zero_lt_of_lt hlt))
        (Nat.pow_le_pow_right (by decide) hlt)
  · exact Nat.mul_le_mul_right _ (by omega)
  · have := hs (Nat.zero_lt_of_lt hgt)
    omega

theorem magnitude_strictMono {j k : Nat} (h : j < k) : magnitude j < magnitude k := by
  refine lt_of_le_of_ne (magnitude_mono h.le) fun heq => h.ne ?_
  rw [← code_magnitude j, heq, code_magnitude]

theorem magnitude_zero : magnitude 0 = 0 := rfl

/-- Multiples of a power of two up to 53 bits are representable. -/
theorem magnitude_code_mul {q : Nat} (hq : q < 2 ^ 53) (s : Nat) :
    magnitude (code (q * 2 ^ s)) = q * 2 ^ s := by
  by_cases h0 : q = 0
  · subst h0
    rw [Nat.zero_mul]
    rfl
  · have hexcess : excess (q * 2 ^ s) ≤ s := by
      have hupper : q.log2 < 53 := (Nat.log2_lt h0).mpr hq
      rw [excess, log2_mul_two_pow h0]
      omega
    have hpow : q * 2 ^ (s - excess (q * 2 ^ s)) * 2 ^ excess (q * 2 ^ s) = q * 2 ^ s := by
      rw [Nat.mul_assoc, ← Nat.pow_add, Nat.sub_add_cancel hexcess]
    have hdiv : q * 2 ^ (s - excess (q * 2 ^ s)) = q * 2 ^ s / 2 ^ excess (q * 2 ^ s) :=
      (Nat.div_eq_of_eq_mul_left (Nat.two_pow_pos _) hpow.symm).symm
    have hnearest : nearest (q * 2 ^ s) (excess (q * 2 ^ s)) =
        q * 2 ^ (s - excess (q * 2 ^ s)) := by
      have h := nearest_mul (q * 2 ^ (s - excess (q * 2 ^ s))) (excess (q * 2 ^ s))
      rwa [hpow] at h
    rw [code, hnearest, magnitude_of_lt (by rw [hdiv]; exact div_excess_lt _)
      (by rw [hdiv]; exact le_div_excess), hpow]

/-- Cut off to 53 bits, a magnitude is below every code with a greater one. -/
theorem code_div_lt {m k : Nat} (h : m < magnitude k) :
    excess m * 2 ^ 52 + m / 2 ^ excess m < k := by
  by_contra hk
  have hle := magnitude_mono (Nat.le_of_not_lt hk)
  rw [magnitude_of_lt (div_excess_lt m) le_div_excess] at hle
  have hdiv := Nat.div_mul_le_self m (2 ^ excess m)
  omega

theorem code_two_pow (s : Nat) : code (2 ^ (52 + s)) = (s + 1) * 2 ^ 52 := by
  rw [Nat.pow_add, code, excess_mul (by decide) fun _ => le_refl _, nearest_mul, Nat.add_mul,
    Nat.one_mul]

theorem magnitude_two_pow (s : Nat) : magnitude ((s + 1) * 2 ^ 52) = 2 ^ (52 + s) := by
  rw [Nat.add_mul, Nat.one_mul, magnitude_of_lt (by decide) fun _ => le_refl _, Nat.pow_add]

theorem code_mul_bounds {q s : Nat} (hpos : 0 < q) (hq : q < 2 ^ 53) (hs : 52 ≤ s) :
    (s - 52 + 1) * 2 ^ 52 ≤ code (q * 2 ^ s) ∧ code (q * 2 ^ s) ≤ (s + 2) * 2 ^ 52 := by
  constructor
  · calc (s - 52 + 1) * 2 ^ 52 = code (2 ^ (52 + (s - 52))) := (code_two_pow _).symm
      _ = code (1 * 2 ^ s) := by rw [Nat.add_sub_cancel' hs, Nat.one_mul]
      _ ≤ code (q * 2 ^ s) := code_mono (Nat.mul_le_mul_right _ hpos)
  · calc code (q * 2 ^ s) ≤ code (2 ^ 53 * 2 ^ s) := code_mono (Nat.mul_le_mul_right _ hq.le)
      _ = code (2 ^ (52 + (s + 1))) := by rw [← Nat.pow_add, show 53 + s = 52 + (s + 1) by omega]
      _ = (s + 2) * 2 ^ 52 := code_two_pow (s + 1)

end Constituency.Rounding

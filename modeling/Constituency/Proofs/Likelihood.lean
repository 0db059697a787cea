import Mathlib.Algebra.Order.Ring.Rat
import Constituency.Proofs.Score

/-!
# Exact scores

Rational probabilities are their own scores: sums of logarithms are products. With them a parser
computes without rounding.
-/

namespace Constituency

/-- A rational number from zero to one. -/
structure Likelihood where
  value : ℚ
  nonneg : 0 ≤ value
  le_one : value ≤ 1
deriving DecidableEq

namespace Likelihood

instance : Score Likelihood where
  add a b := ⟨a.value * b.value, mul_nonneg a.nonneg b.nonneg,
    mul_le_one₀ a.le_one b.nonneg b.le_one⟩
  le a b := a.value ≤ b.value
  decidableLE a b := inferInstanceAs (Decidable (a.value ≤ b.value))
  isImpossible a := decide (a.value = 0)

theorem le_iff {a b : Likelihood} : a ≤ b ↔ a.value ≤ b.value := Iff.rfl

@[simp] theorem value_add (a b : Likelihood) : (a + b).value = a.value * b.value := rfl

@[simp] theorem isImpossible_iff {a : Likelihood} :
    Score.isImpossible a = true ↔ a.value = 0 := decide_eq_true_iff

/-- The nearest likelihood. -/
def ofRat (p : ℚ) : Likelihood :=
  ⟨max 0 (min p 1), le_max_left _ _, max_le (by decide) (min_le_right _ _)⟩

instance : LawfulScore Likelihood where
  le_refl a := le_refl a.value
  le_trans _ _ _ h h' := le_trans (α := ℚ) h h'
  le_antisymm a b h h' := by
    cases a
    cases b
    simpa using le_antisymm (α := ℚ) h h'
  le_total a b := le_total a.value b.value
  add_le_add {a b c d} h h' := mul_le_mul h h' c.nonneg b.nonneg
  add_le_left a b := mul_le_of_le_one_right a.nonneg b.le_one
  add_le_right a b := mul_le_of_le_one_left b.nonneg a.le_one
  le_of_isImpossible b h := le_iff.mpr ((isImpossible_iff.mp h).trans_le b.nonneg)

theorem possible_ofRat {p : ℚ} (h : 0 < p) : Score.Possible (ofRat p) := by
  have hmin : 0 < min p 1 := lt_min h one_pos
  simpa [Score.Possible, Score.isImpossible, ofRat] using hmin.not_ge

/-- No product of possible likelihoods is impossible. -/
theorem possible_add {a b : Likelihood} (ha : Score.Possible a) (hb : Score.Possible b) :
    Score.Possible (a + b) := by
  simp_all [Score.Possible, Score.isImpossible]

end Likelihood

instance : Probability ℚ Likelihood where
  decidableLE p q := inferInstanceAs (Decidable (p ≤ q))
  zero := 0
  one := 1
  ofRatio a b := a / b
  log := .ofRat

section Rational

variable {p : ℚ}

theorem isValid_rat (hlow : 0 < p) (hhigh : p ≤ 1) : Probability.isValid p = true :=
  Bool.and_eq_true_iff.mpr ⟨decide_eq_true hlow.le, decide_eq_true hhigh⟩

theorem isZero_rat (h : 0 < p) : Probability.isZero p = false :=
  Bool.and_eq_false_iff.mpr (.inl (decide_eq_false h.not_ge))

theorem clamp_rat (h : 0 < p) : Probability.clamp p = min p 1 := by
  refine (if_neg h.not_ge).trans ?_
  split
  · exact (min_eq_right ‹_›).symm
  · exact (min_eq_left (le_of_not_ge ‹_›)).symm

end Rational

end Constituency

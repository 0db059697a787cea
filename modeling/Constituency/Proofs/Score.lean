import Mathlib.Data.Set.Basic
import Mathlib.Order.Bounds.Defs
import Constituency.Probability

/-!
# The order of scores

What a parser relies on when it compares and adds scores.
-/

namespace Constituency

/-- Scores are totally ordered. A sum grows with both of its parts and exceeds neither, and the
score of what never happens is below all others. -/
class LawfulScore (σ : Type) [Score σ] : Prop extends Std.IsLinearOrder σ where
  add_le_add {a b c d : σ} : a ≤ b → c ≤ d → a + c ≤ b + d
  add_le_left (a b : σ) : a + b ≤ a
  add_le_right (a b : σ) : a + b ≤ b
  le_of_isImpossible {a : σ} (b : σ) : Score.isImpossible a = true → a ≤ b

variable {σ : Type} [Score σ]

/-- Whether something with this score may happen. -/
def Score.Possible (a : σ) : Prop :=
  Score.isImpossible a = false

instance (a : σ) : Decidable (Score.Possible a) :=
  inferInstanceAs (Decidable (Score.isImpossible a = false))

namespace LawfulScore

variable [LawfulScore σ] {a b c : σ}

theorem le_of_not_le (h : ¬a ≤ b) : b ≤ a :=
  Std.le_of_not_ge h

theorem isImpossible_of_le (h : a ≤ b) (hb : Score.isImpossible b = true) :
    Score.isImpossible a = true := by
  rwa [Std.le_antisymm h (le_of_isImpossible a hb)]

/-- What is better than something possible is possible. -/
theorem possible_of_le (h : a ≤ b) (ha : Score.Possible a) : Score.Possible b := by
  cases hb : Score.isImpossible b with
  | false => exact hb
  | true => exact absurd (isImpossible_of_le h hb) (by simpa [Score.Possible] using ha)

/-- The parts of something possible are possible. -/
theorem possible_left_of_add (h : Score.Possible (a + b)) : Score.Possible a :=
  possible_of_le (add_le_left a b) h

theorem le_of_possible_imp_le (h : Score.Possible a → a ≤ b) : a ≤ b := by
  cases ha : Score.isImpossible a with
  | false => exact h ha
  | true => exact le_of_isImpossible b ha

end LawfulScore

end Constituency

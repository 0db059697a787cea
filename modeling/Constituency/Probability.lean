/-!
# Probabilities and scores

A grammar is estimated with probabilities, and a parser adds scores: the logarithms of
probabilities. Both are classes, so that the same parser runs on floating-point numbers and is
reasoned about with any ordered numbers whose sums never grow.
-/

namespace Constituency

/-- Scores of derivations. A sum is the score of two derivations together, and the greater of two
scores is the better one. -/
class Score (σ : Type) extends Add σ, LE σ where
  decidableLE (a b : σ) : Decidable (a ≤ b)
  /-- Whether the score is that of something that never happens. -/
  isImpossible : σ → Bool

instance Score.instDecidableLE {σ : Type} [Score σ] (a b : σ) : Decidable (a ≤ b) :=
  Score.decidableLE a b

/-- Probabilities, and values that turn out not to be probabilities. -/
class Probability (π : Type) (σ : outParam Type) extends Mul π, LE π where
  decidableLE (p q : π) : Decidable (p ≤ q)
  zero : π
  one : π
  /-- The quotient of two counts. -/
  ofRatio : Nat → Nat → π
  log : π → σ

instance Probability.instDecidableLE {π σ : Type} [Probability π σ] (p q : π) : Decidable (p ≤ q) :=
  Probability.decidableLE p q

structure InvalidProbability (π : Type) where
  value : π
deriving DecidableEq, Repr

namespace Probability

variable {π σ : Type} [Probability π σ]

def isZero (p : π) : Bool :=
  p ≤ zero && zero ≤ p

def isValid (p : π) : Bool :=
  zero ≤ p && p ≤ one

/-- The nearest probability. -/
def clamp (p : π) : π :=
  if p ≤ zero then zero
  else if one ≤ p then one
  else p

/-- The score of a probability. -/
def score (p : π) : Except (InvalidProbability π) σ :=
  if isValid p then .ok (log p) else .error ⟨p⟩

end Probability

end Constituency

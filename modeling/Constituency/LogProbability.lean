import Constituency.Decimal
import Constituency.Probability

/-!
# Floating-point probabilities

Probabilities are floating-point numbers, and scores are their natural logarithms.
-/

namespace Constituency

/-- The logarithm of a probability: a negative number, negative infinity or zero. The field
`nonpositive` leaves no room for a second zero or for a value that is not a number. -/
structure LogProbability where
  value : Float
  nonpositive : value < 0 ∨ value = 0
deriving DecidableEq

namespace LogProbability

/-- The logarithm with this value, which is cut off at zero. -/
def ofFloat (x : Float) : LogProbability :=
  if h : x < 0 then ⟨x, .inl h⟩ else ⟨0, .inr rfl⟩

instance : Score LogProbability where
  add a b := ofFloat (a.value + b.value)
  le a b := a.value ≤ b.value
  decidableLE a b := inferInstanceAs (Decidable (a.value ≤ b.value))
  isImpossible a := a.value.isInf

instance : ToString LogProbability where
  toString a := Decimal.text a.value

end LogProbability

instance : Probability Float LogProbability where
  mul p q := p * q
  le p q := p ≤ q
  decidableLE p q := inferInstanceAs (Decidable (p ≤ q))
  zero := 0
  one := 1
  ofRatio a b := Float.ofNat a / Float.ofNat b
  log p := .ofFloat p.log

def InvalidProbability.message (e : InvalidProbability Float) : String :=
  Decimal.text e.value ++ " is not a valid probability"

end Constituency

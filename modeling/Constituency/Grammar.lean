/-!
# Grammars

A grammar is what a parser asks of it: the rules with a given child, in the order in which they are
to be tried.
-/

namespace Constituency

structure UnaryRule (σ : Type) where
  parent : String
  child : String
  score : σ
deriving DecidableEq, Repr

structure BinaryRule (σ : Type) where
  parent : String
  left : String
  right : String
  score : σ
deriving DecidableEq, Repr

structure Grammar (σ : Type) where
  unaryByChild : String → List (UnaryRule σ)
  binaryByLeft : String → List (BinaryRule σ)
  binaryByRight : String → List (BinaryRule σ)

namespace UnaryRule

variable {σ : Type}

def labels (r : UnaryRule σ) : List String :=
  [r.parent, r.child]

instance [ToString σ] : ToString (UnaryRule σ) where
  toString r := r.parent ++ " -> " ++ r.child ++ " (" ++ toString r.score ++ ")"

end UnaryRule

namespace BinaryRule

variable {σ : Type}

def labels (r : BinaryRule σ) : List String :=
  [r.parent, r.left, r.right]

instance [ToString σ] : ToString (BinaryRule σ) where
  toString r := r.parent ++ " -> " ++ r.left ++ " " ++ r.right ++ " (" ++ toString r.score ++ ")"

end BinaryRule

end Constituency

import Constituency.Parser
import Constituency.RuleIndex

/-!
# Trained models

A model is estimated from a treebank: the trees are brought into the form that the orders ask for,
and rules and taggings are counted in them.
-/

namespace Constituency

structure Model (σ : Type) where
  rules : RuleIndex σ
  tagCounts : TagCounts
  config : Config

inductive TrainError (π : Type) where
  | emptyTreebank
  | invalidOrder (e : InvalidOrder)
  | invalidProbability (e : InvalidProbability π)
deriving DecidableEq, Repr

def TrainError.message : TrainError Float → String
  | .emptyTreebank => "Cannot train on an empty treebank"
  | .invalidOrder e => e.message
  | .invalidProbability e => e.message

namespace Model

variable {π σ : Type}

def train (π : Type) [Probability π σ] (config : Config) (treebank : List Tree) :
    Except (TrainError π) (Model σ) := do
  if treebank.isEmpty then throw .emptyTreebank
  let trees ← (treebank.mapM (Tree.markovize config.markovization)).mapError .invalidOrder
  let rules ← (RuleIndex.ofTrees π trees).mapError .invalidProbability
  return { rules, tagCounts := .ofTrees trees, config }

/-- Turns probabilities for unknown words on or off. -/
def withOpenClass (model : Model σ) (openClass : Bool) : Model σ :=
  { model with tagCounts := { model.tagCounts with openClass } }

def parser (π : Type) [Probability π σ] (model : Model σ) : Parser π σ where
  grammar := model.rules.toGrammar
  lexicon := model.tagCounts.toLexicon π
  config := model.config

end Model

end Constituency

import Constituency.Chart.Derivation
import Constituency.Chart.Fill
import Constituency.LogProbability
import Constituency.Markovization
import Constituency.Tree.Plain

/-!
# Parsers

A parser finds the best tree of a sentence under a grammar and a lexicon.
-/

namespace Constituency

structure Config where
  /-- The label of a whole sentence. -/
  root : String := "ROOT"
  /-- The orders of the trees that a grammar is estimated from. -/
  markovization : Markovization := {}
  /-- How many rounds of unary rules a span may take. -/
  maxRounds : Nat := 256
deriving DecidableEq, Repr

structure Parser (π σ : Type) where
  grammar : Grammar σ
  lexicon : Lexicon π
  config : Config := {}

/-- The plain tree of a sentence and the score of its derivation. -/
structure Parse (σ : Type) where
  tree : Tree
  score : σ

namespace Parser

variable {π σ : Type} [Score σ] [Probability π σ]

def fillChart (parser : Parser π σ) (sentence : List String) :
    Except (FillError π) (Chart σ) :=
  Chart.fill parser.grammar parser.lexicon parser.config.maxRounds sentence

/-- The constituent that a parse of the sentence is rooted in. -/
def root (parser : Parser π σ) (sentence : List String) : Constituent :=
  ⟨parser.config.root, ⟨0, sentence.length⟩⟩

/-- The best parse, if the sentence has any. -/
def parse? (parser : Parser π σ) (sentence : List String) :
    Except (FillError π) (Option (Parse σ)) := do
  let chart ← parser.fillChart sentence
  let root := parser.root sentence
  return (chart.score? root).map fun score => { tree := (chart.tree root).plain, score }

/-- The tree of the best parse. -/
def tree? (parser : Parser π σ) (sentence : List String) : Except (FillError π) (Option Tree) :=
  (parser.parse? sentence).map (Option.map Parse.tree)

end Parser

def FillError.message : FillError Float → String
  | .invalidProbability e => e.message
  | .divergence span rounds =>
    "Unary closure over " ++ toString span.start ++ ".." ++ toString span.stop ++
      " did not converge after " ++ toString rounds ++ " rounds"

end Constituency

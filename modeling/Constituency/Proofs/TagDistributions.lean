import Constituency.Proofs.Expansions
import Constituency.Proofs.TableOrder
import Constituency.Proofs.UnknownWords

/-!
# Distributions of words and tags

Known words are distributed under every tag as they are in the trees. An unknown word gets a
thousandth, which is distributed over the tags as the words that occur once are, or as all words if
none occurs once. Here the words, the tags and their counts are read off the nodes of the trees.
-/

namespace Constituency

variable {trees : List Tree} {tag word : String}

section Nodes

end Nodes

section Once

end Once

namespace TagCounts

section Taggings

variable (taggings : List Tagging) (openClass : Bool) (word tag : String)

end Taggings

section Unknown

variable {taggings : List Tagging}

end Unknown

section Trees

variable {openClass : Bool}

end Trees

-- A word that occurs once under each of two tags does not occur once.
example :
    let counts := ofTrees [.node "X" [.node "A" [.leaf "a"], .node "B" [.leaf "a"],
      .node "B" [.leaf "b"]]]
    (counts.score "c" "A" : ℚ) = 0 ∧ (counts.score "c" "B" : ℚ) = 1 / 1000 := by
  decide +kernel

end TagCounts

end Constituency

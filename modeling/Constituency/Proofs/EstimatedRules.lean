import Constituency.Proofs.Additions
import Constituency.Proofs.Expansions

/-!
# Estimated rules

Whatever the shape of the trees, their rules can be estimated. Each of the different local trees
with one child or two is a rule once, with its share of those with the same parent, and every lookup
lists its rules in ascending order.
-/

namespace Constituency

variable {π σ : Type} {trees : List Tree} {p q : Production}

/-- The nodes that rules are read off: neither words nor tags, and with one child or two. -/
def ruleNodes (trees : List Tree) : List Tree :=
  (trees.flatMap Tree.subtrees).filter fun u =>
    !u.isLeaf && !u.isPreterminal && u.children.length ≤ 2

/-- How many of the nodes have the production. -/
def Production.occurrences (trees : List Tree) (p : Production) : Nat :=
  (ruleNodes trees).countP fun u => u.production = p

section Order

variable {unary unary' : UnaryRule σ} {binary binary' : BinaryRule σ}

end Order

namespace RuleIndex

section Sorted

variable [Probability π σ] {rules : RuleIndex σ} {share : π} {addition : Addition π}

end Sorted

section Tabulates

variable [Probability π σ] [Score σ] {rules : RuleIndex σ}

end Tabulates

section Arithmetic

end Arithmetic

section Wide

end Wide

end RuleIndex

end Constituency

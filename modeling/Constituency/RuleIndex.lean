import Constituency.Grammar
import Constituency.Probability
import Constituency.Production
import Constituency.Tally

/-!
# Rule indexes

A grammar stored under the children of its rules. A binary rule stands under its left and under its
right child, and each lookup returns its rules in the order in which they were added.
-/

namespace Constituency

structure RuleIndex (σ : Type) where
  byChild : Std.TreeMap String (List (UnaryRule σ)) := ∅
  byLeft : Std.TreeMap String (List (BinaryRule σ)) := ∅
  byRight : Std.TreeMap String (List (BinaryRule σ)) := ∅
  unaryCount : Nat := 0
  binaryCount : Nat := 0

namespace RuleIndex

variable {π σ : Type}

/-- Adds a rule at the end of the rules under a child. -/
def addUnder {ρ : Type} (index : Std.TreeMap String (List ρ)) (child : String) (rule : ρ) :
    Std.TreeMap String (List ρ) :=
  index.insert child (index.getD child [] ++ [rule])

def pushUnary (rules : RuleIndex σ) (rule : UnaryRule σ) : RuleIndex σ :=
  { rules with
    byChild := addUnder rules.byChild rule.child rule
    unaryCount := rules.unaryCount + 1 }

def pushBinary (rules : RuleIndex σ) (rule : BinaryRule σ) : RuleIndex σ :=
  { rules with
    byLeft := addUnder rules.byLeft rule.left rule
    byRight := addUnder rules.byRight rule.right rule
    binaryCount := rules.binaryCount + 1 }

/-- Adds a rule with its probability. A rule that never applies is left out. -/
def addUnary [Probability π σ] (rules : RuleIndex σ) (parent child : String) (p : π) :
    Except (InvalidProbability π) (RuleIndex σ) :=
  if Probability.isZero p then .ok rules
  else (Probability.score p).map fun score => rules.pushUnary { parent, child, score }

@[inherit_doc addUnary]
def addBinary [Probability π σ] (rules : RuleIndex σ) (parent left right : String) (p : π) :
    Except (InvalidProbability π) (RuleIndex σ) :=
  if Probability.isZero p then .ok rules
  else (Probability.score p).map fun score => rules.pushBinary { parent, left, right, score }

/-- Adds a production as the rule that it is, if it has one or two children. -/
def addProduction [Probability π σ] (rules : RuleIndex σ) (production : Production) (p : π) :
    Except (InvalidProbability π) (RuleIndex σ) :=
  match production.children with
  | [child] => rules.addUnary production.parent child p
  | [left, right] => rules.addBinary production.parent left right p
  | _ => .ok rules

/-- The rules of the trees, each with its share among the rules with the same parent. Nodes with
more than two children have no rule and do not count. -/
def ofTrees (π : Type) [Probability π σ] (trees : List Tree) :
    Except (InvalidProbability π) (RuleIndex σ) :=
  let productions := (trees.flatMap Tree.productions).filter (·.children.length ≤ 2)
  let parents := tally (productions.map Production.parent)
  (tally productions).toList.foldlM
    (fun rules (production, count) =>
      rules.addProduction production
        (Probability.ofRatio count (parents.getD production.parent 0) : π))
    {}

def toGrammar (rules : RuleIndex σ) : Grammar σ where
  unaryByChild child := rules.byChild.getD child []
  binaryByLeft left := rules.byLeft.getD left []
  binaryByRight right := rules.byRight.getD right []

section Lemmas

variable {rules : RuleIndex σ} {unary : UnaryRule σ} {binary : BinaryRule σ} {a : String}

theorem getD_addUnder {ρ : Type} {index : Std.TreeMap String (List ρ)} {child : String} {rule : ρ} :
    (addUnder index child rule).getD a [] =
      index.getD a [] ++ if child = a then [rule] else [] := by
  by_cases h : child = a
  · subst h
    simp [addUnder]
  · simp [addUnder, Std.TreeMap.getD_insert, h]

theorem unaryByChild_pushUnary :
    (rules.pushUnary unary).toGrammar.unaryByChild a =
      rules.toGrammar.unaryByChild a ++ if unary.child = a then [unary] else [] :=
  getD_addUnder

theorem binaryByLeft_pushBinary :
    (rules.pushBinary binary).toGrammar.binaryByLeft a =
      rules.toGrammar.binaryByLeft a ++ if binary.left = a then [binary] else [] :=
  getD_addUnder

theorem binaryByRight_pushBinary :
    (rules.pushBinary binary).toGrammar.binaryByRight a =
      rules.toGrammar.binaryByRight a ++ if binary.right = a then [binary] else [] :=
  getD_addUnder

end Lemmas

/-- Whether the labels come first or, if they are the same, the score is not greater. -/
def inOrder [Score σ] (a b : List String × σ) : Bool :=
  match compare a.1 b.1 with
  | .lt => true
  | .eq => a.2 ≤ b.2
  | .gt => false

/-- All unary rules, by labels and then by score. -/
def unaryRules [Score σ] (rules : RuleIndex σ) : List (UnaryRule σ) :=
  rules.byChild.values.flatten.mergeSort fun r s => inOrder (r.labels, r.score) (s.labels, s.score)

/-- All binary rules, by labels and then by score. -/
def binaryRules [Score σ] (rules : RuleIndex σ) : List (BinaryRule σ) :=
  rules.byLeft.values.flatten.mergeSort fun r s => inOrder (r.labels, r.score) (s.labels, s.score)

/-- The texts of all rules in ascending order. -/
def texts [Score σ] [ToString σ] (rules : RuleIndex σ) : List String :=
  (rules.unaryRules.map toString ++ rules.binaryRules.map toString).mergeSort

end RuleIndex

end Constituency

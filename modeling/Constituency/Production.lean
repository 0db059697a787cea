import Constituency.Tree.Basic

/-!
# Productions and taggings

What a tree shows of the grammar behind it: which labels a label is expanded to, and which word a
tag stands over.
-/

namespace Constituency

/-- The label of a node and those of its children. -/
structure Production where
  parent : String
  children : List String
deriving DecidableEq, Repr

/-- A tag over a word. -/
structure Tagging where
  tag : String
  word : String
deriving DecidableEq, Repr

instance : Ord Production where
  compare := compareLex (compareOn Production.parent) (compareOn Production.children)

instance : Ord Tagging where
  compare := compareLex (compareOn Tagging.tag) (compareOn Tagging.word)

instance : Std.TransOrd Production :=
  inferInstanceAs (Std.TransCmp (compareLex _ _))

instance : Std.TransOrd Tagging :=
  inferInstanceAs (Std.TransCmp (compareLex _ _))

instance : Std.LawfulEqOrd Production where
  eq_of_compare {p q} h := by
    have h := compareLex_eq_eq.mp h
    cases p
    cases q
    simpa [compareOn] using h

instance : Std.LawfulEqOrd Tagging where
  eq_of_compare {p q} h := by
    have h := compareLex_eq_eq.mp h
    cases p
    cases q
    simpa [compareOn] using h

namespace Tree

def production (t : Tree) : Production :=
  ⟨t.label, t.children.map label⟩

/-- The productions of all nodes that are neither leaves nor preterminals. -/
def productions (t : Tree) : List Production :=
  (t.subtrees.filter fun u => !u.isLeaf && !u.isPreterminal).map production

/-- The taggings of all preterminals, from left to right. -/
def taggings (t : Tree) : List Tagging :=
  (t.subtrees.filter isPreterminal).flatMap fun u => u.children.map fun word =>
    ⟨u.label, word.label⟩

section Lemmas

variable {t : Tree} {p : Production} {tagging : Tagging}

theorem mem_productions : p ∈ t.productions ↔
    ∃ u ∈ t.subtrees, u.isLeaf = false ∧ u.isPreterminal = false ∧ u.production = p := by
  simp [productions, and_assoc]

theorem mem_taggings : tagging ∈ t.taggings ↔ ∃ u ∈ t.subtrees, u.isPreterminal = true ∧
    ∃ word ∈ u.children, (⟨u.label, word.label⟩ : Tagging) = tagging := by
  simp [taggings, and_assoc]

end Lemmas

end Tree

end Constituency

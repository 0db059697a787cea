import Constituency.Label
import Constituency.Tree.Basic

/-!
# Plain trees

`Tree.plain` takes the marks of a grammar off a tree: synthetic nodes give way to their children,
and labels are cut to their categories. It is defined on every tree, also on one that no grammar
has made.
-/

namespace Constituency.Tree

/-- A node, not a word, whose label starts as that of a synthetic node. -/
def isSynthetic (t : Tree) : Bool :=
  !t.isLeaf && Label.startsSynthetic t.label

/-- What a child contributes to its parent: a synthetic node its children, any other itself. -/
def spliced (t : Tree) : List Tree :=
  if t.isSynthetic then t.children else [t]

/-- The tree without synthetic nodes below its root. -/
def splice : Tree → Tree :=
  fold fun label children => node label (children.flatMap spliced)

/-- Every label but those of the words is cut to its category. -/
def mapCategory : Tree → Tree :=
  fold fun label children =>
    node (if children.isEmpty then label else Label.category label) children

def plain (t : Tree) : Tree :=
  t.splice.mapCategory

section Equations

variable {a : String} {ts : List Tree}

@[simp] theorem splice_node :
    (node a ts).splice = node a (ts.flatMap fun t => t.splice.spliced) := by
  simp [splice, List.flatMap_map]

@[simp] theorem mapCategory_leaf : (leaf a).mapCategory = leaf a := rfl

theorem mapCategory_node (h : ts ≠ []) :
    (node a ts).mapCategory = node (Label.category a) (ts.map mapCategory) := by
  simp [mapCategory, h]

theorem label_splice (t : Tree) : t.splice.label = t.label := by
  cases t
  simp

end Equations

end Constituency.Tree

import Constituency.Chart.Basic
import Constituency.Tree.Basic

/-!
# Derivations in a chart

The tree over a constituent follows the backpointers down to the words.
-/

namespace Constituency.Chart

variable {σ : Type}

/-- The tree down to the given depth, with leaves below. -/
def treeTo (chart : Chart σ) : Nat → Constituent → Tree
  | 0, c => .leaf c.label
  | depth + 1, c =>
    match chart.get? c with
    | none => .leaf c.label
    | some entry => .node c.label (entry.backpointer.children.map (chart.treeTo depth))

/-- The tree over a constituent; a constituent without an entry is a leaf. Backpointers that never
return to a constituent go down through at most as many entries as there are. -/
def tree (chart : Chart σ) (c : Constituent) : Tree :=
  chart.treeTo chart.size c

end Constituency.Chart

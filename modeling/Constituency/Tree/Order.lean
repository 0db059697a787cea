import Constituency.Tree.Basic
import Std.Data.TreeSet

/-!
# The order of trees

Trees are compared by label and then by their children from left to right, a proper beginning of a
list of children coming first. Labels are compared by code points.
-/

namespace Constituency.Tree

mutual

def order : Tree → Tree → Ordering
  | node a ts, node b us => (compare a b).then (orderAll ts us)

def orderAll : List Tree → List Tree → Ordering
  | [], [] => .eq
  | [], _ :: _ => .lt
  | _ :: _, [] => .gt
  | t :: ts, u :: us => (order t u).then (orderAll ts us)

end

instance : Ord Tree where
  compare := order

/-- The different trees of a list in ascending order. -/
def sortDistinct (trees : List Tree) : List Tree :=
  (Std.TreeSet.ofList trees compare).toList

end Constituency.Tree

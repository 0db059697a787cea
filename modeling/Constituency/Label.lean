/-!
# Labels

The label of a node may say more than its category. The labels of ancestors follow it, each after
`^`; function tags and indices follow after `-` or `=`. A node whose label starts with `@` was made
to split a wide node.
-/

namespace Constituency.Label

/-- The label with those of the nearest ancestors appended, nearest first. -/
def withAncestors (label : String) (ancestors : List String) : String :=
  "^".intercalate (label :: ancestors)

/-- The label of a synthetic node below `parent`: `history` holds the labels of the children that
were split off before, and the last `memory` of them are kept. -/
def synthetic (parent : String) (memory : Option Nat) (history : List String) : String :=
  let kept := match memory with
    | some h => history.drop (history.length - h)
    | none => history
  let gap := if kept.length < history.length then "..." else ""
  "@" ++ parent ++ "->" ++ gap ++ String.join (kept.map ("_" ++ ·))

/-- What stands before the first mark, or everything if the mark comes first. -/
def cutAt (isMark : Char → Bool) : List Char → List Char
  | [] => []
  | c :: cs => if isMark c then c :: cs else c :: cs.takeWhile (!isMark ·)

def isAncestorMark (c : Char) : Bool :=
  c == '^'

def isFunctionMark (c : Char) : Bool :=
  c == '-' || c == '='

/-- The label without ancestors, function tags and indices. A mark at the start belongs to the
category, as in `-LRB-`. -/
def category (label : String) : String :=
  String.ofList (cutAt isFunctionMark (cutAt isAncestorMark label.toList))

example : category "PP-LOC^VP^S" = "PP" := by decide +kernel

example : category "-LRB-" = "-LRB-" := by decide +kernel

def startsSynthetic (label : String) : Bool :=
  label.toList.head? == some '@'

end Constituency.Label

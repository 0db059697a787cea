import Constituency.Label
import Constituency.Tree.Basic

/-!
# Markovization

`Tree.markovize` turns a tree into one with at most two children per node. On the vertical axis the
label of a node takes up the labels of its nearest ancestors; on the horizontal axis a node with
more than two children becomes a right-branching chain of synthetic nodes, whose labels remember
the siblings to the left.
-/

namespace Constituency

/-- How much of its surroundings a label tells. A vertical order of one is the label itself, of two
the label and its parent's, and so on; the horizontal order bounds the siblings remembered, and
`none` keeps them all. -/
structure Markovization where
  vertical : Nat := 1
  horizontal : Option Nat := none
deriving DecidableEq, Repr

/-- A vertical order of zero would leave a node without its own label. -/
structure InvalidOrder where
  vertical : Nat
deriving DecidableEq, Repr

def InvalidOrder.message (e : InvalidOrder) : String :=
  "A vertical Markov order of " ++ toString e.vertical ++ " is invalid, it must be at least 1"

namespace Markovization

def validate (m : Markovization) : Except InvalidOrder Unit :=
  if m.vertical = 0 then .error ⟨m.vertical⟩ else .ok ()

/-- A pair of orders that has been validated. -/
def ofOrders (vertical : Nat) (horizontal : Option Nat) : Except InvalidOrder Markovization := do
  let m : Markovization := { vertical, horizontal }
  m.validate
  return m

end Markovization

namespace Tree

/-- The children of a node called `parent`, at most two: of a longer list the first child, and a
synthetic node over the rest. Each child comes with the label that the history remembers. -/
def chain (parent : String) (memory : Option Nat) :
    (history : List String) → List (String × Tree) → List Tree
  | history, (a, t) :: second :: third :: rest =>
    [t, node (Label.synthetic parent memory (history ++ [a]))
      (chain parent memory (history ++ [a]) (second :: third :: rest))]
  | _, children => children.map (·.2)

mutual

/-- The node below the given ancestors, which are as many as its label takes up. -/
def markedBelow (m : Markovization) (ancestors : List String) : Tree → Tree
  | node a ts =>
    if ts.isEmpty then node a []
    else
      let marked := Label.withAncestors a ancestors
      node marked (chain marked m.horizontal []
        (markedAll m ((a :: ancestors).take (m.vertical - 1)) ts))

/-- Each node below the given ancestors, beside its unmarked label. -/
def markedAll (m : Markovization) (ancestors : List String) : List Tree → List (String × Tree)
  | [] => []
  | t :: ts => (t.label, markedBelow m ancestors t) :: markedAll m ancestors ts

end

/-- The binary tree of a grammar with these orders. Words keep their labels. -/
def markovize (m : Markovization) (t : Tree) : Except InvalidOrder Tree := do
  m.validate
  return t.markedBelow m []

theorem markedAll_eq_map {m : Markovization} {ancestors : List String} {ts : List Tree} :
    markedAll m ancestors ts = ts.map fun t => (t.label, markedBelow m ancestors t) := by
  induction ts with
  | nil => rfl
  | cons t ts ih => simp [markedAll, ih]

@[simp] theorem markedBelow_leaf {m : Markovization} {ancestors : List String} {word : String} :
    (leaf word).markedBelow m ancestors = leaf word := rfl

theorem markedBelow_node {m : Markovization} {ancestors : List String} {a : String}
    {ts : List Tree} (h : ts ≠ []) :
    (node a ts).markedBelow m ancestors =
      node (Label.withAncestors a ancestors)
        (chain (Label.withAncestors a ancestors) m.horizontal []
          (ts.map fun t =>
            (t.label, t.markedBelow m ((a :: ancestors).take (m.vertical - 1))))) := by
  simp [markedBelow, markedAll_eq_map, h]

/-- No node of a chain has more than two children. -/
theorem length_chain_le {parent : String} {memory : Option Nat} {history : List String}
    {children : List (String × Tree)} : (chain parent memory history children).length ≤ 2 := by
  unfold chain
  split
  · simp
  · rename_i h
    match children with
    | [] | [_] | [_, _] => simp
    | c :: d :: e :: rest => exact absurd rfl (h c.1 c.2 d e rest)

end Tree

end Constituency

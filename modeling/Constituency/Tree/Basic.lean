/-!
# Phrase-structure trees

A tree is a label over a list of children. A node without children is a leaf, and a leaf is a word.
Most functions on trees are a `Tree.fold` or read the list `Tree.subtrees`.
-/

namespace Constituency

inductive Tree where
  | node (label : String) (children : List Tree)
deriving Inhabited

namespace Tree

def label : Tree → String
  | node label _ => label

def children : Tree → List Tree
  | node _ children => children

/-- A word, that is a node without children. -/
def leaf (word : String) : Tree :=
  node word []

def isLeaf (t : Tree) : Bool :=
  t.children.isEmpty

/-- Whether the node has a single child, which is a leaf: a tag over a word. -/
def isPreterminal (t : Tree) : Bool :=
  match t.children with
  | [child] => child.isLeaf
  | _ => false

/-- What holds of every node whose children it holds of, holds of every tree. -/
@[induction_eliminator]
theorem induction {motive : Tree → Prop}
    (node : ∀ label children, (∀ t ∈ children, motive t) → motive (node label children)) :
    ∀ t, motive t
  | .node label children => node label children fun t _ => induction node t

mutual

/-- The value of a tree bottom-up: `f` gets the label of a node and the values of its children. -/
def fold {α : Type} (f : String → List α → α) : Tree → α
  | node label children => f label (foldAll f children)

def foldAll {α : Type} (f : String → List α → α) : List Tree → List α
  | [] => []
  | t :: ts => fold f t :: foldAll f ts

end

mutual

/-- Every node with what lies below it, in pre-order. -/
def subtrees : Tree → List Tree
  | node label children => node label children :: subtreesOfAll children

def subtreesOfAll : List Tree → List Tree
  | [] => []
  | t :: ts => subtrees t ++ subtreesOfAll ts

end

/-- The words from left to right. -/
def words : Tree → List String :=
  fold fun label parts => if parts.isEmpty then [label] else parts.flatten

/-- The bracketed text of a tree: a leaf is its label, any other node its label and its children in
brackets, with one blank between neighbours. -/
def text : Tree → String :=
  fold fun label parts =>
    if parts.isEmpty then label else "(" ++ " ".intercalate (label :: parts) ++ ")"

instance : ToString Tree where
  toString := text

mutual

def decEq : (t u : Tree) → Decidable (t = u)
  | node a ts, node b us =>
    match decEqAll ts us with
    | isFalse h => isFalse fun e => by cases e; exact h rfl
    | isTrue h =>
      if e : a = b then isTrue (by rw [e, h]) else isFalse fun q => by cases q; exact e rfl

def decEqAll : (ts us : List Tree) → Decidable (ts = us)
  | [], [] => isTrue rfl
  | [], _ :: _ => isFalse nofun
  | _ :: _, [] => isFalse nofun
  | t :: ts, u :: us =>
    match decEq t u with
    | isFalse h => isFalse fun e => by cases e; exact h rfl
    | isTrue h =>
      match decEqAll ts us with
      | isFalse h' => isFalse fun e => by cases e; exact h' rfl
      | isTrue h' => isTrue (by rw [h, h'])

end

instance : DecidableEq Tree :=
  decEq

section Equations

variable {α : Type} {f : String → List α → α} {a : String} {t : Tree} {ts us : List Tree}

@[simp] theorem label_node : (node a ts).label = a := rfl

@[simp] theorem children_node : (node a ts).children = ts := rfl

@[simp] theorem isLeaf_node : (node a ts).isLeaf = ts.isEmpty := rfl

@[simp] theorem foldAll_eq_map : foldAll f ts = ts.map (fold f) := by
  induction ts with
  | nil => rfl
  | cons t ts ih => simp [foldAll, ih]

@[simp] theorem fold_node : fold f (node a ts) = f a (ts.map (fold f)) := by
  simp [fold]

@[simp] theorem subtreesOfAll_eq_flatMap : subtreesOfAll ts = ts.flatMap subtrees := by
  induction ts with
  | nil => rfl
  | cons t ts ih => simp [subtreesOfAll, ih]

@[simp] theorem subtrees_node : subtrees (node a ts) = node a ts :: ts.flatMap subtrees := by
  simp [subtrees]

theorem forall_mem_subtrees_node {p : Tree → Prop} :
    (∀ u ∈ (node a ts).subtrees, p u) ↔ p (node a ts) ∧ ∀ t ∈ ts, ∀ u ∈ t.subtrees, p u := by
  simp only [subtrees_node, List.forall_mem_cons, List.mem_flatMap, forall_exists_index, and_imp]
  exact and_congr_right fun _ => ⟨fun h t ht u hu => h u t ht hu, fun h u t ht hu => h t ht u hu⟩

theorem mem_subtrees_self (t : Tree) : t ∈ t.subtrees := by
  cases t
  simp

theorem mem_subtrees_of_below {u : Tree} (h : u ∈ t.children.flatMap subtrees) :
    u ∈ t.subtrees := by
  cases t
  exact List.mem_cons_of_mem _ (by simpa using h)

theorem mem_subtrees_trans {u v : Tree} (hu : u ∈ t.subtrees) (hv : v ∈ u.subtrees) :
    v ∈ t.subtrees := by
  induction t with
  | node a ts ih =>
    rw [subtrees_node, List.mem_cons, List.mem_flatMap] at hu
    rcases hu with rfl | ⟨t, ht, hu⟩
    · exact hv
    · exact mem_subtrees_of_below (List.mem_flatMap.mpr ⟨t, ht, ih t ht hu⟩)

theorem exists_eq_of_isLeaf (h : t.isLeaf = true) : ∃ word, t = node word [] := by
  obtain ⟨word, ts⟩ := t
  exact ⟨word, congrArg (node word) (List.isEmpty_iff.mp h)⟩

theorem words_leaf : (leaf a).words = [a] := rfl

theorem words_node (h : ts ≠ []) : (node a ts).words = ts.flatMap words := by
  simp [words, h, List.flatMap_def]

end Equations

end Tree

end Constituency

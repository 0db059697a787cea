import Mathlib.Algebra.BigOperators.Group.List.Basic
import Mathlib.Algebra.GroupWithZero.Nat
import Mathlib.Data.List.DropRight
import Mathlib.Data.List.Forall2
import Constituency.Proofs.ChainProductions

/-!
# Annotated trees

What the orders of a grammar make of a tree, node by node: labels take up the nearest ancestors, and
a wide node becomes a chain, whose nodes are numbered from the top. Every tree has exactly one such
annotated tree, and marking it builds that tree. So does a loop over the children that builds every
chain from its end.
-/

namespace Constituency

/-- The label of the synthetic node number `j` below `parent`. It remembers the last of the `j`
children before it, as many as the memory holds, and shows whether there are others. -/
def Label.link (parent : String) (memory : Option Nat) (labels : List String) (j : Nat) : String :=
  "@" ++ parent ++ "->" ++ (if memory.any (· < j) then "..." else "") ++
    String.join (((labels.take j).rtake (memory.elim j (min j))).map ("_" ++ ·))

theorem Label.synthetic_take {parent : String} {memory : Option Nat} {labels : List String}
    {j : Nat} (h : j ≤ labels.length) :
    Label.synthetic parent memory (labels.take j) = Label.link parent memory labels j := by
  have hlength : (labels.take j).length = j := List.length_take_of_le h
  cases memory with
  | none => simp [synthetic, link, List.rtake, hlength]
  | some n =>
    have hdrop : j - min j n = j - n := by omega
    have hgap : j - (j - n) < j ↔ n < j := by omega
    simp [synthetic, link, List.rtake, hlength, hdrop, hgap]

namespace Tree

variable {m : Markovization} {parent : String} {memory : Option Nat} {labels : List String}
  {above : List String} {t d : Tree} {ts kids : List Tree}

/-- The nodes of a chain below `parent`, numbered from one. On the left they have one child each,
and on the right the next node of the chain, or the last child. -/
def IsChain (parent : String) (memory : Option Nat) (labels : List String) (ts : List Tree)
    (links : Nat → Tree) : Prop :=
  ∀ j, 1 ≤ j → ∀ hj : j + 2 ≤ ts.length, links j = node (Label.link parent memory labels j)
    [ts[j], if j + 2 = ts.length then ts[j + 1] else links (j + 1)]

/-- The children of a node called `parent`: one or two are left alone, and of more the first is
followed by a chain over the others. -/
inductive Splits (parent : String) (memory : Option Nat) (labels : List String) (ts : List Tree) :
    List Tree → Prop where
  | few (h : ts.length ≤ 2) : Splits parent memory labels ts ts
  | chain (h : 3 ≤ ts.length) (links : Nat → Tree)
      (hlinks : IsChain parent memory labels ts links) :
      Splits parent memory labels ts [ts[0], links 1]

/-- The second tree is the first one annotated below the given ancestors, nearest first. -/
inductive Annotates (m : Markovization) : List String → Tree → Tree → Prop where
  | word (above : List String) (word : String) : Annotates m above (node word []) (node word [])
  | node {above : List String} {a : String} {ts marked kids : List Tree} (hne : ts ≠ [])
      (hlength : ts.length = marked.length)
      (hmarked : ∀ {t d}, (t, d) ∈ ts.zip marked → Annotates m (a :: above) t d)
      (hkids : Splits ("^".intercalate (a :: above.take (m.vertical - 1))) m.horizontal
        (ts.map label) marked kids) :
      Annotates m above (node a ts) (node ("^".intercalate (a :: above.take (m.vertical - 1))) kids)

section Links

variable {children : List (String × Tree)} {j : Nat}

/-- The synthetic node number `j` of a chain. -/
def link (parent : String) (memory : Option Nat) (children : List (String × Tree)) (j : Nat) :
    Tree :=
  node (Label.link parent memory (children.map Prod.fst) j)
    (chain parent memory ((children.map Prod.fst).take j) (children.drop j))

/-- What is left of a chain after `j` children. -/
theorem chain_drop (h : j + 2 ≤ children.length) :
    chain parent memory ((children.map Prod.fst).take j) (children.drop j) =
      [children[j].2, if j + 2 = children.length then children[j + 1].2
        else link parent memory children (j + 1)] := by
  have htail : children.drop (j + 1) = children[j + 1] :: children.drop (j + 2) :=
    List.drop_eq_getElem_cons (by omega)
  have hdrop : children.drop j = children[j] :: children.drop (j + 1) :=
    List.drop_eq_getElem_cons (by omega)
  split
  · rename_i hlast
    rw [hdrop, htail, hlast, List.drop_length]
    rfl
  · -- There is a third child, so that the next node remembers this one.
    have hthird : children.drop (j + 2) = children[j + 2] :: children.drop (j + 3) :=
      List.drop_eq_getElem_cons (by omega)
    have htake : (children.map Prod.fst).take j ++ [children[j].1] =
        (children.map Prod.fst).take (j + 1) := by
      rw [List.take_succ_eq_append_getElem (by rw [List.length_map]; omega), List.getElem_map]
    have hlabel : j + 1 ≤ (children.map Prod.fst).length := by
      rw [List.length_map]
      omega
    rw [hdrop, htail, hthird, chain, htake, ← hthird, ← htail, Label.synthetic_take hlabel]
    rfl

theorem isChain_link : IsChain parent memory (children.map Prod.fst) (children.map Prod.snd)
    (link parent memory children) := by
  intro j _ hj
  rw [link, chain_drop (by simpa using hj)]
  simp only [List.getElem_map, List.length_map]

/-- Two chains over the same children agree from the last node up. -/
theorem IsChain.eq_link {links : Nat → Tree}
    (h : IsChain parent memory (children.map Prod.fst) (children.map Prod.snd) links)
    {j : Nat} (hone : 1 ≤ j) (hj : j + 2 ≤ children.length) :
    links j = link parent memory children j := by
  rw [h j hone (by simpa using hj), isChain_link j hone (by simpa using hj)]
  split
  · rfl
  · rename_i hlast
    rw [List.length_map] at hlast
    rw [IsChain.eq_link h (j := j + 1) (by omega) (by omega)]
termination_by children.length - j

theorem chain_few (h : children.length ≤ 2) :
    chain parent memory [] children = children.map Prod.snd := by
  match children with
  | [] | [_] | [_, _] => rfl
  | _ :: _ :: _ :: _ => simp at h

theorem chain_many (h : 3 ≤ children.length) :
    chain parent memory [] children = [children[0].2, link parent memory children 1] := by
  have htop : chain parent memory [] children = [children[0].2, if 0 + 2 = children.length
      then children[0 + 1].2 else link parent memory children (0 + 1)] :=
    chain_drop (Nat.le_of_succ_le h)
  rwa [if_neg (by omega)] at htop

theorem splits_iff : Splits parent memory (children.map Prod.fst) (children.map Prod.snd) kids ↔
    kids = chain parent memory [] children := by
  constructor
  · intro h
    cases h with
    | few h => exact (chain_few (by simpa using h)).symm
    | chain h links hlinks =>
      have h : 3 ≤ children.length := by simpa using h
      rw [chain_many h, hlinks.eq_link (Nat.le_refl 1) h, List.getElem_map]
  · rintro rfl
    rcases Nat.lt_or_ge 2 children.length with h | h
    · have hlength : 3 ≤ (children.map Prod.snd).length := by rwa [List.length_map]
      have hsplits := Splits.chain hlength (link parent memory children) isChain_link
      rwa [List.getElem_map, ← chain_many h] at hsplits
    · rw [chain_few h]
      exact .few (by simpa using h)

end Links

section Marks

theorem map_fst_labeled (below : Tree → Tree) :
    (ts.map fun t => (t.label, below t)).map Prod.fst = ts.map label := by
  rw [List.map_map]
  rfl

theorem map_snd_labeled (below : Tree → Tree) :
    (ts.map fun t => (t.label, below t)).map Prod.snd = ts.map below := by
  rw [List.map_map]
  rfl

/-- Ancestors that no label takes up need not be remembered. -/
theorem take_cons_take {α : Type} (a : α) (l : List α) (n : Nat) :
    (a :: l.take n).take n = (a :: l).take n := by
  cases n with
  | zero => rfl
  | succ n => simp [List.take_take]

/-- Trees are annotated one by one. -/
theorem zip_annotates_iff {below : Tree → Tree} {marked : List Tree}
    (h : ∀ t ∈ ts, ∀ d, Annotates m above t d ↔ d = below t) :
    (ts.length = marked.length ∧ ∀ {t d}, (t, d) ∈ ts.zip marked → Annotates m above t d) ↔
      marked = ts.map below := by
  rw [← List.forall₂_iff_zip]
  constructor
  · intro hmarked
    induction hmarked with
    | nil => rfl
    | cons hd _ ih =>
      rw [List.map_cons, (h _ List.mem_cons_self _).mp hd,
        ih fun t ht => h t (List.mem_cons_of_mem _ ht)]
  · rintro rfl
    rw [List.forall₂_map_right_iff, List.forall₂_same]
    exact fun t ht => (h t ht _).mpr rfl

theorem annotates_node_iff {a : String} (hne : ts ≠ []) {below : Tree → Tree}
    (h : ∀ t ∈ ts, ∀ d, Annotates m (a :: above) t d ↔ d = below t) :
    Annotates m above (node a ts) d ↔
      d = node (Label.withAncestors a (above.take (m.vertical - 1)))
        (chain (Label.withAncestors a (above.take (m.vertical - 1))) m.horizontal []
          (ts.map fun t => (t.label, below t))) := by
  constructor
  · intro hd
    cases hd with
    | word => exact absurd rfl hne
    | node _ hlength hmarked hkids =>
      obtain rfl := (zip_annotates_iff h).mp ⟨hlength, hmarked⟩
      rw [← map_fst_labeled below, ← map_snd_labeled below, splits_iff] at hkids
      rw [hkids]
      rfl
  · rintro rfl
    obtain ⟨hlength, hmarked⟩ := (zip_annotates_iff h).mpr rfl
    refine .node hne hlength hmarked ?_
    rw [← map_fst_labeled below, ← map_snd_labeled below, splits_iff]
    rfl

/-- Every tree has exactly one annotated tree. -/
theorem annotates_iff : Annotates m above t d ↔
    d = t.markedBelow m (above.take (m.vertical - 1)) := by
  induction t generalizing above d with
  | node a ts ih =>
    by_cases hne : ts = []
    · subst hne
      constructor
      · intro h
        cases h with
        | word => rfl
        | node hne => exact absurd rfl hne
      · rintro rfl
        exact .word above a
    · rw [annotates_node_iff hne fun t ht d => ih t ht, markedBelow_node hne, take_cons_take]

end Marks

section FromEnd

/-- The synthetic node over a child and the chain to its right. The child comes with the number of
those between it and the first one. -/
def linkOver (parent : String) (memory : Option Nat) (labels : List String) (child : Tree × Nat)
    (tail : Tree) : Tree :=
  node (Label.synthetic parent memory (labels.take (child.2 + 1))) [child.1, tail]

/-- The synthetic node over the last two children. -/
def lastLink (parent : String) (memory : Option Nat) (labels : List String) (ts : List Tree) :
    Tree :=
  node (Label.synthetic parent memory (labels.take (ts.length - 2))) (ts.drop (ts.length - 2))

/-- The first of three or more children and a chain, built from its end, over the others. -/
def chainFromEnd (parent : String) (memory : Option Nat) (labels : List String) (ts : List Tree) :
    List Tree :=
  let front := ts.take (ts.length - 2)
  front.take 1 ++ [(front.drop 1).zipIdx.reverse.foldl
    (fun tail child => linkOver parent memory labels child tail)
    (lastLink parent memory labels ts)]

mutual

/-- The annotated tree, built by a loop over the children of every node. -/
def annotate (m : Markovization) (ancestors : List String) : Tree → Tree
  | node a ts =>
    if ts.isEmpty then node a []
    else
      let marked := Label.withAncestors a (ancestors.take (m.vertical - 1))
      let children := annotateAll m ((a :: ancestors).take (m.vertical - 1)) ts
      if children.length ≤ 2 then node marked children
      else node marked (chainFromEnd marked m.horizontal (ts.map label) children)

def annotateAll (m : Markovization) (ancestors : List String) : List Tree → List Tree
  | [] => []
  | t :: ts => annotate m ancestors t :: annotateAll m ancestors ts

end

theorem annotateAll_eq_map {ancestors : List String} :
    annotateAll m ancestors ts = ts.map (annotate m ancestors) := by
  induction ts with
  | nil => rfl
  | cons t ts ih => simp [annotateAll, ih]

/-- What the loop has built when it gets to the node number `j`. -/
theorem isChain_foldr (hlabels : labels.length = ts.length) :
    IsChain parent memory labels ts fun j =>
      (((ts.take (ts.length - 2)).drop j).zipIdx (j - 1)).foldr (linkOver parent memory labels)
        (lastLink parent memory labels ts) := by
  intro j hone hj
  have hlabel : Label.synthetic parent memory (labels.take j) =
      Label.link parent memory labels j := Label.synthetic_take (by omega)
  dsimp only
  split
  · rename_i hlast
    have hend : ts.length - 2 = j := by omega
    have hlastTwo : ts.drop j = [ts[j], ts[j + 1]] := by
      rw [List.drop_eq_getElem_cons (by omega), List.drop_eq_getElem_cons (by omega), hlast,
        List.drop_length]
    have hdone : (ts.take j).drop j = [] := List.drop_eq_nil_of_le (List.length_take_le j ts)
    rw [hend, hdone, List.zipIdx_nil, List.foldr_nil, lastLink, hend, hlabel, hlastTwo]
  · -- The number of a child beyond the first is that of the node over it, less one.
    have hfront : j < (ts.take (ts.length - 2)).length := by
      rw [List.length_take]
      omega
    rw [List.drop_eq_getElem_cons hfront, List.zipIdx_cons, List.foldr_cons, linkOver,
      List.getElem_take, Nat.sub_add_cancel hone, hlabel, Nat.add_sub_cancel]

theorem chainFromEnd_eq {children : List (String × Tree)} (h : 3 ≤ children.length) :
    chainFromEnd parent memory (children.map Prod.fst) (children.map Prod.snd) =
      chain parent memory [] children := by
  have hlength : 3 ≤ (children.map Prod.snd).length := by rwa [List.length_map]
  have hfirst : ((children.map Prod.snd).take ((children.map Prod.snd).length - 2)).take 1 =
      [(children.map Prod.snd)[0]] := by
    rw [List.take_take, Nat.min_eq_left (by omega), List.take_succ_eq_append_getElem (by omega)]
    rfl
  have hlinks : IsChain parent memory (children.map Prod.fst) (children.map Prod.snd) _ :=
    isChain_foldr (by simp)
  rw [← splits_iff.mp (.chain hlength _ hlinks)]
  simp only [chainFromEnd, hfirst, List.foldl_reverse, Nat.sub_self, List.cons_append,
    List.nil_append]

/-- The loop builds the same tree, also when it is given more ancestors than its labels take up. -/
theorem annotate_eq_markedBelow {ancestors : List String} :
    t.annotate m ancestors = t.markedBelow m (ancestors.take (m.vertical - 1)) := by
  induction t generalizing ancestors with
  | node a ts ih =>
    by_cases hne : ts = []
    · subst hne
      rfl
    · let children := ts.map fun t =>
        (t.label, t.markedBelow m ((a :: ancestors).take (m.vertical - 1)))
      have hlabels : ts.map label = children.map Prod.fst := (map_fst_labeled _).symm
      have hchildren : annotateAll m ((a :: ancestors).take (m.vertical - 1)) ts =
          children.map Prod.snd := by
        rw [annotateAll_eq_map, map_snd_labeled]
        apply List.map_congr_left
        intro t ht
        rw [ih t ht, List.take_take, Nat.min_self]
      have hempty : ¬ts.isEmpty = true := by simpa using hne
      rw [markedBelow_node hne, take_cons_take, annotate, if_neg hempty, hlabels, hchildren]
      dsimp only
      rcases Nat.lt_or_ge 2 children.length with h | h
      · rw [if_neg (by rw [List.length_map]; omega), chainFromEnd_eq h]
      · rw [if_pos (by rwa [List.length_map]), chain_few h]

end FromEnd

section Sizes

/-- How many synthetic nodes it takes to split the wide nodes of a tree. -/
def splitCount (t : Tree) : Nat :=
  (t.subtrees.map fun u => u.children.length - 2).sum

theorem splitCount_node {a : String} :
    (node a ts).splitCount = (ts.length - 2) + (ts.map splitCount).sum := by
  simp only [splitCount, subtrees_node, List.map_cons, List.sum_cons, children_node, List.flatMap,
    List.map_flatten, List.sum_flatten, List.map_map]
  rfl

theorem length_subtrees_node {a : String} :
    (node a ts).subtrees.length = (ts.map fun t => t.subtrees.length).sum + 1 := by
  rw [subtrees_node, List.length_cons, List.length_flatMap]

theorem sum_length_subtrees_chain {history : List String} {children : List (String × Tree)} :
    ((chain parent memory history children).map fun t => t.subtrees.length).sum =
      (children.map fun child => child.2.subtrees.length).sum + (children.length - 2) := by
  fun_induction chain parent memory history children with
  | case1 history b t second third rest ih =>
    simp only [List.map_cons, List.map_nil, List.sum_cons, List.sum_nil, length_subtrees_node,
      List.length_cons] at ih ⊢
    omega
  | case2 history children hfew =>
    have hlength : children.length ≤ 2 :=
      length_le_two fun child second third rest => hfew child.1 child.2 second third rest
    rw [Nat.sub_eq_zero_of_le hlength, List.map_map]
    rfl

/-- An annotated tree has the nodes of the tree, and those that split its wide nodes. -/
theorem length_subtrees_markedBelow {ancestors : List String} :
    (t.markedBelow m ancestors).subtrees.length = t.subtrees.length + t.splitCount := by
  induction t generalizing ancestors with
  | node a ts ih =>
    by_cases hne : ts = []
    · subst hne
      rfl
    · rw [markedBelow_node hne, length_subtrees_node, sum_length_subtrees_chain, List.map_map,
        List.length_map, length_subtrees_node, splitCount_node]
      have hbelow : ts.map ((fun child : String × Tree => child.2.subtrees.length) ∘ fun t =>
          (t.label, t.markedBelow m ((a :: ancestors).take (m.vertical - 1)))) =
          ts.map fun t => t.subtrees.length + t.splitCount :=
        List.map_congr_left fun t ht => ih t ht
      rw [hbelow, List.sum_map_add]
      omega

end Sizes

/-- Marking a tree succeeds and builds its annotated tree: the words are the same, no node has more
than two children, and every node is still there, beside the synthetic ones that split wide nodes.
A loop that builds every chain from its end finds the same tree. -/
theorem markovize_annotates (hm : 1 ≤ m.vertical) (t : Tree) :
    ∃ d, t.markovize m = .ok d ∧ (∀ d', Annotates m [] t d' ↔ d' = d) ∧ d.words = t.words ∧
      d.IsBinary ∧ d.subtrees.length =
        t.subtrees.length + (t.subtrees.map fun u => u.children.length - 2).sum ∧
      t.annotate m [] = d := by
  have hannotates (d' : Tree) : Annotates m [] t d' ↔ d' = t.markedBelow m [] := by
    rw [annotates_iff, List.take_nil]
  have hloop : t.annotate m [] = t.markedBelow m [] := by
    rw [annotate_eq_markedBelow, List.take_nil]
  exact ⟨_, markovize_eq_ok.mpr ⟨Nat.ne_of_gt hm, rfl⟩, hannotates, words_markedBelow t,
    isBinary_markedBelow t, length_subtrees_markedBelow, hloop⟩

section Wide

/-- A wide sentence over a wide noun phrase. -/
def wideTree : Tree :=
  node "S" [node "NP" [node "D" [leaf "the"], node "A" [leaf "old"], node "N" [leaf "man"]],
    node "V" [leaf "sees"], node "NP" [node "N" [leaf "us"]], node "." [leaf "."]]

theorem markovize_annotates_wideTree : ∃ d, wideTree.markovize ⟨2, some 1⟩ = .ok d ∧
    Annotates ⟨2, some 1⟩ [] wideTree d ∧ d.subtrees.length = wideTree.subtrees.length + 3 ∧
      d.text = "(S (NP^S (D^NP the) (@NP^S->_D (A^NP old) (N^NP man))) " ++
        "(@S->_NP (V^S sees) (@S->..._V (NP^S (N^NP us)) (.^S .))))" := by
  obtain ⟨d, hd, hannotates, -, -, hlength, -⟩ :=
    markovize_annotates (m := ⟨2, some 1⟩) (by decide) wideTree
  have hsplits : (wideTree.subtrees.map fun u => u.children.length - 2).sum = 3 := by
    decide +kernel
  refine ⟨d, hd, (hannotates d).mpr rfl, hsplits ▸ hlength, ?_⟩
  obtain ⟨-, rfl⟩ := markovize_eq_ok.mp hd
  decide +kernel

end Wide

end Tree

end Constituency

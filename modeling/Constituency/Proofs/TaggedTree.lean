import Constituency.Proofs.MarkedTree

/-!
# Tagged trees

The trees of a treebank have every word under a tag of its own, whatever their labels are. Marking
keeps the words and their tags, and leaves no node with more than two children.
-/

namespace Constituency.Tree

variable {m : Markovization} {ancestors : List String} {a : String} {t u : Tree} {ts : List Tree}

/-- Every word is an only child. -/
def IsTagged (t : Tree) : Prop :=
  ∀ u ∈ t.subtrees, WordsAlone u.children

/-- No node has more than two children. -/
def IsBinary (t : Tree) : Prop :=
  ∀ u ∈ t.subtrees, u.children.length ≤ 2

instance (t : Tree) : Decidable t.IsTagged :=
  List.decidableBAll _ t.subtrees

theorem isTagged_node : (node a ts).IsTagged ↔ WordsAlone ts ∧ ∀ t ∈ ts, t.IsTagged :=
  forall_mem_subtrees_node

theorem isBinary_node : (node a ts).IsBinary ↔ ts.length ≤ 2 ∧ ∀ t ∈ ts, t.IsBinary :=
  forall_mem_subtrees_node

/-- A tagged tree is a word, a tag over a word, or a node over such trees that are not words. -/
theorem IsTagged.induction {motive : (t : Tree) → t.IsTagged → Prop}
    (leaf : ∀ word h, motive (leaf word) h) (tag : ∀ a word h, motive (node a [.leaf word]) h)
    (node : ∀ a ts h, ts ≠ [] → (∀ t ∈ ts, t.isLeaf = false) →
      (∀ t ∈ ts, ∀ ht : t.IsTagged, motive t ht) → motive (node a ts) h)
    (t : Tree) (h : t.IsTagged) : motive t h := by
  induction t with
  | node a ts ih =>
    by_cases hne : ts = []
    · subst hne
      exact leaf a h
    · by_cases hleaf : ∀ t ∈ ts, t.isLeaf = false
      · exact node a ts h hne hleaf ih
      · obtain ⟨t, ht, hword⟩ : ∃ t ∈ ts, t.isLeaf = true := by simpa using hleaf
        obtain rfl : ts = [t] := (isTagged_node.mp h).1 t ht hword
        obtain ⟨word, rfl⟩ := exists_eq_of_isLeaf hword
        exact tag a word h

section Chain

variable {parent : String} {memory : Option Nat} {history : List String}
  {children : List (String × Tree)}

/-- Below a node with a chain are the children that it splits, and synthetic nodes over the ends of
their list. -/
theorem mem_subtrees_chain (h : u ∈ (chain parent memory history children).flatMap subtrees) :
    (∃ child ∈ children, u ∈ child.2.subtrees) ∨
      ∃ label history' rest, rest <:+ children ∧ 2 ≤ rest.length ∧
        u = node label (chain parent memory history' rest) := by
  fun_induction chain parent memory history children with
  | case1 history b t second third rest ih =>
    simp only [List.flatMap_cons, List.flatMap_nil, List.append_nil, List.mem_append,
      subtrees_node, List.mem_cons] at h
    rcases h with h | rfl | h
    · exact .inl ⟨_, List.mem_cons_self, h⟩
    · exact .inr ⟨_, _, _, List.suffix_cons _ _, by simp, rfl⟩
    · rcases ih h with ⟨child, hchild, hu⟩ | ⟨label, history', rest', hsuffix, hu⟩
      · exact .inl ⟨child, List.mem_cons_of_mem _ hchild, hu⟩
      · exact .inr ⟨label, history', rest', hsuffix.trans (List.suffix_cons _ _), hu⟩
  | case2 history children _ =>
    obtain ⟨_, hmem, hu⟩ := List.mem_flatMap.mp h
    obtain ⟨child, hchild, rfl⟩ := List.mem_map.mp hmem
    exact .inl ⟨child, hchild, hu⟩

theorem wordsAlone_chain (h : WordsAlone (children.map (·.2))) :
    WordsAlone (chain parent memory history children) := by
  unfold chain
  split
  · apply wordsAlone_of_forall
    have hfirst := h.isLeaf_eq_false (by simp) List.mem_cons_self
    simpa [chain_ne_nil] using hfirst
  · exact h

theorem flatMap_words_chain : (chain parent memory history children).flatMap words =
    children.flatMap fun child => child.2.words := by
  fun_induction chain parent memory history children with
  | case1 history b t second third rest ih =>
    simp only [List.flatMap_cons, List.flatMap_nil, List.append_nil] at ih ⊢
    rw [words_node (chain_ne_nil (by simp)), ih]
  | case2 history children _ => rw [List.flatMap_map]

end Chain

theorem words_markedBelow (t : Tree) : (t.markedBelow m ancestors).words = t.words := by
  induction t generalizing ancestors with
  | node a ts ih =>
    by_cases hne : ts = []
    · subst hne
      rfl
    · rw [markedBelow_node hne, words_node (chain_ne_nil (by simpa using hne)), words_node hne,
        flatMap_words_chain, List.flatMap_map]
      exact List.flatMap_congr fun t ht => ih t ht

theorem WordsAlone.map_markedBelow (h : WordsAlone ts) :
    WordsAlone (ts.map (markedBelow m ancestors)) := by
  intro marked hmarked hleaf
  obtain ⟨t, ht, rfl⟩ := List.mem_map.mp hmarked
  rw [isLeaf_markedBelow] at hleaf
  have hone : ts = [t] := h t ht hleaf
  rw [hone]
  rfl

theorem isBinary_markedBelow (t : Tree) : (t.markedBelow m ancestors).IsBinary := by
  induction t generalizing ancestors with
  | node a ts ih =>
    by_cases hne : ts = []
    · subst hne
      exact isBinary_node.mpr (by simp)
    · rw [markedBelow_node hne]
      refine isBinary_node.mpr ⟨length_chain_le, fun t ht u hu => ?_⟩
      rcases mem_subtrees_chain (List.mem_flatMap.mpr ⟨t, ht, hu⟩) with
        ⟨child, hchild, hu⟩ | ⟨label, history, rest, -, -, rfl⟩
      · obtain ⟨t, ht, rfl⟩ := List.mem_map.mp hchild
        exact ih t ht u hu
      · exact length_chain_le

theorem IsTagged.markedBelow (h : t.IsTagged) : (t.markedBelow m ancestors).IsTagged := by
  induction t generalizing ancestors with
  | node a ts ih =>
    by_cases hne : ts = []
    · subst hne
      exact h
    · obtain ⟨halone, hbelow⟩ := isTagged_node.mp h
      rw [markedBelow_node hne]
      have hmap : WordsAlone ((ts.map fun t => (t.label, t.markedBelow m
          ((a :: ancestors).take (m.vertical - 1)))).map (·.2)) := by
        rw [List.map_map]
        exact halone.map_markedBelow
      refine isTagged_node.mpr ⟨wordsAlone_chain hmap, fun t ht u hu => ?_⟩
      rcases mem_subtrees_chain (List.mem_flatMap.mpr ⟨t, ht, hu⟩) with
        ⟨child, hchild, hu⟩ | ⟨label, history, rest, hsuffix, hlength, rfl⟩
      · obtain ⟨t, ht, rfl⟩ := List.mem_map.mp hchild
        exact ih t ht (hbelow t ht) u hu
      · -- An end of the list with two children or more has no word.
        have hsuffix := hsuffix.map (·.2)
        refine wordsAlone_chain (wordsAlone_of_forall fun t ht => ?_)
        have hlong := hsuffix.length_le
        exact hmap.isLeaf_eq_false (by simp only [List.length_map] at hlong ⊢; omega)
          (hsuffix.subset ht)

/-- The labels in the productions of a tagged tree are labels of its nodes, not of words. -/
theorem IsTagged.exists_of_mem_productions (h : t.IsTagged) {p : Production}
    (hp : p ∈ t.productions) {x : String} (hx : x ∈ p.parent :: p.children) :
    ∃ u ∈ t.subtrees, u.isLeaf = false ∧ u.label = x := by
  obtain ⟨u, hu, hleaf, hpreterminal, rfl⟩ := mem_productions.mp hp
  rcases List.mem_cons.mp hx with rfl | hx
  · exact ⟨u, hu, hleaf, rfl⟩
  · obtain ⟨v, hv, rfl⟩ := List.mem_map.mp hx
    refine ⟨v, mem_subtrees_trans hu (mem_subtrees_of_below
      (List.mem_flatMap.mpr ⟨v, hv, mem_subtrees_self v⟩)), ?_, rfl⟩
    by_contra hword
    have hone := h u hu v hv (by simpa using hword)
    simp [isPreterminal, hone, hword] at hpreterminal

/-- Every word of a tagged tree stands under a tag. -/
theorem IsTagged.mem_words (h : t.IsTagged) (hnode : t.isLeaf = false) {word : String}
    (hword : word ∈ t.words) : ∃ tagging ∈ t.taggings, tagging.word = word := by
  induction t, h using IsTagged.induction with
  | leaf => simp [leaf] at hnode
  | tag a w =>
    obtain rfl : word = w := by simpa [words_node, words_leaf] using hword
    exact ⟨⟨a, word⟩, mem_taggings.mpr ⟨_, mem_subtrees_self _, rfl, _, List.mem_cons_self, rfl⟩,
      rfl⟩
  | node a ts h hne hleaf ih =>
    rw [words_node hne] at hword
    obtain ⟨t, ht, hword⟩ := List.mem_flatMap.mp hword
    obtain ⟨tagging, htagging, rfl⟩ := ih t ht ((isTagged_node.mp h).2 t ht) (hleaf t ht) hword
    obtain ⟨u, hu, hrest⟩ := mem_taggings.mp htagging
    refine ⟨tagging, mem_taggings.mpr ⟨u, ?_, hrest⟩, rfl⟩
    exact mem_subtrees_of_below (List.mem_flatMap.mpr ⟨t, ht, hu⟩)

end Constituency.Tree

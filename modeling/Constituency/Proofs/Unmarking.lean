import Constituency.Markovization
import Constituency.Proofs.CleanLabel
import Constituency.Proofs.PlainTree

/-!
# Unmarking

The plain tree of a marked tree is that of the tree before it was marked: chains give way to the
children that they split, and labels lose their ancestors.
-/

namespace Constituency.Tree

variable {m : Markovization} {a : String} {ancestors : List String} {t : Tree} {ts : List Tree}

theorem isSynthetic_splice (t : Tree) : t.splice.isSynthetic = t.isSynthetic := by
  rw [isSynthetic, isLeaf_splice, label_splice, ← isSynthetic]

/-- What a child contributes to the plain tree of its parent. -/
def plainParts (t : Tree) : List Tree :=
  if t.isSynthetic then t.plain.children else [t.plain]

theorem map_mapCategory_spliced (t : Tree) :
    t.splice.spliced.map mapCategory = t.plainParts := by
  rw [spliced, isSynthetic_splice, plainParts, plain]
  split
  · cases h : t.splice with
    | node a ts =>
      by_cases hne : ts = []
      · simp [hne, mapCategory]
      · simp [mapCategory_node hne]
  · rfl

theorem plain_node (h : ts ≠ []) :
    (node a ts).plain = node (Label.category a) (ts.flatMap plainParts) := by
  rw [plain, splice_node, mapCategory_node (flatMap_spliced_ne_nil h), List.map_flatMap]
  simp only [map_mapCategory_spliced]

section Chain

variable {parent : String} {memory : Option Nat} {history : List String}
  {children : List (String × Tree)}

theorem chain_ne_nil (h : children ≠ []) : chain parent memory history children ≠ [] := by
  unfold chain
  split
  · simp
  · simpa using h

/-- A synthetic node contributes what its children do. -/
theorem plainParts_synthetic (h : ts ≠ []) :
    (node (Label.synthetic parent memory history) ts).plainParts = ts.flatMap plainParts := by
  have hsynthetic : (node (Label.synthetic parent memory history) ts).isSynthetic = true := by
    simp [isSynthetic, h, Label.startsSynthetic, Label.toList_synthetic]
  rw [plainParts, if_pos hsynthetic, plain_node h, children_node]

/-- A chain contributes what the children that it splits do. -/
theorem flatMap_plainParts_chain : (chain parent memory history children).flatMap plainParts =
    children.flatMap fun child => child.2.plainParts := by
  fun_induction chain parent memory history children with
  | case1 history b t second third rest ih =>
    simp only [List.flatMap_cons, List.flatMap_nil, List.append_nil] at ih ⊢
    rw [plainParts_synthetic (chain_ne_nil (by simp)), ih]
  | case2 history children _ => rw [List.flatMap_map]

end Chain

theorem isLeaf_markedBelow (t : Tree) : (t.markedBelow m ancestors).isLeaf = t.isLeaf := by
  obtain ⟨a, ts⟩ := t
  by_cases hne : ts = []
  · subst hne
    rfl
  · rw [markedBelow_node hne, isLeaf_node, isLeaf_node, Bool.eq_iff_iff, List.isEmpty_iff,
      List.isEmpty_iff]
    exact iff_of_false (chain_ne_nil (by simpa using hne)) hne

theorem label_markedBelow (h : t.isLeaf = false) :
    (t.markedBelow m ancestors).label = Label.withAncestors t.label ancestors := by
  obtain ⟨a, ts⟩ := t
  rw [markedBelow_node (by simpa using h)]
  rfl

theorem markedBelow_of_isLeaf (h : t.isLeaf = true) : t.markedBelow m ancestors = t := by
  obtain ⟨word, rfl⟩ := exists_eq_of_isLeaf h
  rfl

/-- Marks come off again, from words and from labels that take ancestors. -/
theorem plain_markedBelow (hroot : ancestors = [] ∨ Label.TakesAncestors t.label)
    (hbelow : ∀ u ∈ t.children.flatMap subtrees, u.isLeaf = false →
      m.vertical ≤ 1 ∨ Label.TakesAncestors u.label) :
    (t.markedBelow m ancestors).plain = t.plain := by
  induction t generalizing ancestors with
  | node a ts ih =>
    by_cases hne : ts = []
    · subst hne
      rfl
    · have hparts : ∀ t ∈ ts,
          (t.markedBelow m ((a :: ancestors).take (m.vertical - 1))).plainParts =
            t.plainParts := by
        intro t ht
        cases hleaf : t.isLeaf with
        | true => rw [markedBelow_of_isLeaf hleaf]
        | false =>
          have hmem {u : Tree} (hu : u ∈ t.subtrees) : u ∈ ts.flatMap subtrees :=
            List.mem_flatMap.mpr ⟨t, ht, hu⟩
          have htakes : (a :: ancestors).take (m.vertical - 1) = [] ∨
              Label.TakesAncestors t.label := by
            refine (hbelow t (hmem (mem_subtrees_self t)) hleaf).imp_left fun hv => ?_
            simp [Nat.sub_eq_zero_of_le hv]
          have hplain := ih t ht htakes fun u hu => hbelow u (hmem (mem_subtrees_of_below hu))
          rw [plainParts, plainParts, hplain, isSynthetic, isSynthetic, isLeaf_markedBelow,
            label_markedBelow hleaf, Label.startsSynthetic_withAncestors htakes]
      rw [markedBelow_node hne, plain_node (chain_ne_nil (by simpa using hne)), plain_node hne,
        flatMap_plainParts_chain, List.flatMap_map,
        Label.category_withAncestors (a := a) hroot]
      exact congrArg _ (List.flatMap_congr hparts)

/-- A tree without synthetic nodes below its root, whose labels are categories. -/
theorem plain_eq_self (hsynthetic : ∀ u ∈ t.children.flatMap subtrees, u.isSynthetic = false)
    (hcategory : ∀ u ∈ t.subtrees, u.isLeaf = false → Label.category u.label = u.label) :
    t.plain = t := by
  induction t with
  | node a ts ih =>
    by_cases hne : ts = []
    · subst hne
      rfl
    · obtain ⟨ha, hbelow⟩ := forall_mem_subtrees_node.mp hcategory
      have hparts : ts.flatMap plainParts = ts.flatMap fun t => [t] := by
        apply List.flatMap_congr
        intro t ht
        have hmem {u : Tree} (hu : u ∈ t.subtrees) : u.isSynthetic = false :=
          hsynthetic u (List.mem_flatMap.mpr ⟨t, ht, hu⟩)
        have hplain := ih t ht (fun u hu => hmem (mem_subtrees_of_below hu)) (hbelow t ht)
        simp [plainParts, hmem (mem_subtrees_self t), hplain]
      have hlabel : Label.category a = a := ha (by simpa using hne)
      rw [plain_node hne, hparts, hlabel]
      simp

section RoundTrip

theorem markovize_eq_ok {d : Tree} :
    t.markovize m = .ok d ↔ m.vertical ≠ 0 ∧ t.markedBelow m [] = d := by
  unfold markovize Markovization.validate
  split <;> simp_all [bind, Except.bind, pure, Except.pure]

/-- Taking the marks off leaves the plain tree of what was marked, which is the tree itself if it
had nothing to take off. Words may look like anything. -/
theorem plain_markovize (hm : m.vertical ≠ 0)
    (hbelow : m.vertical = 1 ∨ ∀ u ∈ t.children.flatMap subtrees, u.isLeaf = false →
      Label.TakesAncestors u.label) :
    ∃ d, t.markovize m = .ok d ∧ d.plain = t.plain ∧
      ((∀ u ∈ t.children.flatMap subtrees, u.isSynthetic = false) →
        (∀ u ∈ t.subtrees, u.isLeaf = false → Label.category u.label = u.label) →
          d.plain = t) := by
  have hplain : (t.markedBelow m []).plain = t.plain := by
    refine plain_markedBelow (.inl rfl) fun u hu hleaf => ?_
    exact hbelow.imp (·.le) fun htakes => htakes u hu hleaf
  refine ⟨_, markovize_eq_ok.mpr ⟨hm, rfl⟩, hplain, ?_⟩
  intro hsynthetic hcategory
  rw [hplain, plain_eq_self hsynthetic hcategory]

/-- Brackets, and words that look like marks. -/
def markLikeWords : Tree :=
  node "S" [node "NP" [node "-LRB-" [leaf "@("], node "NN" [leaf "x^y"], node "=" [leaf "-"]],
    node "VP" [leaf "^"], node "." [leaf "_"], node "." [leaf ""]]

theorem plain_markovize_markLikeWords : ∃ d, markLikeWords.markovize ⟨3, some 1⟩ = .ok d ∧
    d.plain = markLikeWords ∧ d ≠ markLikeWords := by
  obtain ⟨d, hd, -, hself⟩ := plain_markovize (m := ⟨3, some 1⟩) (t := markLikeWords) (by decide)
    (.inr (by decide +kernel))
  refine ⟨d, hd, hself (by decide +kernel) (by decide +kernel), ?_⟩
  obtain ⟨-, rfl⟩ := markovize_eq_ok.mp hd
  decide +kernel

end RoundTrip

end Constituency.Tree

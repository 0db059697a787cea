import Mathlib.Data.List.Basic
import Constituency.Tree.Plain

/-!
# The words of plain trees

Taking the marks of a grammar off a tree leaves its words alone.
-/

namespace Constituency.Tree

theorem isLeaf_splice (t : Tree) : t.splice.isLeaf = t.isLeaf := by
  induction t with
  | node a ts ih =>
    cases ts with
    | nil => rfl
    | cons t ts =>
      have hspliced : t.splice.spliced ≠ [] := by
        unfold spliced
        split
        · rename_i hs
          intro hnil
          simp [isSynthetic, isLeaf, hnil] at hs
        · simp
      simp [hspliced]

theorem flatMap_spliced_ne_nil {ts : List Tree} (h : ts ≠ []) :
    (ts.flatMap fun t => t.splice.spliced) ≠ [] := by
  intro hnil
  have hleaf := isLeaf_splice (node "" ts)
  rw [splice_node, hnil] at hleaf
  exact h (List.isEmpty_iff.mp hleaf.symm)

theorem flatMap_words_spliced (t : Tree) : t.spliced.flatMap words = t.words := by
  unfold spliced
  split
  · rename_i hs
    obtain ⟨a, ts⟩ := t
    have hne : ts ≠ [] := by
      rintro rfl
      simp [isSynthetic] at hs
    rw [words_node hne, children_node]
  · simp

theorem words_splice (t : Tree) : t.splice.words = t.words := by
  induction t with
  | node a ts ih =>
    by_cases hne : ts = []
    · subst hne
      rfl
    · rw [splice_node, words_node (flatMap_spliced_ne_nil hne), words_node hne,
        List.flatMap_assoc]
      exact List.flatMap_congr fun t ht => (flatMap_words_spliced t.splice).trans (ih t ht)

theorem words_mapCategory (t : Tree) : t.mapCategory.words = t.words := by
  induction t with
  | node a ts ih =>
    by_cases hne : ts = []
    · subst hne
      rfl
    · rw [mapCategory_node hne, words_node (by simpa using hne), words_node hne, List.flatMap_map]
      exact List.flatMap_congr ih

theorem words_plain (t : Tree) : t.plain.words = t.words := by
  rw [plain, words_mapCategory, words_splice]

theorem label_plain {t : Tree} (h : t.isLeaf = false) :
    t.plain.label = Label.category t.label := by
  rw [plain, ← label_splice t]
  rw [← isLeaf_splice t] at h
  generalize t.splice = u at *
  obtain ⟨a, ts⟩ := u
  rw [mapCategory_node (by simpa using h)]
  rfl

end Constituency.Tree

import Constituency.Proofs.ChainProductions
import Constituency.Proofs.CoarserLabels

/-!
# Relabeled trees

What is counted in a tree changes with its labels and in no other way. A clean tree marked with
lower orders is the one marked with higher orders, relabeled.
-/

namespace Constituency

variable {f : String → String}

def Production.relabel (f : String → String) (p : Production) : Production :=
  ⟨f p.parent, p.children.map f⟩

def Tagging.relabel (f : String → String) (t : Tagging) : Tagging :=
  ⟨f t.tag, t.word⟩

namespace Tree

variable {a : String} {t : Tree} {ts : List Tree}

/-- The tree with other labels over the same words. -/
def relabel (f : String → String) : Tree → Tree :=
  fold fun a ts => if ts.isEmpty then leaf a else node (f a) ts

theorem relabel_node (h : ts ≠ []) :
    (node a ts).relabel f = node (f a) (ts.map (relabel f)) := by
  simp [relabel, h]

theorem isLeaf_relabel (t : Tree) : (t.relabel f).isLeaf = t.isLeaf := by
  obtain ⟨a, ts⟩ := t
  cases ts with
  | nil => rfl
  | cons t ts => simp [relabel_node]

theorem label_relabel (h : t.isLeaf = false) : (t.relabel f).label = f t.label := by
  obtain ⟨a, ts⟩ := t
  rw [relabel_node (by simpa using h), label_node, label_node]

theorem subtrees_relabel (t : Tree) : (t.relabel f).subtrees = t.subtrees.map (relabel f) := by
  induction t with
  | node a ts ih =>
    by_cases hne : ts = []
    · subst hne
      rfl
    · rw [relabel_node hne, subtrees_node, subtrees_node, List.map_cons, relabel_node hne,
        List.flatMap_map, List.map_flatMap]
      exact congrArg _ (List.flatMap_congr ih)

/-- The productions of a relabeled tree are those of the tree, relabeled. -/
theorem IsTagged.productions_relabel (h : t.IsTagged) :
    (t.relabel f).productions = t.productions.map (Production.relabel f) := by
  induction t, h using IsTagged.induction with
  | leaf word => rfl
  | tag a word => rfl
  | node a ts h hne hleaf ih =>
    have hbelow : ∀ t ∈ ts, (t.relabel f).productions = t.productions.map (Production.relabel f) :=
      fun t ht => ih t ht ((isTagged_node.mp h).2 t ht)
    have hlabels : (ts.map (relabel f)).map label = (ts.map label).map f := by
      simpa using fun t ht => label_relabel (hleaf t ht)
    rw [relabel_node hne, productions_node (by simpa using hne)
      (by simpa [isLeaf_relabel] using hleaf), productions_node hne hleaf, List.map_cons,
      hlabels, List.flatMap_map, List.map_flatMap]
    exact congrArg _ (List.flatMap_congr hbelow)

theorem IsTagged.taggings_relabel (h : t.IsTagged) :
    (t.relabel f).taggings = t.taggings.map (Tagging.relabel f) := by
  induction t, h using IsTagged.induction with
  | leaf word => rfl
  | tag a word => rfl
  | node a ts h hne hleaf ih =>
    have hbelow : ∀ t ∈ ts, (t.relabel f).taggings = t.taggings.map (Tagging.relabel f) :=
      fun t ht => ih t ht ((isTagged_node.mp h).2 t ht)
    rw [relabel_node hne, taggings_node (by simpa [isLeaf_relabel] using hleaf),
      taggings_node hleaf, List.flatMap_map, List.map_flatMap]
    exact List.flatMap_congr hbelow

section Coarser

variable {m m' : Markovization} {l : Lineage} {history : List String} {kids : List Tree}

theorem IsClean.isTagged (h : t.IsClean) : t.IsTagged := by
  intro u hu
  cases hleaf : u.isLeaf with
  | true =>
    obtain ⟨word, rfl⟩ := exists_eq_of_isLeaf hleaf
    simp [WordsAlone]
  | false => exact (h u hu hleaf).2

variable (hcoarser : m'.Coarser m) (hvertical : m'.vertical ≠ 0)
include hcoarser hvertical

theorem relabel_stage (hhistory : ∀ x ∈ history, Label.IsClean x) (h : Remaining history kids)
    (hkids : ∀ t ∈ kids, (t.markedBelow m (l.inherited m)).relabel (Label.coarsen m') =
      t.markedBelow m' ((l.coarser m').inherited m')) :
    (stage m l history kids).relabel (Label.coarsen m') =
      stage m' (l.coarser m') history kids := by
  induction kids generalizing history with
  | nil => exact absurd rfl h.ne_nil
  | cons t rest ih =>
    by_cases hlength : (t :: rest).length ≤ 2
    · rw [stage_of_length_le hlength, stage_of_length_le hlength, relabel_node (by simp),
        Lineage.coarsen_stage hcoarser hvertical hhistory, List.map_map]
      exact congrArg _ (List.map_congr_left hkids)
    · match rest with
      | [] | [_] => simp at hlength
      | second :: third :: rest =>
        obtain ⟨ht, hrest⟩ := List.forall_mem_cons.mp hkids
        obtain ⟨_, hclean⟩ := h.label (t := t) (by simp) (by simp)
        have hhistory' : ∀ x ∈ history ++ [t.label], Label.IsClean x :=
          List.forall_mem_append.mpr ⟨hhistory, by simpa using hclean⟩
        rw [stage_cons, stage_cons, relabel_node (by simp),
          Lineage.coarsen_stage hcoarser hvertical hhistory]
        simp [ht, ih hhistory' (h.tail _) hrest]

/-- A clean tree marked with lower orders is the one marked with higher orders, relabeled. -/
theorem relabel_markedBelow (h : t.IsClean) (hl : t.isLeaf = false → t.label = l.label) :
    (t.markedBelow m l.ancestors).relabel (Label.coarsen m') =
      t.markedBelow m' (l.coarser m').ancestors := by
  induction t generalizing l with
  | node a ts ih =>
    by_cases hne : ts = []
    · subst hne
      rfl
    · obtain ⟨_, hwords, hclean⟩ := (isClean_node hne).mp h
      obtain rfl : a = l.label := hl (by simpa using hne)
      rw [markedBelow_eq_stage hne]
      refine (relabel_stage hcoarser hvertical (by simp) ⟨hne, hclean, hwords, by simp⟩ ?_).trans
        (markedBelow_eq_stage (l := l.coarser m') hne).symm
      intro t ht
      cases hleaf : t.isLeaf with
      | true =>
        rw [markedBelow_of_isLeaf hleaf, markedBelow_of_isLeaf hleaf]
        obtain ⟨word, rfl⟩ := exists_eq_of_isLeaf hleaf
        rfl
      | false =>
        have hlabel := (hclean t ht).label hleaf
        have hchild := ih t ht (l := l.child m t.label hlabel) (hclean t ht) fun _ => rfl
        rwa [Lineage.coarser_child hcoarser hlabel] at hchild

theorem IsClean.relabel_markedBelow (h : t.IsClean) :
    (t.markedBelow m []).relabel (Label.coarsen m') = t.markedBelow m' [] := by
  cases hleaf : t.isLeaf with
  | true =>
    obtain ⟨word, rfl⟩ := exists_eq_of_isLeaf hleaf
    rfl
  | false =>
    simpa [Lineage.root, Lineage.coarser] using Tree.relabel_markedBelow
      (l := .root t.label (h.label hleaf)) hcoarser hvertical h fun _ => rfl

end Coarser

end Tree

end Constituency

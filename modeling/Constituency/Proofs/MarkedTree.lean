import Constituency.Production
import Constituency.Proofs.Unmarking

/-!
# Marked trees

A clean tree is marked node by node: each node of a chain knows its lineage and the children that
were split off before. What a rule may depend on is in the labels, so that the productions of marked
trees tell how the nodes that they are read off were marked.
-/

namespace Constituency

/-- A clean label below those of its nearest ancestors. -/
structure Lineage where
  label : String
  ancestors : List String
  clean : ∀ x ∈ label :: ancestors, Label.IsClean x

namespace Lineage

variable {m : Markovization} {l l' : Lineage} {c : String}

def marked (l : Lineage) : String :=
  Label.withAncestors l.label l.ancestors

def root (label : String) (h : Label.IsClean label) : Lineage :=
  ⟨label, [], by simpa using h⟩

/-- The ancestors that the labels below take up. -/
def inherited (l : Lineage) (m : Markovization) : List String :=
  (l.label :: l.ancestors).take (m.vertical - 1)

def child (l : Lineage) (m : Markovization) (label : String) (h : Label.IsClean label) : Lineage :=
  ⟨label, l.inherited m, List.forall_mem_cons.mpr
    ⟨h, fun x hx => l.clean x (List.mem_of_mem_take hx)⟩⟩

theorem stage_injective {memory : Option Nat} {history history' : List String}
    (hx : ∀ x ∈ history, Label.IsClean x) (hy : ∀ y ∈ history', Label.IsClean y)
    (h : Label.stage l.marked memory history = Label.stage l'.marked memory history') :
    l = l' ∧ Label.SameMemory memory history history' := by
  obtain ⟨a, ancestors, hclean⟩ := l
  obtain ⟨b, ancestors', hclean'⟩ := l'
  obtain ⟨rfl, rfl, hsame⟩ := Label.stage_injective (List.forall_mem_append.mpr ⟨hclean, hx⟩)
    (List.forall_mem_append.mpr ⟨hclean', hy⟩) h
  exact ⟨rfl, hsame⟩

theorem eq_of_stage_eq_marked {memory : Option Nat} {history : List String}
    (hx : ∀ x ∈ history, Label.IsClean x)
    (h : Label.stage l.marked memory history = l'.marked) : l = l' ∧ history = [] := by
  have hnil : ∀ x ∈ ([] : List String), Label.IsClean x := by simp
  obtain ⟨hl, hsame⟩ := stage_injective hx hnil (h.trans Label.stage_nil.symm)
  exact ⟨hl, hsame.eq_nil_iff.mpr rfl⟩

end Lineage

namespace Tree

variable {m : Markovization} {l : Lineage} {history : List String} {a : String} {t u : Tree}
  {ts kids : List Tree}

/-- A word has no siblings. -/
def WordsAlone (ts : List Tree) : Prop :=
  ∀ t ∈ ts, t.isLeaf = true → ts = [t]

/-- Every label but those of the words is clean, and every word is an only child. -/
def IsClean (t : Tree) : Prop :=
  ∀ u ∈ t.subtrees, u.isLeaf = false → Label.IsClean u.label ∧ WordsAlone u.children

instance (ts : List Tree) : Decidable (WordsAlone ts) :=
  List.decidableBAll _ ts

instance (t : Tree) : Decidable t.IsClean :=
  List.decidableBAll _ t.subtrees

theorem wordsAlone_of_forall (h : ∀ t ∈ ts, t.isLeaf = false) : WordsAlone ts := by
  intro t ht hleaf
  simp [h t ht] at hleaf

theorem WordsAlone.isLeaf_eq_false (h : WordsAlone ts) (hlength : 2 ≤ ts.length) (ht : t ∈ ts) :
    t.isLeaf = false := by
  by_contra hleaf
  have hone := h t ht (by simpa using hleaf)
  simp [hone] at hlength

theorem isClean_of_isLeaf (h : t.isLeaf = true) : t.IsClean := by
  obtain ⟨word, rfl⟩ := exists_eq_of_isLeaf h
  simp [IsClean]

theorem isClean_node (h : ts ≠ []) :
    (node a ts).IsClean ↔ Label.IsClean a ∧ WordsAlone ts ∧ ∀ t ∈ ts, t.IsClean := by
  rw [IsClean, forall_mem_subtrees_node]
  simp [h, and_assoc, IsClean]

theorem IsClean.label (h : t.IsClean) (hleaf : t.isLeaf = false) : Label.IsClean t.label := by
  obtain ⟨a, ts⟩ := t
  exact ((isClean_node (by simpa using hleaf)).mp h).1

theorem IsClean.plain_eq (h : t.IsClean) : t.plain = t := by
  apply plain_eq_self
  · intro u hu
    cases hleaf : u.isLeaf with
    | true => simp [isSynthetic, hleaf]
    | false =>
      have hclean := (h u (mem_subtrees_of_below hu) hleaf).1
      simp [isSynthetic, hclean.unmarked.startsSynthetic_eq]
  · intro u hu hleaf
    exact (h u hu hleaf).1.unmarked.category_eq

/-- A clean tree is the plain tree of what it is marked to. -/
theorem IsClean.plain_markedBelow (h : t.IsClean) : (t.markedBelow m []).plain = t := by
  rw [Tree.plain_markedBelow (.inl rfl), h.plain_eq]
  intro u hu hleaf
  exact .inr (h u (mem_subtrees_of_below hu) hleaf).1.takesAncestors

/-- What is left of the children of a clean node after those of the history. The last two are not
split. -/
structure Remaining (history : List String) (kids : List Tree) : Prop where
  ne_nil : kids ≠ []
  clean : ∀ t ∈ kids, t.IsClean
  words_alone : WordsAlone kids
  two_le : history ≠ [] → 2 ≤ kids.length

theorem Remaining.label (h : Remaining history kids) (hlength : 2 ≤ kids.length) (ht : t ∈ kids) :
    t.isLeaf = false ∧ Label.IsClean t.label := by
  have hleaf := h.words_alone.isLeaf_eq_false hlength ht
  exact ⟨hleaf, (h.clean t ht).label hleaf⟩

theorem Remaining.tail {first second third : Tree} {rest : List Tree}
    (h : Remaining history (first :: second :: third :: rest)) (history' : List String) :
    Remaining history' (second :: third :: rest) where
  ne_nil := by simp
  clean t ht := h.clean t (List.mem_cons_of_mem first ht)
  words_alone := wordsAlone_of_forall fun t ht =>
    (h.label (by simp) (List.mem_cons_of_mem first ht)).1
  two_le _ := by simp

/-- The node of a lineage, or of a chain below it, with the children that remain. -/
def stage (m : Markovization) (l : Lineage) (history : List String) (kids : List Tree) : Tree :=
  node (Label.stage l.marked m.horizontal history) (chain l.marked m.horizontal history
    (kids.map fun t => (t.label, t.markedBelow m (l.inherited m))))

theorem markedBelow_eq_stage (h : ts ≠ []) :
    (node l.label ts).markedBelow m l.ancestors = stage m l [] ts :=
  markedBelow_node h

theorem stage_of_length_le (h : kids.length ≤ 2) : stage m l history kids =
    node (Label.stage l.marked m.horizontal history)
      (kids.map (markedBelow m (l.inherited m))) := by
  match kids with
  | [] | [_] | [_, _] => rfl

theorem stage_cons {second third : Tree} {rest : List Tree} :
    stage m l history (t :: second :: third :: rest) =
      node (Label.stage l.marked m.horizontal history) [t.markedBelow m (l.inherited m),
        stage m l (history ++ [t.label]) (second :: third :: rest)] := by
  simp only [stage, List.map_cons, chain, Label.stage_concat]

end Tree

/-- The productions of marked clean trees. -/
inductive MarkedProduction (m : Markovization) : Production → Prop where
  | only {l : Lineage} {c : String} (hc : Label.IsClean c) :
      MarkedProduction m ⟨l.marked, [(l.child m c hc).marked]⟩
  | last {l : Lineage} {history : List String} {c d : String}
      (hhistory : ∀ x ∈ history, Label.IsClean x) (hc : Label.IsClean c) (hd : Label.IsClean d) :
      MarkedProduction m ⟨Label.stage l.marked m.horizontal history,
        [(l.child m c hc).marked, (l.child m d hd).marked]⟩
  | next {l : Lineage} {history : List String} {c : String}
      (hhistory : ∀ x ∈ history, Label.IsClean x) (hc : Label.IsClean c) :
      MarkedProduction m ⟨Label.stage l.marked m.horizontal history,
        [(l.child m c hc).marked, Label.stage l.marked m.horizontal (history ++ [c])]⟩

namespace Tree

variable {m : Markovization} {l : Lineage} {history : List String} {a : String} {t u : Tree}
  {ts kids : List Tree}

/-- What a grammar reads off a node of a marked clean tree. -/
structure WellMarked (m : Markovization) (u : Tree) : Prop where
  tag : u.isPreterminal = true → ∃ l : Lineage, u.label = l.marked
  production : u.isLeaf = false → u.isPreterminal = false → MarkedProduction m u.production

theorem label_markedBelow_child (hleaf : t.isLeaf = false) (hclean : Label.IsClean t.label) :
    (t.markedBelow m (l.inherited m)).label = (l.child m t.label hclean).marked :=
  label_markedBelow hleaf

theorem wellMarked_stage (hhistory : ∀ x ∈ history, Label.IsClean x)
    (h : Remaining history kids) : WellMarked m (stage m l history kids) := by
  match kids with
  | [] => exact absurd rfl h.ne_nil
  | [t] =>
    obtain rfl : history = [] := by
      by_contra hne
      exact absurd (h.two_le hne) (by simp)
    rw [stage_of_length_le (by simp), Label.stage_nil]
    constructor
    · intro _
      exact ⟨l, rfl⟩
    · intro _ hpreterminal
      have hleaf : t.isLeaf = false := by
        simpa [isPreterminal, isLeaf_markedBelow] using hpreterminal
      have hclean := (h.clean t (by simp)).label hleaf
      simp only [production, label_node, children_node, List.map_cons, List.map_nil,
        label_markedBelow_child hleaf hclean]
      exact .only hclean
  | [t, u] =>
    obtain ⟨htleaf, ht⟩ := h.label (t := t) (by simp) (by simp)
    obtain ⟨huleaf, hu⟩ := h.label (t := u) (by simp) (by simp)
    rw [stage_of_length_le (by simp)]
    constructor
    · intro hpreterminal
      simp [isPreterminal] at hpreterminal
    · intro _ _
      simp only [production, label_node, children_node, List.map_cons, List.map_nil,
        label_markedBelow_child htleaf ht, label_markedBelow_child huleaf hu]
      exact .last hhistory ht hu
  | t :: second :: third :: rest =>
    obtain ⟨hleaf, hclean⟩ := h.label (t := t) (by simp) (by simp)
    rw [stage_cons]
    constructor
    · intro hpreterminal
      simp [isPreterminal] at hpreterminal
    · intro _ _
      simp only [production, label_node, children_node, List.map_cons, List.map_nil,
        label_markedBelow_child hleaf hclean]
      exact .next hhistory hclean

theorem wellMarked_of_mem_leaf {ancestors : List String} (h : t.isLeaf = true) :
    ∀ u ∈ (t.markedBelow m ancestors).subtrees, WellMarked m u := by
  rw [markedBelow_of_isLeaf h]
  obtain ⟨word, rfl⟩ := exists_eq_of_isLeaf h
  refine forall_mem_subtrees_node.mpr ⟨⟨?_, ?_⟩, by simp⟩
  · intro hpreterminal
    simp [isPreterminal] at hpreterminal
  · intro hleaf
    simp at hleaf

theorem wellMarked_of_mem_stage (hhistory : ∀ x ∈ history, Label.IsClean x)
    (h : Remaining history kids)
    (hkids : ∀ t ∈ kids, ∀ u ∈ (t.markedBelow m (l.inherited m)).subtrees, WellMarked m u) :
    ∀ u ∈ (stage m l history kids).subtrees, WellMarked m u := by
  induction kids generalizing history with
  | nil => exact absurd rfl h.ne_nil
  | cons t rest ih =>
    have hroot := wellMarked_stage (m := m) (l := l) hhistory h
    by_cases hlength : (t :: rest).length ≤ 2
    · rw [stage_of_length_le hlength] at hroot ⊢
      refine forall_mem_subtrees_node.mpr ⟨hroot, ?_⟩
      intro u hu
      obtain ⟨kid, hkid, rfl⟩ := List.mem_map.mp hu
      exact hkids kid hkid
    · match rest with
      | [] | [_] => simp at hlength
      | second :: third :: rest =>
        obtain ⟨ht, hrest⟩ := List.forall_mem_cons.mp hkids
        obtain ⟨_, hclean⟩ := h.label (t := t) (by simp) (by simp)
        have hhistory' : ∀ x ∈ history ++ [t.label], Label.IsClean x :=
          List.forall_mem_append.mpr ⟨hhistory, by simpa using hclean⟩
        have htail := ih hhistory' (h.tail _) hrest
        rw [stage_cons] at hroot ⊢
        refine forall_mem_subtrees_node.mpr ⟨hroot, ?_⟩
        simpa using ⟨ht, htail⟩

/-- Every node of a marked clean tree shows how it was marked. -/
theorem wellMarked_of_mem_markedBelow (h : t.IsClean) (hl : t.isLeaf = false → t.label = l.label) :
    ∀ u ∈ (t.markedBelow m l.ancestors).subtrees, WellMarked m u := by
  induction t generalizing l with
  | node a ts ih =>
    by_cases hne : ts = []
    · exact wellMarked_of_mem_leaf (by simpa using hne)
    · obtain ⟨_, hwords, hclean⟩ := (isClean_node hne).mp h
      obtain rfl : a = l.label := hl (by simpa using hne)
      rw [markedBelow_eq_stage hne]
      refine wellMarked_of_mem_stage (by simp) ⟨hne, hclean, hwords, by simp⟩ ?_
      intro t ht
      cases hleaf : t.isLeaf with
      | true => exact wellMarked_of_mem_leaf hleaf
      | false =>
        exact ih t ht (l := l.child m t.label ((hclean t ht).label hleaf)) (hclean t ht)
          fun _ => rfl

theorem IsClean.wellMarked (h : t.IsClean) :
    ∀ u ∈ (t.markedBelow m []).subtrees, WellMarked m u := by
  cases hleaf : t.isLeaf with
  | true => exact wellMarked_of_mem_leaf hleaf
  | false =>
    exact wellMarked_of_mem_markedBelow (l := .root t.label (h.label hleaf)) h fun _ => rfl

end Tree

end Constituency

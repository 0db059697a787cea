import Constituency.Proofs.Derivation
import Constituency.Proofs.MarkedTree

/-!
# Marked derivations

What rules read off marked trees derive is a marked tree itself, however the rules of different
trees are put together: the labels in which two rules meet name the same ancestors, and whatever
the rest of a chain may depend on of the siblings to the left.
-/

namespace Constituency

variable {π σ : Type} {m : Markovization} {l : Lineage} {history : List String} {t u : Tree}

/-- The rules and the tags may be read off marked clean trees. -/
structure ReadsMarks (m : Markovization) (rules : Rules σ) (tags : List String) : Prop where
  unary : ∀ rule ∈ rules.unary, MarkedProduction m ⟨rule.parent, [rule.child]⟩
  binary : ∀ rule ∈ rules.binary, MarkedProduction m ⟨rule.parent, [rule.left, rule.right]⟩
  tag : ∀ tag ∈ tags, ∃ l : Lineage, tag = l.marked

namespace MarkedProduction

variable {parent first second : String}

theorem unary_cases (h : MarkedProduction m ⟨parent, [first]⟩) : ∃ (l : Lineage) (a : String)
    (ha : Label.IsClean a), parent = l.marked ∧ first = (l.child m a ha).marked := by
  generalize hp : (⟨parent, [first]⟩ : Production) = p at h
  cases h with
  | @only l a ha =>
    obtain ⟨hparent, hfirst⟩ := Production.mk.inj hp
    exact ⟨l, a, ha, hparent, List.head_eq_of_cons_eq hfirst⟩
  | last => simp at hp
  | next => simp at hp

/-- Two nodes meet below a parent, or one and the rest of a chain. -/
theorem binary_cases (h : MarkedProduction m ⟨parent, [first, second]⟩) :
    ∃ (l : Lineage) (history : List String) (a : String) (ha : Label.IsClean a),
      (∀ x ∈ history, Label.IsClean x) ∧
      parent = Label.stage l.marked m.horizontal history ∧ first = (l.child m a ha).marked ∧
      ((∃ b hb, second = (l.child m b hb).marked) ∨
        second = Label.stage l.marked m.horizontal (history ++ [a])) := by
  generalize hp : (⟨parent, [first, second]⟩ : Production) = p at h
  cases h with
  | only => simp at hp
  | @last l history a b hhistory ha hb =>
    simp only [Production.mk.injEq, List.cons.injEq, and_true] at hp
    exact ⟨l, history, a, ha, hhistory, hp.1, hp.2.1, .inl ⟨b, hb, hp.2.2⟩⟩
  | @next l history a hhistory ha =>
    simp only [Production.mk.injEq, List.cons.injEq, and_true] at hp
    exact ⟨l, history, a, ha, hhistory, hp.1, hp.2.1, .inr hp.2.2⟩

end MarkedProduction

namespace Tree

/-- The tree is what the given lineage and history make of a part of a clean tree. -/
def IsStage (m : Markovization) (l : Lineage) (history : List String) (t : Tree) : Prop :=
  ∃ kids, Remaining history kids ∧ t = stage m l history kids

/-- The node of a child, unmarked. -/
theorem IsStage.exists_marked (h : IsStage m l [] t) :
    ∃ u : Tree, u.isLeaf = false ∧ u.label = l.label ∧ u.IsClean ∧
      t = u.markedBelow m l.ancestors := by
  obtain ⟨kids, hkids, rfl⟩ := h
  refine ⟨node l.label kids, by simpa using hkids.ne_nil, rfl, ?_,
    (markedBelow_eq_stage hkids.ne_nil).symm⟩
  exact (isClean_node hkids.ne_nil).mpr
    ⟨l.clean _ (by simp), hkids.words_alone, hkids.clean⟩

theorem isStage_word {word : String} : IsStage m l [] (node l.marked [leaf word]) := by
  refine ⟨[leaf word], ⟨by simp, ?_, by simp [WordsAlone], by simp⟩, rfl⟩
  simpa using isClean_of_isLeaf rfl

theorem isStage_only {a : String} {ha : Label.IsClean a} (h : IsStage m (l.child m a ha) [] t) :
    IsStage m l [] (node l.marked [t]) := by
  obtain ⟨t', hleaf, -, hclean, rfl⟩ := h.exists_marked
  exact ⟨[t'], ⟨by simp, by simpa using hclean, by simp [WordsAlone], by simp⟩, rfl⟩

theorem isStage_last {a b : String} {ha : Label.IsClean a} {hb : Label.IsClean b}
    (ht : IsStage m (l.child m a ha) [] t) (hu : IsStage m (l.child m b hb) [] u) :
    IsStage m l history (node (Label.stage l.marked m.horizontal history) [t, u]) := by
  obtain ⟨t', htleaf, -, htclean, rfl⟩ := ht.exists_marked
  obtain ⟨u', huleaf, -, huclean, rfl⟩ := hu.exists_marked
  refine ⟨[t', u'], ⟨by simp, by simp [htclean, huclean], ?_, by simp⟩, rfl⟩
  exact wordsAlone_of_forall (by simp [htleaf, huleaf])

theorem isStage_next {a : String} {ha : Label.IsClean a} (ht : IsStage m (l.child m a ha) [] t)
    (hu : IsStage m l (history ++ [a]) u) :
    IsStage m l history (node (Label.stage l.marked m.horizontal history) [t, u]) := by
  obtain ⟨t', htleaf, hlabel, htclean, rfl⟩ := ht.exists_marked
  obtain ⟨kids, hkids, rfl⟩ := hu
  obtain rfl : t'.label = a := hlabel
  have hlength := hkids.two_le (by simp)
  match kids with
  | [] | [_] => simp at hlength
  | second :: third :: rest =>
    refine ⟨t' :: second :: third :: rest, ⟨by simp, ?_, ?_, by simp⟩, stage_cons.symm⟩
    · exact List.forall_mem_cons.mpr ⟨htclean, hkids.clean⟩
    · exact wordsAlone_of_forall (List.forall_mem_cons.mpr
        ⟨htleaf, fun v hv => (hkids.label hlength hv).1⟩)

end Tree

namespace Derives

variable [Score σ] [Probability π σ] {rules : Rules σ} {lexicon : Lexicon π}
  {sentence : List String} {c : Constituent} {score : σ}

/-- The label of a constituent tells how whatever derives it is marked. -/
theorem isStage (hmarks : ReadsMarks m rules lexicon.tags)
    (h : Derives rules lexicon sentence c t score) (hhistory : ∀ x ∈ history, Label.IsClean x)
    (hc : c.label = Label.stage l.marked m.horizontal history) : Tree.IsStage m l history t := by
  induction h generalizing l history with
  | @tag i word tag score hword hscore =>
    obtain ⟨l', htag⟩ := hmarks.tag tag (Lexicon.mem_tags_of_tagScore? hscore)
    obtain ⟨rfl, rfl⟩ := Lineage.eq_of_stage_eq_marked hhistory (hc.symm.trans htag)
    rw [htag]
    exact Tree.isStage_word
  | @unary rule span t score hrule child ih =>
    obtain ⟨l', a, ha, hparent, hchild⟩ := (hmarks.unary rule hrule).unary_cases
    obtain ⟨rfl, rfl⟩ := Lineage.eq_of_stage_eq_marked hhistory (hc.symm.trans hparent)
    rw [hparent]
    exact Tree.isStage_only (ih (by simp) (hchild.trans Label.stage_nil.symm))
  | @binary rule i k j t u x y hrule left right ihl ihr =>
    obtain ⟨l', history', a, ha, hhistory', hparent, hleft, hright⟩ :=
      (hmarks.binary rule hrule).binary_cases
    obtain ⟨rfl, hsame⟩ := Lineage.stage_injective hhistory hhistory' (hc.symm.trans hparent)
    have ht := ihl (by simp) (hleft.trans Label.stage_nil.symm)
    rw [hparent, ← hsame.stage_eq]
    rcases hright with ⟨b, hb, hright⟩ | hright
    · exact Tree.isStage_last ht (ihr (by simp) (hright.trans Label.stage_nil.symm))
    · -- The rule may come from another history, of which the label remembers the same.
      have hu := ihr (List.forall_mem_append.mpr ⟨hhistory, by simpa using ha⟩)
        (hright.trans (hsame.concat a).stage_eq.symm)
      exact Tree.isStage_next ht hu

theorem exists_marked (hmarks : ReadsMarks m rules lexicon.tags)
    (h : Derives rules lexicon sentence c t score) (hc : Label.IsClean c.label) :
    ∃ u : Tree, u.isLeaf = false ∧ u.label = c.label ∧ u.IsClean ∧ t = u.markedBelow m [] :=
  Tree.IsStage.exists_marked (l := .root c.label hc)
    (h.isStage hmarks (by simp) (Label.withAncestors_nil.symm.trans Label.stage_nil.symm))

end Derives

end Constituency

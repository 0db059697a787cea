import Constituency.Proofs.TrainingTrees
import Constituency.Proofs.UnknownWords

/-!
# Derivations over single words

Over a single word there is nothing but a tag and unary rules. Without detours these are as many as
there are labels, so that what a trained grammar derives there may happen.
-/

namespace Constituency

variable {π σ : Type}

theorem card_nodeLabels_le {trees : List Tree} :
    (nodeLabels trees).card ≤ (trees.flatMap Tree.subtrees).length :=
  calc (nodeLabels trees).card
      ≤ (((trees.flatMap Tree.subtrees).filter (!·.isLeaf)).map Tree.label).length :=
        List.toFinset_card_le _
    _ = ((trees.flatMap Tree.subtrees).filter (!·.isLeaf)).length := List.length_map _
    _ ≤ (trees.flatMap Tree.subtrees).length := List.length_filter_le _ _

namespace Tree

variable {a : String} {t : Tree}

/-- The labels of the nodes of a tree, from the top down. -/
def spine (t : Tree) : List String :=
  (t.subtrees.filter (!·.isLeaf)).map label

theorem spine_unary : (node a [t]).spine = a :: t.spine := by
  simp [spine]

end Tree

section Derivations

variable [Score σ] [Probability π σ] {rules : Rules σ} {lexicon : Lexicon π}
  {sentence : List String} {c : Constituent} {t : Tree} {score : σ}

namespace Derives

/-- No binary rule splits a single word. -/
theorem ne_of_splits {a b : String} {i j k : Nat} {u : Tree} {x y : σ}
    (left : Derives rules lexicon sentence ⟨a, ⟨i, k⟩⟩ t x)
    (right : Derives rules lexicon sentence ⟨b, ⟨k, j⟩⟩ u y) : j ≠ i + 1 := by
  have hleft : i < k := left.span_bounds.1
  have hright : k < j := right.span_bounds.1
  omega

/-- Over a single word a derivation has a derivation of each of its nodes. -/
theorem exists_below (h : Derives rules lexicon sentence c t score)
    (hc : c.span.stop = c.span.start + 1) {stop : String} (hstop : stop ∈ t.spine) :
    ∃ u x, Derives rules lexicon sentence ⟨stop, c.span⟩ u x ∧ u.spine <:+ t.spine := by
  induction h with
  | tag hword hscore =>
    obtain rfl := List.mem_singleton.mp hstop
    exact ⟨_, _, .tag hword hscore, List.suffix_rfl⟩
  | unary hrule child ih =>
    rw [Tree.spine_unary] at hstop ⊢
    rcases List.mem_cons.mp hstop with rfl | hstop
    · exact ⟨_, _, .unary hrule child, by rw [Tree.spine_unary]⟩
    · obtain ⟨u, x, hderives, hsuffix⟩ := ih hc hstop
      exact ⟨u, x, hderives, hsuffix.trans (List.suffix_cons _ _)⟩
  | binary _ left right => exact absurd hc (left.ne_of_splits right)

/-- A detour can be left out. -/
theorem exists_nodup (h : Derives rules lexicon sentence c t score)
    (hc : c.span.stop = c.span.start + 1) :
    ∃ u x, Derives rules lexicon sentence c u x ∧ u.spine.Nodup := by
  induction h with
  | tag hword hscore => exact ⟨_, _, .tag hword hscore, List.nodup_singleton _⟩
  | @unary rule span _ _ hrule _ ih =>
    obtain ⟨u, x, hderives, hnodup⟩ := ih hc
    by_cases hmem : rule.parent ∈ u.spine
    · obtain ⟨u', x', hderives', hsuffix⟩ := hderives.exists_below hc hmem
      exact ⟨u', x', hderives', hnodup.sublist hsuffix.sublist⟩
    · refine ⟨_, _, .unary hrule hderives, ?_⟩
      rw [Tree.spine_unary]
      exact List.nodup_cons.mpr ⟨hmem, hnodup⟩
  | binary _ left right => exact absurd hc (left.ne_of_splits right)

theorem label_mem {labels : Finset String} (hlabels : rules.LabelsIn lexicon.tags labels)
    (h : Derives rules lexicon sentence c t score) : c.label ∈ labels := by
  cases h with
  | tag _ hscore => exact hlabels.tag _ (Lexicon.mem_tags_of_tagScore? hscore)
  | unary hrule _ => exact hlabels.unary _ hrule
  | binary hrule _ _ => exact hlabels.binary _ hrule

end Derives

/-- Over a single word, a derivation of a trained grammar is worth a tagging and a share for each
rule. -/
theorem Derives.wordSum {rules : RuleIndex σ} {trees : List Tree} {limit : Nat}
    {openClass : Bool} (hreckons : ReckonsUnknown π limit)
    (hlimit : (trees.flatMap Tree.subtrees).length ≤ limit) (hestimates : rules.Estimates π trees)
    (h : Derives rules.toRules (((TagCounts.ofTrees trees).withOpenClass openClass).toLexicon π)
      sentence c t score) (hc : c.span.stop = c.span.start + 1) :
    WordSum π limit t.spine.length score := by
  induction h with
  | tag _ hscore =>
    obtain ⟨hmay, rfl⟩ := (TagCounts.tagScore?_eq_some_iff hreckons
      (length_flatMap_taggings_le hlimit)).mp hscore
    exact .tag (TagCounts.score_of_mayTag hreckons (length_flatMap_taggings_le hlimit) hmay)
  | @unary rule _ _ _ hrule _ ih =>
    obtain ⟨hp, hscore⟩ := (hestimates.unary rule).mp hrule
    obtain ⟨hpos, hle, hwhole⟩ := count_bounds Production.parent hp
      (length_countedProductions_le.trans hlimit)
    rw [Tree.spine_unary, List.length_cons, hscore]
    exact .rule (ih hc) hpos hle hwhole
  | binary _ left right => exact absurd hc (left.ne_of_splits right)

/-- Over single words, trained grammars derive nothing through impossible parts alone. -/
theorem possibleOverWords_of_estimates {rules : RuleIndex σ} {trees : List Tree} {openClass : Bool}
    (hreckons : ReckonsUnknown π (trees.flatMap Tree.subtrees).length)
    (hestimates : rules.Estimates π trees) :
    PossibleOverWords rules.toRules
      (((TagCounts.ofTrees trees).withOpenClass openClass).toLexicon π) sentence := by
  intro label i h
  obtain ⟨_, _, h⟩ := h
  obtain ⟨t, score, hderives, hnodup⟩ := h.exists_nodup rfl
  have hgrammar : rules.toRules.LabelsIn (((TagCounts.ofTrees trees).withOpenClass
      openClass).toLexicon π).tags (nodeLabels trees) := labelsIn_nodeLabels hestimates
  have hlabels : ∀ x ∈ t.spine, x ∈ nodeLabels trees := by
    intro x hx
    obtain ⟨_, _, hbelow, -⟩ := hderives.exists_below rfl hx
    exact hbelow.label_mem hgrammar
  have hlength : t.spine.length ≤ (trees.flatMap Tree.subtrees).length :=
    calc t.spine.length = t.spine.toFinset.card := (List.toFinset_card_of_nodup hnodup).symm
      _ ≤ (nodeLabels trees).card :=
        Finset.card_le_card fun x hx => hlabels x (List.mem_toFinset.mp hx)
      _ ≤ (trees.flatMap Tree.subtrees).length := card_nodeLabels_le
  exact ⟨score, ⟨t, hderives⟩, hreckons.possible_wordSum
    (hderives.wordSum hreckons (Nat.le_refl _) hestimates rfl) hlength⟩

end Derivations

end Constituency

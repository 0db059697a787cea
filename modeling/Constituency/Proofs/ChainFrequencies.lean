import Mathlib.Algebra.BigOperators.Group.List.Basic
import Mathlib.Tactic.Ring
import Constituency.Proofs.ChainProductions
import Constituency.Proofs.Shares

/-!
# Frequencies of chains

Splitting productions into chains keeps the estimates. A label of a chain occurs as often as the
rule that leads to it, so that in the product of the shares along a chain all counts cancel but
those of the whole production and of its parent.
-/

namespace Constituency

section Frequency

variable {productions productions' : List Production} {p : Production}

/-- The share of a production among those with its parent. -/
def relativeFrequency (productions : List Production) (p : Production) : ℚ :=
  productions.count p / (productions.map Production.parent).count p.parent

theorem relativeFrequency_mul : relativeFrequency productions p *
    (productions.map Production.parent).count p.parent = productions.count p := by
  refine div_mul_cancel_of_imp fun hzero => ?_
  have hle : productions.count p ≤ (productions.map Production.parent).count p.parent :=
    List.count_le_count_map
  have hnone : (productions.map Production.parent).count p.parent = 0 := Nat.cast_eq_zero.mp hzero
  exact Nat.cast_eq_zero.mpr (Nat.le_zero.mp (hnone ▸ hle))

theorem relativeFrequency_perm (h : productions.Perm productions') :
    relativeFrequency productions p = relativeFrequency productions' p := by
  rw [relativeFrequency, relativeFrequency, h.count_eq, (h.map _).count_eq]

/-- Splitting things into lists keeps a count, if each list has what is counted where the thing it
is made of counts. -/
theorem count_flatMap_eq {α β γ : Type} [DecidableEq β] [DecidableEq γ] {l : List α}
    {f : α → List β} {g : α → γ} {x : β} {y : γ}
    (h : ∀ a ∈ l, (f a).count x = if g a = y then 1 else 0) :
    (l.flatMap f).count x = (l.map g).count y := by
  induction l with
  | nil => rfl
  | cons a l ih =>
    obtain ⟨ha, hl⟩ := List.forall_mem_cons.mp h
    rw [List.flatMap_cons, List.count_append, ha, ih hl, List.map_cons, List.count_cons,
      Nat.add_comm]
    simp

end Frequency

section Chain

variable {parent a b : String} {history children front last : List String}

/-- The labels of a production can be told from synthetic ones, and from each other when they are
joined. -/
def Production.IsJoinable (p : Production) : Prop :=
  ∀ x ∈ p.parent :: p.children, Label.IsJoinable x

namespace Production.IsJoinable

theorem stage_inj (hp : IsJoinable ⟨parent, history ++ children⟩)
    (hq : IsJoinable ⟨a, front ++ last⟩) :
    Label.stage parent none history = Label.stage a none front ↔ parent = a ∧ history = front := by
  constructor
  · exact Label.stage_none_injective
      (fun x hx => hp x (List.cons_subset_cons _ (List.subset_append_left _ _) hx))
      (fun x hx => hq x (List.cons_subset_cons _ (List.subset_append_left _ _) hx))
  · intro h
    obtain ⟨rfl, rfl⟩ := h
    rfl

theorem stage_notMem (hp : IsJoinable ⟨parent, history ++ children⟩) :
    Label.stage a none (front ++ [b]) ∉ children := by
  intro h
  rw [Label.stage_concat] at h
  exact (hp _ (List.mem_cons_of_mem _ (List.mem_append_right _ h))).ne_synthetic rfl

end Production.IsJoinable

/-- A chain starts at its parent and does not come back to it. -/
theorem count_parent_chainProductions
    (hp : Production.IsJoinable ⟨parent, history ++ children⟩) (ha : Label.IsJoinable a) :
    ((chainProductions parent none history children).map Production.parent).count a =
      if parent = a ∧ history = [] then 1 else 0 := by
  have hq : Production.IsJoinable ⟨a, [] ++ []⟩ := by simpa [Production.IsJoinable] using ha
  fun_induction chainProductions parent none history children with
  | case1 history first second third rest ih =>
    have hstage := hp.stage_inj hq
    rw [Label.stage_nil] at hstage
    rw [List.map_cons, List.count_cons, ih (by simpa using hp)]
    simp [hstage]
  | case2 history children _ =>
    have hstage := hp.stage_inj hq
    rw [Label.stage_nil] at hstage
    simp [List.count_singleton, hstage]

/-- Each synthetic label of a chain comes up in the rule that leads to it, and in the one that goes
on from it. -/
theorem count_stage_chainProductions
    (hp : Production.IsJoinable ⟨parent, history ++ children⟩)
    (hq : Production.IsJoinable ⟨a, front ++ [b]⟩) :
    ((chainProductions parent none history children).map Production.parent).count
        (Label.stage a none (front ++ [b])) =
      (if parent = a ∧ history = front ++ [b] then 1 else 0) +
        (chainProductions parent none history children).count
          ⟨Label.stage a none front, [b, Label.stage a none (front ++ [b])]⟩ := by
  have hq' : Production.IsJoinable ⟨a, (front ++ [b]) ++ []⟩ := by simpa using hq
  fun_induction chainProductions parent none history children with
  | case1 history first second third rest ih =>
    have hnext : Production.IsJoinable
        ⟨parent, (history ++ [first]) ++ second :: third :: rest⟩ := by
      simpa using hp
    have hhere := hp.stage_inj hq'
    have hthere := hnext.stage_inj hq'
    have hrule : (⟨Label.stage parent none history,
          [first, Label.stage parent none (history ++ [first])]⟩ : Production) =
        ⟨Label.stage a none front, [b, Label.stage a none (front ++ [b])]⟩ ↔
          parent = a ∧ history ++ [first] = front ++ [b] := by
      simp only [Production.mk.injEq, List.cons.injEq, and_true, hp.stage_inj hq, hthere,
        List.append_singleton_inj]
      tauto
    rw [List.map_cons, List.count_cons, ih hnext, List.count_cons]
    simp only [beq_iff_eq, hhere, hrule]
    omega
  | case2 history children hshort =>
    have hhere := hp.stage_inj hq'
    have hrule : (⟨Label.stage parent none history, children⟩ : Production) ≠
        ⟨Label.stage a none front, [b, Label.stage a none (front ++ [b])]⟩ := fun heq =>
      hp.stage_notMem ((Production.mk.inj heq).2 ▸ List.mem_cons_of_mem b List.mem_cons_self)
    rw [List.map_singleton, List.count_singleton, List.count_singleton]
    simp only [beq_iff_eq, hhere, if_neg hrule, Nat.add_zero]

/-- The last rule of a chain tells the whole production. -/
theorem count_last_chainProductions
    (hp : Production.IsJoinable ⟨parent, history ++ children⟩)
    (hlength : history = [] ∨ 2 ≤ children.length)
    (hq : Production.IsJoinable ⟨a, front ++ last⟩) (hne : last ≠ []) (hshort : last.length ≤ 2)
    (hlength' : front = [] ∨ 2 ≤ last.length) :
    (chainProductions parent none history children).count ⟨Label.stage a none front, last⟩ =
      if parent = a ∧ history ++ children = front ++ last then 1 else 0 := by
  fun_induction chainProductions parent none history children with
  | case1 history first second third rest ih =>
    have hnext : Production.IsJoinable
        ⟨parent, (history ++ [first]) ++ second :: third :: rest⟩ := by
      simpa using hp
    have hrule : (⟨Label.stage parent none history,
        [first, Label.stage parent none (history ++ [first])]⟩ : Production) ≠
          ⟨Label.stage a none front, last⟩ := fun heq =>
      hq.stage_notMem ((Production.mk.inj heq).2 ▸ List.mem_cons_of_mem first List.mem_cons_self)
    rw [List.count_cons, ih hnext (by simp)]
    simp only [beq_iff_eq, if_neg hrule, Nat.add_zero, List.append_assoc, List.singleton_append]
  | case2 history children hchildren =>
    have hshort' : children.length ≤ 2 := length_le_two hchildren
    have hends : history = front ∧ children = last ↔ history ++ children = front ++ last := by
      constructor
      · intro h
        rw [h.1, h.2]
      · intro h
        have hsum := congrArg List.length h
        rw [List.length_append, List.length_append] at hsum
        have hpos := List.length_pos_iff.mpr hne
        have hsplit := hlength.imp_left List.length_eq_zero_iff.mpr
        have hsplit' := hlength'.imp_left List.length_eq_zero_iff.mpr
        exact List.append_inj' h (by omega)
    simp only [List.count_singleton, beq_iff_eq, Production.mk.injEq, hp.stage_inj hq, and_assoc,
      hends]

variable {known : List Production} (hknown : ∀ p ∈ known, p.IsJoinable)
include hknown

theorem count_parent_split (ha : Label.IsJoinable a) :
    ((known.flatMap (Production.chain none)).map Production.parent).count a =
      (known.map Production.parent).count a := by
  rw [List.map_flatMap]
  refine count_flatMap_eq fun p hp => ?_
  have hp : Production.IsJoinable ⟨p.parent, [] ++ p.children⟩ := hknown p hp
  simpa [Production.chain] using count_parent_chainProductions hp ha

theorem count_stage_split (hq : Production.IsJoinable ⟨a, front ++ [b]⟩) :
    ((known.flatMap (Production.chain none)).map Production.parent).count
        (Label.stage a none (front ++ [b])) =
      (known.flatMap (Production.chain none)).count
        ⟨Label.stage a none front, [b, Label.stage a none (front ++ [b])]⟩ := by
  rw [List.map_flatMap, List.count_flatMap, List.count_flatMap]
  refine congrArg List.sum (List.map_congr_left fun p hp => ?_)
  have hp : Production.IsJoinable ⟨p.parent, [] ++ p.children⟩ := hknown p hp
  simpa [Production.chain] using count_stage_chainProductions hp hq

theorem count_last_split (hq : Production.IsJoinable ⟨a, front ++ last⟩) (hne : last ≠ [])
    (hshort : last.length ≤ 2) (hlength : front = [] ∨ 2 ≤ last.length) :
    (known.flatMap (Production.chain none)).count ⟨Label.stage a none front, last⟩ =
      known.count ⟨a, front ++ last⟩ := by
  have hcount := count_flatMap_eq (f := Production.chain none) (g := id)
    (x := ⟨Label.stage a none front, last⟩) (y := ⟨a, front ++ last⟩) fun p hp => by
      obtain ⟨parent, children⟩ := p
      have hp : Production.IsJoinable ⟨parent, [] ++ children⟩ := hknown _ hp
      simpa [Production.chain] using
        count_last_chainProductions hp (.inl rfl) hq hne hshort hlength
  simpa using hcount

/-- The frequencies along the rest of a chain are together that of the whole production, among the
chains that come as far. -/
theorem prod_relativeFrequency_mul (hq : Production.IsJoinable ⟨a, history ++ children⟩)
    (hne : children ≠ []) (hlength : history = [] ∨ 2 ≤ children.length) :
    ((chainProductions a none history children).map
        (relativeFrequency (known.flatMap (Production.chain none)))).prod *
      ((known.flatMap (Production.chain none)).map Production.parent).count
        (Label.stage a none history) = known.count ⟨a, history ++ children⟩ := by
  generalize hcounted : known.flatMap (Production.chain none) = counted
  fun_induction chainProductions a none history children with
  | case1 history first second third rest ih =>
    have hnext : Production.IsJoinable ⟨a, (history ++ [first]) ++ second :: third :: rest⟩ := by
      simpa using hq
    have hfirst : Production.IsJoinable ⟨a, history ++ [first]⟩ := fun x hx =>
      hnext x (List.cons_subset_cons _ (List.subset_append_left _ _) hx)
    have hrest := ih hnext (by simp) (by simp)
    rw [← hcounted, count_stage_split hknown hfirst, hcounted, ← relativeFrequency_mul,
      List.append_assoc, List.singleton_append] at hrest
    rw [List.map_cons, List.prod_cons, ← hrest]
    ring
  | case2 history children hchildren =>
    rw [List.map_singleton, List.prod_singleton,
      ← count_last_split hknown hq hne (length_le_two hchildren) hlength, hcounted]
    exact relativeFrequency_mul

end Chain

section Estimated

variable {trees treebank : List Tree} {rules : RuleIndex Likelihood}

/-- The probability of the rule with these labels. Where there is none it is zero. -/
def RuleIndex.probability (rules : RuleIndex Likelihood) (p : Production) : ℚ :=
  match p.children with
  | [child] => ((rules.toRules.unaryScore? p.parent child).map Likelihood.value).getD 0
  | [left, right] => ((rules.toRules.binaryScore? p.parent left right).map Likelihood.value).getD 0
  | _ => 0

theorem value_log_share (p : Production) :
    (Probability.log (p.share ℚ trees) : Likelihood).value =
      relativeFrequency (countedProductions trees) p := by
  have hle : relativeFrequency (countedProductions trees) p ≤ 1 :=
    div_le_one_of_le₀ (Nat.cast_le.mpr List.count_le_count_map) (Nat.cast_nonneg _)
  have hnonneg : 0 ≤ relativeFrequency (countedProductions trees) p :=
    div_nonneg (Nat.cast_nonneg _) (Nat.cast_nonneg _)
  change max 0 (min (relativeFrequency (countedProductions trees) p) 1) = _
  rw [min_eq_left hle, max_eq_right hnonneg]

theorem relativeFrequency_eq_zero {productions : List Production} {p : Production}
    (h : p ∉ productions) : relativeFrequency productions p = 0 := by
  rw [relativeFrequency, List.count_eq_zero.mpr h, Nat.cast_zero, zero_div]

/-- The estimates of a treebank are the frequencies of its productions. -/
theorem RuleIndex.Estimates.probability_eq (h : rules.Estimates ℚ trees) {p : Production}
    (hne : p.children ≠ []) (hlength : p.children.length ≤ 2) :
    rules.probability p = relativeFrequency (countedProductions trees) p := by
  obtain ⟨parent, children⟩ := p
  match children with
  | [] => simp at hne
  | [child] =>
    simp only [RuleIndex.probability, h.unaryScore?_eq]
    split
    · exact value_log_share _
    · exact (relativeFrequency_eq_zero ‹_›).symm
  | [left, right] =>
    simp only [RuleIndex.probability, h.binaryScore?_eq]
    split
    · exact value_log_share _
    · exact (relativeFrequency_eq_zero ‹_›).symm
  | _ :: _ :: _ :: _ => simp at hlength

/-- What is counted in marked trees, are the productions of the trees, split. -/
theorem countedProductions_perm (htagged : ∀ t ∈ treebank, t.IsTagged) :
    (countedProductions (treebank.map (Tree.markedBelow {} []))).Perm
      ((treebank.flatMap Tree.productions).flatMap (Production.chain none)) := by
  have hshort : ∀ p ∈ (treebank.map (Tree.markedBelow {} [])).flatMap Tree.productions,
      p.children.length ≤ 2 := by
    intro p hp
    obtain ⟨d, hd, hp⟩ := List.mem_flatMap.mp hp
    obtain ⟨t, -, rfl⟩ := List.mem_map.mp hd
    obtain ⟨u, hu, -, -, rfl⟩ := Tree.mem_productions.mp hp
    simpa [Tree.production] using Tree.isBinary_markedBelow t u hu
  rw [countedProductions, List.filter_eq_self.mpr fun p hp => decide_eq_true (hshort p hp),
    List.flatMap_map, List.flatMap_assoc]
  exact .flatMap_left _ fun t ht => (htagged t ht).productions_markedBelow rfl

theorem isJoinable_of_mem_productions (htagged : ∀ t ∈ treebank, t.IsTagged)
    (hlabels : ∀ t ∈ treebank, ∀ u ∈ t.subtrees, u.isLeaf = false → Label.IsJoinable u.label) :
    ∀ p ∈ treebank.flatMap Tree.productions, p.IsJoinable := by
  intro p hp x hx
  obtain ⟨t, ht, hp⟩ := List.mem_flatMap.mp hp
  obtain ⟨u, hu, hleaf, rfl⟩ := (htagged t ht).exists_of_mem_productions hp hx
  exact hlabels t ht u hu hleaf

/-- A node over tags, of no word in particular. -/
def overTags (parent : String) (tags : List String) : Tree :=
  .node parent (tags.map fun tag => .node tag [.leaf ""])

theorem isTagged_overTags (parent : String) (tags : List String) :
    (overTags parent tags).IsTagged := by
  refine Tree.isTagged_node.mpr ⟨Tree.wordsAlone_of_forall (by simp), fun t ht => ?_⟩
  obtain ⟨tag, -, rfl⟩ := List.mem_map.mp ht
  simp [Tree.IsTagged, Tree.WordsAlone, Tree.leaf]

theorem productions_overTags {parent : String} {tags : List String} (hne : tags ≠ []) :
    (overTags parent tags).productions = [⟨parent, tags⟩] := by
  have htag (tag : String) : (Tree.node tag [.leaf ""]).productions = [] := rfl
  rw [overTags, Tree.productions_node (by simpa using hne) (by simp)]
  simp [List.flatMap_map, htag, Function.comp_def]

/-- Splitting keeps what is estimated of a treebank: the rules that a production is split into have
together the probability that the production has among those with its parent. -/
theorem prod_probability_chain (htagged : ∀ t ∈ treebank, t.IsTagged)
    (hlabels : ∀ t ∈ treebank, ∀ u ∈ t.subtrees, u.isLeaf = false → Label.IsJoinable u.label) :
    ∃ trees rules, treebank.mapM (Tree.markovize {}) = .ok trees ∧
      RuleIndex.ofTrees ℚ trees = .ok rules ∧
      ∀ parent ∈ (treebank.flatMap Tree.productions).map Production.parent,
        ∀ children ≠ [], (∀ x ∈ children, Label.IsJoinable x) →
          ∃ d, (overTags parent children).markovize {} = .ok d ∧
            (d.productions.map rules.probability).prod =
              ((treebank.flatMap Tree.productions).count ⟨parent, children⟩ : ℚ) /
                ((treebank.flatMap Tree.productions).map Production.parent).count parent := by
  obtain ⟨rules, hrules, hestimates⟩ := RuleIndex.exists_ofTrees (reckons_rat _)
    (le_refl (countedProductions (treebank.map (Tree.markedBelow {} []))).length)
  have hmarked (t : Tree) : t.markovize {} = .ok (t.markedBelow {} []) :=
    Tree.markovize_eq_ok.mpr ⟨Nat.one_ne_zero, rfl⟩
  refine ⟨_, rules, mapM_eq_ok_map fun t _ => hmarked t, hrules, ?_⟩
  intro parent hparent children hne hchildren
  refine ⟨_, hmarked _, ?_⟩
  have hknown := isJoinable_of_mem_productions htagged hlabels
  have hparent' : Label.IsJoinable parent := by
    obtain ⟨p, hp, rfl⟩ := List.mem_map.mp hparent
    exact hknown p hp _ List.mem_cons_self
  have hchain := (isTagged_overTags parent children).productions_markedBelow (m := {}) rfl
  rw [productions_overTags hne, List.flatMap_singleton] at hchain
  have hprobability : ∀ p ∈ Production.chain none ⟨parent, children⟩,
      rules.probability p = relativeFrequency
        ((treebank.flatMap Tree.productions).flatMap (Production.chain none)) p := by
    intro p hp
    obtain ⟨hpne, hlength⟩ := children_of_mem_chainProductions hne hp
    rw [hestimates.probability_eq hpne hlength,
      relativeFrequency_perm (countedProductions_perm htagged)]
  have hjoinable : Production.IsJoinable ⟨parent, [] ++ children⟩ :=
    List.forall_mem_cons.mpr ⟨hparent', hchildren⟩
  have hproduct := prod_relativeFrequency_mul hknown hjoinable hne (.inl rfl)
  rw [Label.stage_nil, count_parent_split hknown hparent'] at hproduct
  rw [(hchain.map rules.probability).prod_eq, List.map_congr_left hprobability]
  refine eq_div_of_mul_eq (Nat.cast_ne_zero.mpr ?_) hproduct
  exact (List.count_pos_iff.mpr hparent).ne'

/-- Productions that begin alike, with labels that look like the rest of a synthetic one. -/
def prefixTreebank : List Tree :=
  [overTags "X" ["A-", ">", "", "D"], overTags "X" ["A-", ">", "", "E"],
    overTags "X" ["A-", ">", ""], overTags "X" ["A-"]]

theorem prod_probability_chain_prefix : ∃ trees rules d,
    prefixTreebank.mapM (Tree.markovize {}) = .ok trees ∧
      RuleIndex.ofTrees ℚ trees = .ok rules ∧
      (overTags "X" ["A-", ">", "", "D"]).markovize {} = .ok d ∧
      (d.productions.map rules.probability).prod = 1 / 4 := by
  have htagged : ∀ t ∈ prefixTreebank, t.IsTagged := by decide +kernel
  obtain ⟨trees, rules, htrees, hrules, hchain⟩ :=
    prod_probability_chain htagged (by decide +kernel)
  obtain ⟨d, hd, hproduct⟩ := hchain "X" (by decide +kernel) ["A-", ">", "", "D"] (by simp)
    (by decide +kernel)
  have hcount : (prefixTreebank.flatMap Tree.productions).count ⟨"X", ["A-", ">", "", "D"]⟩ = 1 ∧
      ((prefixTreebank.flatMap Tree.productions).map Production.parent).count "X" = 4 := by
    decide +kernel
  refine ⟨trees, rules, d, htrees, hrules, hd, hproduct.trans ?_⟩
  rw [hcount.1, hcount.2]
  norm_num

end Estimated

end Constituency

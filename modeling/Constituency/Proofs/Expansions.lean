import Mathlib.Algebra.BigOperators.Group.List.Lemmas
import Mathlib.Algebra.BigOperators.Ring.List
import Mathlib.Algebra.Order.BigOperators.Group.Finset
import Constituency.Proofs.ChainFrequencies
import Constituency.Proofs.TrainingTrees

/-!
# Expansions of labels

Rules and taggings are estimated apart, each from its own counts. The rules with the same parent are
worth exactly one together, and so are the known words under the same tag. A label that stands over
words here and over phrases there has both.
-/

namespace Constituency

/-- What the known words are worth together under a tag. -/
def TagCounts.mass (counts : TagCounts) (tag : String) : ℚ :=
  (counts.words.keys.map fun word => counts.score word tag).sum

section Sums

variable {α β : Type} [DecidableEq α] [DecidableEq β] {l keys : List α} {f : α → β} {b : β}

/-- The members of a list with the same value, counted one by one. -/
theorem sum_count_eq_count (hnodup : keys.Nodup) (hvalue : ∀ a ∈ keys, f a = b)
    (hall : ∀ a ∈ l, f a = b → a ∈ keys) :
    (keys.map fun a => l.count a).sum = (l.map f).count b := by
  let alike := l.filter (f · = b)
  have hcount : keys.map (fun a => l.count a) = keys.map fun a => alike.count a := by
    apply List.map_congr_left
    intro a ha
    exact (List.count_filter (p := fun a => f a = b) (decide_eq_true (hvalue a ha))).symm
  have hsum : ∑ a ∈ keys.toFinset, (alike : Multiset α).count a = (alike : Multiset α).card := by
    apply Multiset.sum_count_eq_card
    intro a ha
    obtain ⟨ha, hfa⟩ := List.mem_filter.mp (Multiset.mem_coe.mp ha)
    exact List.mem_toFinset.mpr (hall a ha (of_decide_eq_true hfa))
  calc (keys.map fun a => l.count a).sum = (keys.map fun a => alike.count a).sum := by rw [hcount]
    _ = ∑ a ∈ keys.toFinset, alike.count a := (List.sum_toFinset _ hnodup).symm
    _ = alike.length := by simpa using hsum
    _ = (l.map f).count b := by
      rw [List.count, List.countP_map, List.countP_eq_length_filter]
      rfl

/-- The shares of the different members with the same value add up to one, if there are any. -/
theorem sum_count_div_count (hnodup : keys.Nodup) (hvalue : ∀ a ∈ keys, f a = b)
    (hall : ∀ a ∈ l, f a = b → a ∈ keys) :
    (keys.map fun a => (l.count a : ℚ) / (l.map f).count b).sum =
      if b ∈ l.map f then 1 else 0 := by
  have hsum : (keys.map fun a => (l.count a : ℚ) / (l.map f).count b).sum =
      ((l.map f).count b : ℚ) / (l.map f).count b := by
    simp only [div_eq_mul_inv, List.sum_map_mul_right]
    rw [← sum_count_eq_count hnodup hvalue hall, Nat.cast_list_sum, List.map_map]
    rfl
  rw [hsum]
  split
  · rename_i hb
    exact div_self (Nat.cast_ne_zero.mpr (List.count_pos_iff.mpr hb).ne')
  · rename_i hb
    rw [List.count_eq_zero.mpr hb, Nat.cast_zero, zero_div]

end Sums

namespace RuleIndex

variable {rules : RuleIndex Likelihood} {parent : String}

/-- What the rules with a parent are worth together. -/
def mass (rules : RuleIndex Likelihood) (parent : String) : ℚ :=
  ((rules.byChild.values.flatten.filter (·.parent = parent)).map (·.score.value)).sum +
    ((rules.byLeft.values.flatten.filter (·.parent = parent)).map (·.score.value)).sum

/-- Whether a label is the parent of a rule. -/
def HasParent (rules : RuleIndex Likelihood) (parent : String) : Prop :=
  (∃ rule ∈ rules.byChild.values.flatten, rule.parent = parent) ∨
    ∃ rule ∈ rules.byLeft.values.flatten, rule.parent = parent

instance : Decidable (rules.HasParent parent) :=
  inferInstanceAs (Decidable (_ ∨ _))

theorem hasParent_iff : rules.HasParent parent ↔
    (∃ rule ∈ rules.toRules.unary, rule.parent = parent) ∨
      ∃ rule ∈ rules.toRules.binary, rule.parent = parent := by
  simp only [HasParent, toRules, unaryRules, binaryRules, List.mem_mergeSort]

@[simp] theorem mass_empty : ({} : RuleIndex Likelihood).mass parent = 0 := by
  have hunary : ({} : RuleIndex Likelihood).byChild.values = [] := rfl
  have hbinary : ({} : RuleIndex Likelihood).byLeft.values = [] := rfl
  rw [mass, hunary, hbinary]
  simp

theorem mass_pushUnary (rule : UnaryRule Likelihood) : (rules.pushUnary rule).mass parent =
    (if rule.parent = parent then rule.score.value else 0) + rules.mass parent := by
  have hperm : (rules.pushUnary rule).byChild.values.flatten.Perm
      (rule :: rules.byChild.values.flatten) := flatten_values_addUnder
  have hunary := (hperm.filter (·.parent = parent)).map (·.score.value)
  rw [mass, hunary.sum_eq, mass, pushUnary]
  split <;> simp [*, add_assoc]

theorem mass_pushBinary (rule : BinaryRule Likelihood) : (rules.pushBinary rule).mass parent =
    (if rule.parent = parent then rule.score.value else 0) + rules.mass parent := by
  have hperm : (rules.pushBinary rule).byLeft.values.flatten.Perm
      (rule :: rules.byLeft.values.flatten) := flatten_values_addUnder
  have hbinary := (hperm.filter (·.parent = parent)).map (·.score.value)
  rw [mass, hbinary.sum_eq, mass, pushBinary]
  split <;> simp [*, add_left_comm]

theorem mass_push {production : Production} (hne : production.children ≠ [])
    (hlength : production.children.length ≤ 2) (score : Likelihood) :
    (rules.push production score).mass parent =
      (if production.parent = parent then score.value else 0) + rules.mass parent := by
  obtain ⟨a, children⟩ := production
  match children with
  | [] => simp at hne
  | [child] => exact mass_pushUnary _
  | [left, right] => exact mass_pushBinary _
  | _ :: _ :: _ :: _ => simp at hlength

/-- Rules for productions are worth what the scores of those with the parent add up to. -/
theorem mass_foldl_push {productions : List Production} {score : Production → Likelihood}
    (h : ∀ p ∈ productions, p.children ≠ [] ∧ p.children.length ≤ 2) :
    ((productions.map fun p => (p, score p)).foldl
        (fun rules item => rules.push item.1 item.2) rules).mass parent =
      ((productions.filter (·.parent = parent)).map fun p => (score p).value).sum +
        rules.mass parent := by
  induction productions generalizing rules with
  | nil => simp
  | cons p productions ih =>
    obtain ⟨⟨hne, hlength⟩, hproductions⟩ := List.forall_mem_cons.mp h
    rw [List.map_cons, List.foldl_cons, ih hproductions, mass_push hne hlength]
    split <;> simp [*, add_left_comm, add_assoc]

end RuleIndex

section Estimated

variable {trees : List Tree}

/-- The production that a rule stands for. -/
def UnaryRule.production {σ : Type} (rule : UnaryRule σ) : Production :=
  ⟨rule.parent, [rule.child]⟩

@[inherit_doc UnaryRule.production]
def BinaryRule.production {σ : Type} (rule : BinaryRule σ) : Production :=
  ⟨rule.parent, [rule.left, rule.right]⟩

theorem children_of_mem_countedProductions {p : Production} (h : p ∈ countedProductions trees) :
    p.children ≠ [] ∧ p.children.length ≤ 2 := by
  obtain ⟨hp, hlength⟩ := List.mem_filter.mp h
  obtain ⟨t, -, hp⟩ := List.mem_flatMap.mp hp
  obtain ⟨u, -, hleaf, -, rfl⟩ := Tree.mem_productions.mp hp
  refine ⟨?_, of_decide_eq_true hlength⟩
  obtain ⟨a, ts⟩ := u
  cases ts with
  | nil => cases hleaf
  | cons t ts => simp [Tree.production]

/-- The rules of the trees with the same parent are worth one together. -/
theorem mass_ofTrees {rules : RuleIndex Likelihood} (h : RuleIndex.ofTrees ℚ trees = .ok rules)
    (parent : String) : rules.mass parent =
      if parent ∈ (countedProductions trees).map Production.parent then 1 else 0 := by
  rw [RuleIndex.ofTrees_eq_ok ((reckons_rat _).shares (Nat.le_refl _))] at h
  obtain rfl := Except.ok.inj h
  have hkeys {p : Production} : p ∈ (tally (countedProductions trees)).keys ↔
      p ∈ countedProductions trees := Std.TreeMap.mem_keys.trans mem_tally
  rw [RuleIndex.mass_foldl_push fun p hp => children_of_mem_countedProductions (hkeys.mp hp),
    RuleIndex.mass_empty, add_zero]
  have hparent : ∀ p ∈ (tally (countedProductions trees)).keys.filter (·.parent = parent),
      p.parent = parent := fun p hp => of_decide_eq_true (List.mem_filter.mp hp).2
  rw [← sum_count_div_count (Std.TreeMap.nodup_keys.filter _) hparent]
  · congr 1
    apply List.map_congr_left
    intro p hp
    rw [value_log_share, relativeFrequency, hparent p hp]
  · intro p hp hp'
    exact List.mem_filter.mpr ⟨hkeys.mpr hp, decide_eq_true hp'⟩

namespace TagCounts

variable {word tag : String}

/-- A known word has its share of the occurrences of every tag, also where that is none. -/
theorem score_of_known (hknown : word ∈ (trees.flatMap Tree.taggings).map Tagging.word)
    (openClass : Bool) (tag : String) :
    (((ofTrees trees).withOpenClass openClass).score word tag : ℚ) =
      Tagging.share ℚ trees ⟨tag, word⟩ := by
  have hnone (h : ⟨tag, word⟩ ∉ trees.flatMap Tree.taggings) :
      Tagging.share ℚ trees ⟨tag, word⟩ = 0 := by
    change ((trees.flatMap Tree.taggings).count ⟨tag, word⟩ : ℚ) / _ = 0
    rw [List.count_eq_zero.mpr h, Nat.cast_zero, zero_div]
  unfold score
  split
  · rw [ofTrees, estimate_ofTaggings, if_pos hknown]
    split
    · rename_i hmem
      obtain ⟨hpos, hle, hlimit⟩ := count_bounds Tagging.tag hmem (Nat.le_refl _)
      exact (reckons_rat _).clamp_share hpos hle hlimit
    · rename_i hmem
      rw [hnone hmem]
      rfl
  · rename_i htag
    refine (hnone fun hmem => htag ?_).symm
    rw [Std.TreeMap.contains_iff_mem]
    exact mem_tally.mpr (List.mem_map_of_mem hmem)

/-- The known words under a tag are worth one together. -/
theorem mass_withOpenClass (trees : List Tree) (openClass : Bool) (tag : String) :
    ((ofTrees trees).withOpenClass openClass).mass tag =
      if tag ∈ ((ofTrees trees).toLexicon ℚ).tags then 1 else 0 := by
  have hscore : (ofTrees trees).words.keys.map (fun word =>
      (((ofTrees trees).withOpenClass openClass).score word tag : ℚ)) =
        ((ofTrees trees).words.keys.map (Tagging.mk tag)).map fun t =>
          ((trees.flatMap Tree.taggings).count t : ℚ) /
            ((trees.flatMap Tree.taggings).map Tagging.tag).count tag := by
    rw [List.map_map]
    apply List.map_congr_left
    intro word hword
    exact score_of_known (mem_tally.mp (Std.TreeMap.mem_keys.mp hword)) openClass tag
  have htags : tag ∈ ((ofTrees trees).toLexicon ℚ).tags ↔
      tag ∈ (trees.flatMap Tree.taggings).map Tagging.tag :=
    mem_tags_ofTrees.trans List.mem_map.symm
  have hmass : ((ofTrees trees).withOpenClass openClass).mass tag =
      ((ofTrees trees).words.keys.map fun word =>
        (((ofTrees trees).withOpenClass openClass).score word tag : ℚ)).sum := rfl
  rw [hmass, hscore, sum_count_div_count]
  · simp only [htags]
  · apply Std.TreeMap.nodup_keys.map
    intro word word' h
    exact congrArg Tagging.word h
  · intro t ht
    obtain ⟨word, -, rfl⟩ := List.mem_map.mp ht
    rfl
  · rintro ⟨_, word⟩ ht rfl
    apply List.mem_map_of_mem
    exact Std.TreeMap.mem_keys.mpr (mem_tally.mpr (List.mem_map_of_mem ht))

theorem mass_ofTrees (trees : List Tree) (tag : String) :
    (ofTrees trees).mass tag = if tag ∈ ((ofTrees trees).toLexicon ℚ).tags then 1 else 0 :=
  mass_withOpenClass trees true tag

end TagCounts

namespace RuleIndex.Estimates

/-- The rules are those of the counted productions. -/
theorem mem_productions_iff {π σ : Type} [Probability π σ] [Score σ] {rules : RuleIndex σ}
    (h : rules.Estimates π trees) {p : Production} :
    p ∈ rules.unaryRules.map UnaryRule.production ++ rules.binaryRules.map BinaryRule.production ↔
      p ∈ countedProductions trees := by
  rw [List.mem_append, List.mem_map, List.mem_map]
  constructor
  · rintro (⟨rule, hrule, rfl⟩ | ⟨rule, hrule, rfl⟩)
    · exact ((h.unary rule).mp hrule).1
    · exact ((h.binary rule).mp hrule).1
  · intro hp
    obtain ⟨hne, hlength⟩ := children_of_mem_countedProductions hp
    obtain ⟨parent, children⟩ := p
    match children with
    | [] => cases hne rfl
    | [child] =>
      let rule : UnaryRule σ :=
        ⟨parent, child, Probability.log (Production.share π trees ⟨parent, [child]⟩)⟩
      exact .inl ⟨rule, (h.unary rule).mpr ⟨hp, rfl⟩, rfl⟩
    | [left, right] =>
      let rule : BinaryRule σ :=
        ⟨parent, left, right, Probability.log (Production.share π trees ⟨parent, [left, right]⟩)⟩
      exact .inr ⟨rule, (h.binary rule).mpr ⟨hp, rfl⟩, rfl⟩
    | _ :: _ :: _ :: _ => simp at hlength

theorem hasParent_iff {rules : RuleIndex Likelihood} (h : rules.Estimates ℚ trees)
    {parent : String} : rules.HasParent parent ↔
      parent ∈ (countedProductions trees).map Production.parent := by
  have hparent : rules.HasParent parent ↔
      parent ∈ (rules.unaryRules.map UnaryRule.production ++
        rules.binaryRules.map BinaryRule.production).map Production.parent := by
    rw [RuleIndex.hasParent_iff]
    simp [toRules, UnaryRule.production, BinaryRule.production]
  rw [hparent, List.mem_map, List.mem_map]
  simp only [h.mem_productions_iff]

end RuleIndex.Estimates

end Estimated

namespace Model

variable {config : Config} {treebank : List Tree}

/-- In a trained model the rules with the same parent are worth one together, and the known words
under the same tag, too. All expansions of a label are therefore worth one, but two if it is both
the parent of rules and a tag. -/
theorem sum_expansions (hne : treebank ≠ []) (hvertical : config.markovization.vertical ≠ 0) :
    ∃ model : Model Likelihood, train ℚ config treebank = .ok model ∧ ∀ label,
      model.rules.mass label = (if model.rules.HasParent label then 1 else 0) ∧
      model.tagCounts.mass label =
        (if label ∈ (model.parser ℚ).lexicon.tags then 1 else 0) ∧
      (model.rules.HasParent label ∨ label ∈ (model.parser ℚ).lexicon.tags →
        model.rules.mass label + model.tagCounts.mass label =
          if model.rules.HasParent label ∧ label ∈ (model.parser ℚ).lexicon.tags then 2
          else 1) := by
  obtain ⟨rules, hrules, hestimates⟩ : ∃ rules : RuleIndex Likelihood,
      RuleIndex.ofTrees ℚ (markedTrees config treebank) = .ok rules ∧
        rules.Estimates ℚ (markedTrees config treebank) :=
    RuleIndex.exists_ofTrees (reckons_rat _) (Nat.le_refl _)
  refine ⟨_, train_eq_ok_of hne hvertical hrules, ?_⟩
  intro label
  have hmass : rules.mass label = if rules.HasParent label then 1 else 0 := by
    rw [mass_ofTrees hrules]
    simp only [hestimates.hasParent_iff]
  have htags := TagCounts.mass_ofTrees (markedTrees config treebank) label
  refine ⟨hmass, htags, ?_⟩
  intro hlabel
  dsimp only [parser] at hlabel ⊢
  rw [hmass, htags]
  by_cases hparent : rules.HasParent label
  · by_cases htag : label ∈ ((TagCounts.ofTrees (markedTrees config treebank)).toLexicon ℚ).tags
    · norm_num [hparent, htag]
    · simp [hparent, htag]
  · simp [hparent, hlabel.resolve_left hparent]

section Bare

/-- A noun phrase over a tag and one over a word. -/
def bareTreebank : List Tree :=
  [.node "S" [.node "NP" [.node "N" [.leaf "cats"]],
    .node "VP" [.node "V" [.leaf "see"], .node "NP" [.leaf "dogs"]]]]

theorem sum_expansions_bare : ∃ model : Model Likelihood,
    train ℚ { root := "S" } bareTreebank = .ok model ∧
      model.rules.mass "S" + model.tagCounts.mass "S" = 1 ∧
      model.rules.mass "V" + model.tagCounts.mass "V" = 1 ∧
      model.rules.mass "NP" = 1 ∧ model.tagCounts.mass "NP" = 1 := by
  have hne : bareTreebank ≠ [] := by simp [bareTreebank]
  have hvertical : ({ root := "S" } : Config).markovization.vertical ≠ 0 := by decide
  obtain ⟨model, htrain, hmass⟩ := sum_expansions hne hvertical
  have hlabels : (train ℚ { root := "S" } bareTreebank).toOption.bind (fun model =>
      some (decide (model.rules.HasParent "S" ∧ "S" ∉ (model.parser ℚ).lexicon.tags ∧
        ¬model.rules.HasParent "V" ∧ "V" ∈ (model.parser ℚ).lexicon.tags ∧
        model.rules.HasParent "NP" ∧ "NP" ∈ (model.parser ℚ).lexicon.tags))) = some true := by
    decide +kernel
  obtain ⟨_, htrain', hlabels⟩ := toOption_bind_eq_some.mp hlabels
  obtain rfl := Except.ok.inj (htrain.symm.trans htrain')
  obtain ⟨hS, hS', hV, hV', hNP, hNP'⟩ := of_decide_eq_true (Option.some.inj hlabels)
  refine ⟨model, htrain, ?_, ?_, ?_, ?_⟩
  · rw [(hmass "S").2.2 (.inl hS), if_neg fun h => hS' h.2]
  · rw [(hmass "V").2.2 (.inr hV'), if_neg fun h => hV h.1]
  · rw [(hmass "NP").1, if_pos hNP]
  · rw [(hmass "NP").2.1, if_pos hNP']

/-- A label over itself and over a word: its only rule and its only tagging both have the
probability one. -/
theorem sum_expansions_self : ∃ model : Model Likelihood,
    (∀ t ∈ [Tree.node "X" [.node "X" [.leaf "a"]]], t.IsTagged) ∧
      train ℚ { root := "X" } [.node "X" [.node "X" [.leaf "a"]]] = .ok model ∧
      model.rules.HasParent "X" ∧ "X" ∈ (model.parser ℚ).lexicon.tags ∧
      model.rules.mass "X" + model.tagCounts.mass "X" ≠ 1 := by
  have hmass : (train ℚ { root := "X" } [.node "X" [.node "X" [.leaf "a"]]]).toOption.bind
      (fun model => some (decide (model.rules.HasParent "X" ∧
        "X" ∈ (model.parser ℚ).lexicon.tags ∧
        model.rules.mass "X" + model.tagCounts.mass "X" ≠ 1))) = some true := by
    decide +kernel
  obtain ⟨model, htrain, hmass⟩ := toOption_bind_eq_some.mp hmass
  exact ⟨model, by decide +kernel, htrain, of_decide_eq_true (Option.some.inj hmass)⟩

end Bare

end Model

end Constituency

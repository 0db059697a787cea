import Constituency.Proofs.Shares
import Constituency.Proofs.TaggedTree
import Constituency.Proofs.TrainedParser

/-!
# Training trees

A trained parser knows the trees that it was trained on. Every node of a marked tree is counted, so
that its derivation is among those that the parser compares when it is given the words.
-/

namespace Constituency

variable {π σ : Type} [Score σ] [Probability π σ] {trees : List Tree} {t : Tree}

/-- The labels of a treebank, other than its words. -/
def nodeLabels (trees : List Tree) : Finset String :=
  (((trees.flatMap Tree.subtrees).filter fun u => !u.isLeaf).map Tree.label).toFinset

theorem mem_nodeLabels {label : String} : label ∈ nodeLabels trees ↔
    ∃ u ∈ trees.flatMap Tree.subtrees, u.isLeaf = false ∧ u.label = label := by
  simp [nodeLabels, and_assoc]

theorem mem_productions_of_mem_subtrees {u : Tree} (hu : u ∈ trees.flatMap Tree.subtrees)
    (hleaf : u.isLeaf = false) (hpreterminal : u.isPreterminal = false) :
    u.production ∈ trees.flatMap Tree.productions := by
  obtain ⟨t, ht, hu⟩ := List.mem_flatMap.mp hu
  exact List.mem_flatMap.mpr ⟨t, ht, Tree.mem_productions.mpr ⟨u, hu, hleaf, hpreterminal, rfl⟩⟩

theorem mem_taggings_of_mem_subtrees {tag word : String}
    (hu : .node tag [.leaf word] ∈ trees.flatMap Tree.subtrees) :
    ⟨tag, word⟩ ∈ trees.flatMap Tree.taggings := by
  obtain ⟨t, ht, hu⟩ := List.mem_flatMap.mp hu
  exact List.mem_flatMap.mpr ⟨t, ht, Tree.mem_taggings.mpr ⟨_, hu, rfl, _, List.mem_cons_self, rfl⟩⟩

theorem length_countedProductions_le :
    (countedProductions trees).length ≤ (trees.flatMap Tree.subtrees).length := by
  refine (List.length_filter_le _ _).trans ?_
  simp only [List.length_flatMap, Tree.productions, List.length_map]
  exact List.sum_le_sum fun t _ => List.length_filter_le _ _

theorem length_subtrees_le (ht : t ∈ trees) :
    t.subtrees.length ≤ (trees.flatMap Tree.subtrees).length := by
  obtain ⟨before, after, rfl⟩ := List.append_of_mem ht
  simp
  omega

theorem length_taggings_le (t : Tree) : t.taggings.length ≤ t.subtrees.length := by
  have hone : ∀ u ∈ t.subtrees.filter Tree.isPreterminal,
      (u.children.map fun word => (⟨u.label, word.label⟩ : Tagging)).length = 1 := by
    intro u hu
    obtain ⟨a, ts⟩ := u
    have hpreterminal := (List.mem_filter.mp hu).2
    match ts with
    | [_] => rfl
    | [] | _ :: _ :: _ => simp [Tree.isPreterminal] at hpreterminal
  rw [Tree.taggings, List.length_flatMap, List.map_congr_left hone]
  simpa using List.length_filter_le _ _

section Gold

variable {limit : Nat} {rules : RuleIndex σ} {sentence : List String}

section Shares

variable (hlimit : (trees.flatMap Tree.subtrees).length ≤ limit)
include hlimit

theorem length_flatMap_taggings_le : (trees.flatMap Tree.taggings).length ≤ limit := by
  refine le_trans ?_ hlimit
  simp only [List.length_flatMap]
  exact List.sum_le_sum fun t _ => length_taggings_le t

theorem shareSum_production {p : Production} (hp : p ∈ countedProductions trees) :
    ShareSum π limit 1 (Probability.log (p.share π trees)) := by
  obtain ⟨hpos, hle, hwhole⟩ := count_bounds Production.parent hp
    (length_countedProductions_le.trans hlimit)
  exact .share hpos hle hwhole

theorem shareSum_tagging {tagging : Tagging} (h : tagging ∈ trees.flatMap Tree.taggings) :
    ShareSum π limit 1 (Probability.log (tagging.share π trees)) := by
  obtain ⟨hpos, hle, hwhole⟩ := count_bounds Tagging.tag h (length_flatMap_taggings_le hlimit)
  exact .share hpos hle hwhole

end Shares

variable [LawfulScore σ]

/-- What the tree earns as a derivation of the constituent, made of so many shares. -/
structure Earns (limit : Nat) (rules : Rules σ) (lexicon : Lexicon π) (sentence : List String)
    (c : Constituent) (t : Tree) (n : Nat) (score : σ) : Prop where
  derives : Derives rules lexicon sentence c t score
  rescored : rules.rescore? lexicon t = some score
  shares : ShareSum π limit n score

namespace Earns

variable {lexicon : Lexicon π} {u : Tree} {parent : String} {span : Span} {i k j n n' : Nat}
  {x y : σ} (hestimates : rules.Estimates π trees)
  (hlimit : (trees.flatMap Tree.subtrees).length ≤ limit)
include hestimates hlimit

theorem unary (h : Earns limit rules.toRules lexicon sentence ⟨t.label, span⟩ t n x)
    (hp : ⟨parent, [t.label]⟩ ∈ countedProductions trees) :
    Earns limit rules.toRules lexicon sentence ⟨parent, span⟩ (.node parent [t]) (n + 1)
      (x + Probability.log (Production.share π trees ⟨parent, [t.label]⟩)) where
  derives := .unary ((hestimates.unary ⟨parent, t.label, _⟩).mpr ⟨hp, rfl⟩) h.derives
  rescored := by
    simp [Rules.rescore?_unary h.derives.isLeaf_eq, h.rescored, hestimates.unaryScore?_eq, hp]
  shares := .add h.shares (shareSum_production hlimit hp)

theorem binary (ht : Earns limit rules.toRules lexicon sentence ⟨t.label, ⟨i, k⟩⟩ t n x)
    (hu : Earns limit rules.toRules lexicon sentence ⟨u.label, ⟨k, j⟩⟩ u n' y)
    (hp : ⟨parent, [t.label, u.label]⟩ ∈ countedProductions trees) :
    Earns limit rules.toRules lexicon sentence ⟨parent, ⟨i, j⟩⟩ (.node parent [t, u])
      (n + n' + 1)
      (x + y + Probability.log (Production.share π trees ⟨parent, [t.label, u.label]⟩)) where
  derives := .binary ((hestimates.binary ⟨parent, t.label, u.label, _⟩).mpr ⟨hp, rfl⟩)
    ht.derives hu.derives
  rescored := by
    simp [Rules.rescore?, ht.rescored, hu.rescored, hestimates.binaryScore?_eq, hp]
  shares := .add (.add ht.shares hu.shares) (shareSum_production hlimit hp)

end Earns

/-- A tree of the treebank is a derivation of its words, wherever they stand in a sentence. -/
theorem exists_earns (hreckons : Reckons π limit)
    (hlimit : (trees.flatMap Tree.subtrees).length ≤ limit) (hestimates : rules.Estimates π trees)
    (hnode : t.isLeaf = false) (hbinary : t.IsBinary) (htagged : t.IsTagged)
    (hmem : ∀ u ∈ t.subtrees, u ∈ trees.flatMap Tree.subtrees) (before after : List String) :
    ∃ n score, n ≤ t.subtrees.length ∧
      Earns limit rules.toRules ((TagCounts.ofTrees trees).toLexicon π)
        (before ++ t.words ++ after)
        ⟨t.label, ⟨before.length, before.length + t.words.length⟩⟩ t n score := by
  induction t generalizing before after with
  | node a ts ih =>
    obtain ⟨hlength, hbinary⟩ := Tree.isBinary_node.mp hbinary
    obtain ⟨halone, htagged⟩ := Tree.isTagged_node.mp htagged
    obtain ⟨hself, hmem⟩ := Tree.forall_mem_subtrees_node.mp hmem
    have counted (hpreterminal : (Tree.node a ts).isPreterminal = false) :
        ⟨a, ts.map Tree.label⟩ ∈ countedProductions trees := by
      refine List.mem_filter.mpr
        ⟨mem_productions_of_mem_subtrees hself hnode hpreterminal, ?_⟩
      simpa [Tree.production] using hlength
    have below {t : Tree} (ht : t ∈ ts) (hleaf : t.isLeaf = false) :=
      ih t ht hleaf (hbinary t ht) (htagged t ht) (hmem t ht)
    rcases ts with _ | ⟨t, _ | ⟨u, _ | ⟨v, rest⟩⟩⟩
    · simp at hnode
    · cases hleaf : t.isLeaf with
      | true =>
        obtain ⟨word, rfl⟩ := Tree.exists_eq_of_isLeaf hleaf
        have htagging := mem_taggings_of_mem_subtrees hself
        have hscore := TagCounts.tagScore?_of_mem hreckons (length_flatMap_taggings_le hlimit)
          htagging
        have hword : (before ++ [word] ++ after)[before.length]? = some word := by simp
        exact ⟨1, _, by simp, .tag hword hscore, hscore, shareSum_tagging hlimit htagging⟩
      | false =>
        obtain ⟨n, x, hn, ht⟩ := below List.mem_cons_self hleaf before after
        have hwords : (Tree.node a [t]).words = t.words := by simp [Tree.words_node]
        rw [hwords]
        exact ⟨n + 1, _, by simpa using hn, ht.unary hestimates hlimit (counted hleaf)⟩
    · have hleaf {v : Tree} (hv : v ∈ [t, u]) : v.isLeaf = false :=
        halone.isLeaf_eq_false (by simp) hv
      obtain ⟨n, x, hn, ht⟩ := below (t := t) (by simp) (hleaf (by simp)) before
        (u.words ++ after)
      obtain ⟨n', y, hn', hu⟩ := below (t := u) (by simp) (hleaf (by simp)) (before ++ t.words)
        after
      have hwords : (Tree.node a [t, u]).words = t.words ++ u.words := by simp [Tree.words_node]
      rw [hwords]
      simp only [List.append_assoc, List.length_append, ← Nat.add_assoc] at ht hu ⊢
      refine ⟨n + n' + 1, _, ?_, ht.binary hestimates hlimit hu (counted rfl)⟩
      simp
      omega
    · simp at hlength

omit [LawfulScore σ] in
/-- All labels of an estimated grammar are labels of the treebank. -/
theorem labelsIn_nodeLabels (hestimates : rules.Estimates π trees) :
    rules.toRules.LabelsIn ((TagCounts.ofTrees trees).toLexicon π).tags (nodeLabels trees) := by
  have parent {p : Production} (hp : p ∈ countedProductions trees) :
      p.parent ∈ nodeLabels trees := by
    obtain ⟨t, ht, hp⟩ := List.mem_flatMap.mp (List.mem_filter.mp hp).1
    obtain ⟨u, hu, hleaf, -, rfl⟩ := Tree.mem_productions.mp hp
    exact mem_nodeLabels.mpr ⟨u, List.mem_flatMap.mpr ⟨t, ht, hu⟩, hleaf, rfl⟩
  constructor
  · intro tag htag
    obtain ⟨tagging, htagging, rfl⟩ := TagCounts.mem_tags_ofTrees.mp htag
    obtain ⟨t, ht, htagging⟩ := List.mem_flatMap.mp htagging
    obtain ⟨u, hu, -, word, hword, rfl⟩ := Tree.mem_taggings.mp htagging
    have hleaf : u.isLeaf = false := by
      simpa [Tree.isLeaf] using List.ne_nil_of_mem hword
    exact mem_nodeLabels.mpr ⟨u, List.mem_flatMap.mpr ⟨t, ht, hu⟩, hleaf, rfl⟩
  · intro rule hrule
    exact parent ((hestimates.unary rule).mp hrule).1
  · intro rule hrule
    exact parent ((hestimates.binary rule).mp hrule).1

end Gold

namespace Model

variable {config : Config} {treebank : List Tree}

/-- The trees that a grammar is estimated from. -/
def markedTrees (config : Config) (treebank : List Tree) : List Tree :=
  treebank.map fun t => t.markedBelow config.markovization []

omit [Score σ] in
theorem train_eq_ok_of {rules : RuleIndex σ} (hne : treebank ≠ [])
    (hvertical : config.markovization.vertical ≠ 0)
    (hrules : RuleIndex.ofTrees π (markedTrees config treebank) = .ok rules) :
    train π config treebank =
      .ok ⟨rules, .ofTrees (markedTrees config treebank), config⟩ := by
  have htrees : treebank.mapM (Tree.markovize config.markovization) =
      .ok (markedTrees config treebank) :=
    mapM_eq_ok_map fun t _ => Tree.markovize_eq_ok.mpr ⟨hvertical, rfl⟩
  simp [train, hne, htrees, hrules, bind, Except.bind, pure, Except.pure, Except.mapError]

/-- A model whose rules and tags are estimated from the marked trees. -/
structure IsTrained (π : Type) [Probability π σ] (config : Config) (treebank : List Tree)
    (model : Model σ) : Prop where
  config_eq : model.config = config
  tagCounts_eq : model.tagCounts = .ofTrees (markedTrees config treebank)
  estimates : model.rules.Estimates π (markedTrees config treebank)
  lists : model.rules.toGrammar.Lists model.rules.toRules

theorem exists_isTrained (hne : treebank ≠ []) (hvertical : config.markovization.vertical ≠ 0)
    (hreckons : Reckons π ((markedTrees config treebank).flatMap Tree.subtrees).length) :
    ∃ model : Model σ, train π config treebank = .ok model ∧
      model.IsTrained π config treebank := by
  obtain ⟨rules, hrules, hestimates⟩ := RuleIndex.exists_ofTrees hreckons
    length_countedProductions_le
  exact ⟨_, train_eq_ok_of hne hvertical hrules, rfl, rfl, hestimates,
    (RuleIndex.wellIndexed_ofTrees hrules).lists⟩

section Estimated

variable [LawfulScore σ] (model : Model σ) (hestimates : model.rules.Estimates π trees)
  (hcounts : model.tagCounts = .ofTrees trees)
  (hreckons : Reckons π (trees.flatMap Tree.subtrees).length)
include hestimates hcounts hreckons

/-- The words of the treebank can be looked up, and rounds for all its labels are enough. -/
theorem exists_fillChart (hg : model.rules.toGrammar.Lists model.rules.toRules)
    (hrounds : (nodeLabels trees).card ≤ model.config.maxRounds) (ht : t ∈ trees)
    (htagged : t.IsTagged) (hnode : t.isLeaf = false) :
    ∃ chart, (model.parser π).fillChart t.words = .ok chart := by
  have hlabels := labelsIn_nodeLabels hestimates
  rw [← hcounts] at hlabels
  refine Chart.exists_fill hg hlabels hrounds fun word hword tag _ => ?_
  obtain ⟨tagging, htagging, rfl⟩ := htagged.mem_words hnode hword
  have hknown := List.mem_map_of_mem (f := Tagging.word)
    (List.mem_flatMap.mpr ⟨t, ht, htagging⟩)
  rw [parser, hcounts]
  exact TagCounts.isValid_score_of_known hreckons (length_flatMap_taggings_le (Nat.le_refl _))
    hknown tag

/-- A tree that was counted is found again, or a better one. -/
theorem exists_parse_of_estimates (hg : model.rules.toGrammar.Lists model.rules.toRules)
    (hrounds : (nodeLabels trees).card ≤ model.config.maxRounds) (ht : t ∈ trees)
    (htagged : t.IsTagged) (hbinary : t.IsBinary) (hnode : t.isLeaf = false)
    (hroot : t.label = model.config.root) :
    ∃ gold parse, Parser.Records model.rules.toRules (model.parser π).lexicon t.words
        ((model.parser π).root t.words) t gold ∧
      (model.parser π).parse? t.words = .ok (some parse) ∧
      parse.tree.words = t.words ∧ gold ≤ parse.score := by
  obtain ⟨chart, hfill⟩ :=
    exists_fillChart model hestimates hcounts hreckons hg hrounds ht htagged hnode
  have hmem : ∀ u ∈ t.subtrees, u ∈ trees.flatMap Tree.subtrees := fun u hu =>
    List.mem_flatMap.mpr ⟨t, ht, hu⟩
  obtain ⟨n, gold, hn, hearns⟩ := exists_earns hreckons (Nat.le_refl _) hestimates hnode hbinary
    htagged hmem [] []
  have hpossible : Score.Possible gold :=
    hreckons.possible_sum hearns.shares (hn.trans (length_subtrees_le ht))
  have hderives : Derives model.rules.toRules (model.parser π).lexicon t.words
      ((model.parser π).root t.words) t gold := by
    simpa [parser, Parser.root, hcounts, hroot] using hearns.derives
  obtain ⟨score, hscore, hle⟩ :=
    Chart.has_of_possible (Chart.closedOver_of_fill hg hfill) hderives hpossible
  obtain ⟨backpointer, hentry⟩ := Chart.get?_of_score? hscore
  have hrecords : Parser.Records model.rules.toRules (model.parser π).lexicon t.words
      ((model.parser π).root t.words) _ score := Parser.records_tree hg hfill hentry
  refine ⟨gold, _, ⟨hroot, hderives.words_eq, hderives, ?_⟩,
    (Parser.parse?_eq_ok hfill).trans (by rw [hscore]; rfl), ?_, hle⟩
  · rw [parser, hcounts]
    exact hearns.rescored
  · rw [Tree.words_plain, hrecords.words]
    simp [Parser.root]

end Estimated

/-- A training tree is found again when it is marked, or a better one. -/
theorem IsTrained.exists_parse [LawfulScore σ] {model : Model σ}
    (h : model.IsTrained π config treebank) (hvertical : config.markovization.vertical ≠ 0)
    (hrounds : (nodeLabels (markedTrees config treebank)).card ≤ config.maxRounds)
    (hreckons : Reckons π ((markedTrees config treebank).flatMap Tree.subtrees).length)
    (ht : t ∈ treebank) (htagged : t.IsTagged) (hnode : t.isLeaf = false)
    (hroot : t.label = config.root) :
    ∃ d gold parse, t.markovize config.markovization = .ok d ∧
      Parser.Records model.rules.toRules (model.parser π).lexicon t.words
        ((model.parser π).root t.words) d gold ∧
      (model.parser π).parse? t.words = .ok (some parse) ∧
      parse.tree.words = t.words ∧ gold ≤ parse.score := by
  have hlabel : (t.markedBelow config.markovization []).label = model.config.root := by
    rw [Tree.label_markedBelow hnode, Label.withAncestors_nil, hroot, h.config_eq]
  have hrounds : (nodeLabels (markedTrees config treebank)).card ≤ model.config.maxRounds :=
    h.config_eq ▸ hrounds
  obtain ⟨gold, parse, hgold, hparse⟩ := exists_parse_of_estimates model h.estimates h.tagCounts_eq
    hreckons h.lists hrounds (List.mem_map_of_mem ht) htagged.markedBelow
    (Tree.isBinary_markedBelow t) ((Tree.isLeaf_markedBelow t).trans hnode) hlabel
  rw [Tree.words_markedBelow] at hgold hparse
  exact ⟨_, gold, parse, Tree.markovize_eq_ok.mpr ⟨hvertical, rfl⟩, hgold, hparse⟩

/-- Training on tagged trees succeeds, and the parse of the words of a training tree is at least as
good as the tree. No label is excepted. -/
theorem exists_parse_of_mem_treebank [LawfulScore σ] (hne : treebank ≠ [])
    (htagged : ∀ t ∈ treebank, t.IsTagged) (hvertical : config.markovization.vertical ≠ 0)
    (hrounds : (nodeLabels (markedTrees config treebank)).card ≤ config.maxRounds)
    (hreckons : Reckons π ((markedTrees config treebank).flatMap Tree.subtrees).length) :
    ∃ model, train π config treebank = .ok model ∧
      ∀ t ∈ treebank, t.isLeaf = false → t.label = config.root →
        ∃ d gold parse, t.markovize config.markovization = .ok d ∧
          Parser.Records model.rules.toRules (model.parser π).lexicon t.words
            ((model.parser π).root t.words) d gold ∧
          (model.parser π).parse? t.words = .ok (some parse) ∧
          parse.tree.words = t.words ∧ gold ≤ parse.score := by
  obtain ⟨model, htrain, htrained⟩ := exists_isTrained hne hvertical hreckons
  refine ⟨model, htrain, fun t ht hnode hroot => ?_⟩
  exact htrained.exists_parse hvertical hrounds hreckons ht (htagged t ht) hnode hroot

section Odd

/-- Labels that look like marks, a label above itself, an empty label and a word without a tag. -/
def oddTreebank : List Tree :=
  [.node "^" [.node "@^->" [.node "" [.leaf "a"]], .node "_" [.leaf "b"],
      .node "^" [.node "^" [.node "=" [.leaf "^"]]]],
    .node "@^->" [.node "^" [.leaf "a"]], .leaf "a"]

/-- There are exactly as many rounds as labels. -/
def oddConfig : Config where
  root := "^"
  markovization := { vertical := 2, horizontal := some 0 }
  maxRounds := 9

theorem exists_parse_of_mem_treebank_odd :
    ∃ (model : Model Likelihood) (parse : Parse Likelihood),
      train ℚ oddConfig oddTreebank = .ok model ∧
        (model.parser ℚ).parse? ["a", "b", "^"] = .ok (some parse) ∧
        parse.tree.words = ["a", "b", "^"] ∧
        ∃ d gold, Parser.Records model.rules.toRules (model.parser ℚ).lexicon ["a", "b", "^"]
          ((model.parser ℚ).root ["a", "b", "^"]) d gold ∧ gold ≤ parse.score := by
  have hne : oddTreebank ≠ [] := by simp [oddTreebank]
  have hvertical : oddConfig.markovization.vertical ≠ 0 := by decide
  obtain ⟨model, htrain, hparses⟩ := exists_parse_of_mem_treebank (π := ℚ) hne
    (by decide +kernel) hvertical (by decide +kernel) (reckons_rat _)
  obtain ⟨d, gold, parse, -, hgold, hparse, hwords, hle⟩ :=
    hparses _ List.mem_cons_self rfl rfl
  exact ⟨model, parse, htrain, hparse, hwords, d, gold, hgold, hle⟩

end Odd

end Model

end Constituency

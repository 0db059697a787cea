import Constituency.Proofs.RelabeledTree
import Constituency.Proofs.WordDerivations

/-!
# Coarser parsers

Lower orders let a grammar tell fewer contexts apart. Whatever the finer grammar derives, the
coarser one derives with coarser labels, and so no sentence loses its parse.
-/

namespace Constituency

variable {π σ : Type} [Score σ] [Probability π σ] {f : String → String}

/-- Every rule and every tagging of the first grammar and lexicon is one of the second with other
labels. Scores may differ. -/
structure RelabelsTo (f : String → String) (rules rules' : Rules σ) (lexicon lexicon' : Lexicon π) :
    Prop where
  unary : ∀ rule ∈ rules.unary, ∃ score, ⟨f rule.parent, f rule.child, score⟩ ∈ rules'.unary
  binary : ∀ rule ∈ rules.binary,
    ∃ score, ⟨f rule.parent, f rule.left, f rule.right, score⟩ ∈ rules'.binary
  tag : ∀ word tag score, lexicon.tagScore? word tag = some score →
    ∃ score', lexicon'.tagScore? word (f tag) = some score'

/-- A relabeled derivation is a derivation. -/
theorem Derives.relabel {rules rules' : Rules σ} {lexicon lexicon' : Lexicon π}
    {sentence : List String} {c : Constituent} {t : Tree} {score : σ}
    (hrelabels : RelabelsTo f rules rules' lexicon lexicon')
    (h : Derives rules lexicon sentence c t score) :
    ∃ score', Derives rules' lexicon' sentence ⟨f c.label, c.span⟩ (t.relabel f) score' := by
  induction h with
  | tag hword hscore =>
    obtain ⟨score', hscore'⟩ := hrelabels.tag _ _ _ hscore
    exact ⟨score', .tag hword hscore'⟩
  | unary hrule _ ih =>
    obtain ⟨score', hrule'⟩ := hrelabels.unary _ hrule
    obtain ⟨x, hchild⟩ := ih
    exact ⟨_, .unary hrule' hchild⟩
  | binary hrule _ _ ihl ihr =>
    obtain ⟨score', hrule'⟩ := hrelabels.binary _ hrule
    obtain ⟨x, hleft⟩ := ihl
    obtain ⟨y, hright⟩ := ihr
    exact ⟨_, .binary hrule' hleft hright⟩

/-- If one parser has a parse, so has the other, unless its fill fails. -/
theorem Parser.exists_parse_of_relabelsTo [LawfulScore σ] {parser parser' : Parser π σ}
    {rules rules' : Rules σ} {sentence : List String} {parse : Parse σ} {chart : Chart σ}
    (hg : parser.grammar.Lists rules) (hg' : parser'.grammar.Lists rules')
    (hrelabels : RelabelsTo f rules rules' parser.lexicon parser'.lexicon)
    (hroot : f parser.config.root = parser'.config.root)
    (hw : PossibleOverWords rules' parser'.lexicon sentence)
    (hparse : parser.parse? sentence = .ok (some parse))
    (hfill : parser'.fillChart sentence = .ok chart) :
    ∃ parse', parser'.parse? sentence = .ok (some parse') := by
  obtain ⟨finer, hfiner, -⟩ := bind_eq_ok.mp hparse
  rw [parse?_eq_ok hfiner] at hparse
  obtain ⟨score, hs, -⟩ := Option.map_eq_some_iff.mp (Except.ok.inj hparse)
  obtain ⟨t, hderives⟩ := (Chart.Grown.of_fill hfiner).mem_derivationScores hg hs
  obtain ⟨score', hderives'⟩ := hderives.relabel hrelabels
  obtain ⟨best, hbest, -⟩ :=
    Chart.has_of_derives (Chart.closedOver_of_fill hg' hfill) hw hderives'
  have hroot' : parser'.root sentence =
      ⟨f (parser.root sentence).label, (parser.root sentence).span⟩ := by
    rw [root, root, hroot]
  exact ⟨_, (parse?_eq_ok hfill).trans (by rw [hroot', hbest]; rfl)⟩

section Counting

variable {trees : List Tree} {taggings : List Tagging} {openClass : Bool} {tag word : String}

theorem countedProductions_relabel (h : ∀ t ∈ trees, t.IsTagged) :
    countedProductions (trees.map (Tree.relabel f)) =
      (countedProductions trees).map (Production.relabel f) := by
  have hproductions : (trees.map (Tree.relabel f)).flatMap Tree.productions =
      (trees.flatMap Tree.productions).map (Production.relabel f) := by
    rw [List.flatMap_map, List.map_flatMap]
    exact List.flatMap_congr fun t ht => (h t ht).productions_relabel
  rw [countedProductions, hproductions, List.filter_map, countedProductions]
  simp [Function.comp_def, Production.relabel]

theorem flatMap_taggings_relabel (h : ∀ t ∈ trees, t.IsTagged) :
    (trees.map (Tree.relabel f)).flatMap Tree.taggings =
      (trees.flatMap Tree.taggings).map (Tagging.relabel f) := by
  rw [List.flatMap_map, List.map_flatMap]
  exact List.flatMap_congr fun t ht => (h t ht).taggings_relabel

theorem referenceTaggings_relabel : referenceTaggings (taggings.map (Tagging.relabel f)) =
    (referenceTaggings taggings).map (Tagging.relabel f) := by
  have hwords : (taggings.map (Tagging.relabel f)).map Tagging.word =
      taggings.map Tagging.word := by simp [Tagging.relabel]
  have honce : (taggings.map (Tagging.relabel f)).filter
      (fun t => (tally (taggings.map Tagging.word)).getD t.word 0 == 1) =
        (taggings.filter fun t => (tally (taggings.map Tagging.word)).getD t.word 0 == 1).map
          (Tagging.relabel f) := List.filter_map
  simp only [referenceTaggings, hwords, honce, List.isEmpty_map]
  split <;> rfl

theorem MayTag.relabel (h : MayTag openClass taggings tag word) :
    MayTag openClass (taggings.map (Tagging.relabel f)) (f tag) word := by
  rcases h with hmem | ⟨hopen, hword, hmem⟩
  · exact .inl (List.mem_map_of_mem (f := Tagging.relabel f) hmem)
  · obtain ⟨tagging, htagging, rfl⟩ := List.mem_map.mp hmem
    refine .inr ⟨hopen, by simpa [Tagging.relabel] using hword, ?_⟩
    rw [referenceTaggings_relabel, List.map_map]
    exact List.mem_map.mpr ⟨tagging, htagging, rfl⟩

end Counting

/-- What is estimated from trees is estimated from the relabeled trees, too. -/
theorem relabelsTo_of_estimates {trees : List Tree} {rules rules' : RuleIndex σ} {limit : Nat}
    {openClass : Bool} (hreckons : ReckonsUnknown π limit)
    (hlimit : (trees.flatMap Tree.subtrees).length ≤ limit) (htagged : ∀ t ∈ trees, t.IsTagged)
    (h : rules.Estimates π trees) (h' : rules'.Estimates π (trees.map (Tree.relabel f))) :
    RelabelsTo f rules.toRules rules'.toRules
      (((TagCounts.ofTrees trees).withOpenClass openClass).toLexicon π)
      (((TagCounts.ofTrees (trees.map (Tree.relabel f))).withOpenClass openClass).toLexicon π) := by
  have counted {p : Production} (hp : p ∈ countedProductions trees) :
      p.relabel f ∈ countedProductions (trees.map (Tree.relabel f)) := by
    rw [countedProductions_relabel htagged]
    exact List.mem_map_of_mem hp
  have htaggings : (trees.flatMap Tree.taggings).length ≤ limit :=
    length_flatMap_taggings_le hlimit
  constructor
  · intro rule hrule
    have hp := counted ((h.unary rule).mp hrule).1
    exact ⟨Probability.log (Production.share π _ ⟨f rule.parent, [f rule.child]⟩),
      (h'.unary _).mpr ⟨hp, rfl⟩⟩
  · intro rule hrule
    have hp := counted ((h.binary rule).mp hrule).1
    exact ⟨Probability.log (Production.share π _ ⟨f rule.parent, [f rule.left, f rule.right]⟩),
      (h'.binary _).mpr ⟨hp, rfl⟩⟩
  · intro word tag score hscore
    have hmay := ((TagCounts.tagScore?_eq_some_iff hreckons htaggings).mp hscore).1
    rw [TagCounts.ofTrees, flatMap_taggings_relabel htagged]
    exact ⟨_, (TagCounts.tagScore?_eq_some_iff hreckons (by simpa using htaggings)).mpr
      ⟨hmay.relabel, rfl⟩⟩

namespace Model

variable {config config' : Config} {treebank : List Tree}

theorem markedTrees_coarser (hclean : ∀ t ∈ treebank, t.IsClean)
    (hcoarser : config'.markovization.Coarser config.markovization)
    (hvertical : config'.markovization.vertical ≠ 0) :
    markedTrees config' treebank =
      (markedTrees config treebank).map (Tree.relabel (Label.coarsen config'.markovization)) := by
  rw [markedTrees, markedTrees, List.map_map]
  exact List.map_congr_left fun t ht =>
    ((hclean t ht).relabel_markedBelow hcoarser hvertical).symm

theorem isTagged_of_mem_markedTrees {marked : Tree} (hclean : ∀ t ∈ treebank, t.IsClean)
    (hmarked : marked ∈ markedTrees config treebank) : marked.IsTagged := by
  obtain ⟨t, ht, rfl⟩ := List.mem_map.mp hmarked
  exact (hclean t ht).isTagged.markedBelow

/-- Coarser labels are on as many nodes. -/
theorem length_markedTrees_coarser (hclean : ∀ t ∈ treebank, t.IsClean)
    (hcoarser : config'.markovization.Coarser config.markovization)
    (hvertical : config'.markovization.vertical ≠ 0) :
    ((markedTrees config' treebank).flatMap Tree.subtrees).length =
      ((markedTrees config treebank).flatMap Tree.subtrees).length := by
  rw [markedTrees_coarser hclean hcoarser hvertical]
  simp [List.length_flatMap, Tree.subtrees_relabel, Function.comp_def]

/-- A model of lower orders has a parse where one of higher orders has. -/
theorem IsTrained.exists_parse_of_finer [LawfulScore σ] {model model' : Model σ}
    {openClass : Bool} {sentence : List String} {parse : Parse σ} {chart : Chart σ}
    (h : model.IsTrained π config treebank) (h' : model'.IsTrained π config' treebank)
    (hclean : ∀ t ∈ treebank, t.IsClean) (hroot : Label.IsClean config.root)
    (hsame : config'.root = config.root)
    (hcoarser : config'.markovization.Coarser config.markovization)
    (hvertical : config'.markovization.vertical ≠ 0)
    (hreckons : ReckonsUnknown π ((markedTrees config treebank).flatMap Tree.subtrees).length)
    (hparse : ((model.withOpenClass openClass).parser π).parse? sentence = .ok (some parse))
    (hfill : ((model'.withOpenClass openClass).parser π).fillChart sentence = .ok chart) :
    ∃ parse', ((model'.withOpenClass openClass).parser π).parse? sentence = .ok (some parse') := by
  obtain ⟨rules, counts, config⟩ := model
  obtain ⟨rules', counts', config'⟩ := model'
  obtain ⟨hconfig, hcounts, hestimates, hlists⟩ := h
  obtain ⟨hconfig', hcounts', hestimates', hlists'⟩ := h'
  dsimp only at hconfig hcounts hestimates hlists hconfig' hcounts' hestimates' hlists'
  subst hconfig hcounts hconfig' hcounts'
  have hlength := length_markedTrees_coarser hclean hcoarser hvertical
  have hcoarse := markedTrees_coarser hclean hcoarser hvertical
  have hrelabels : RelabelsTo (Label.coarsen config'.markovization) rules.toRules rules'.toRules
      (((TagCounts.ofTrees (markedTrees config treebank)).withOpenClass openClass).toLexicon π)
      (((TagCounts.ofTrees (markedTrees config' treebank)).withOpenClass
        openClass).toLexicon π) := by
    rw [hcoarse] at hestimates' ⊢
    exact relabelsTo_of_estimates hreckons (Nat.le_refl _)
      (fun _ hmarked => isTagged_of_mem_markedTrees hclean hmarked) hestimates hestimates'
  refine Parser.exists_parse_of_relabelsTo hlists hlists' hrelabels ?_
    (possibleOverWords_of_estimates (hlength ▸ hreckons) hestimates') hparse hfill
  exact (Label.coarsen_eq_self hroot hvertical).trans hsame.symm

/-- A parser trained with lower orders has a parse of every sentence that one trained with higher
orders has a parse of, unless its fill fails. Words that the treebank does not have are no
exception. -/
theorem exists_parse_of_coarser [LawfulScore σ] (hne : treebank ≠ [])
    (hclean : ∀ t ∈ treebank, t.IsClean) (hroot : Label.IsClean config.root)
    (hsame : config'.root = config.root)
    (hcoarser : config'.markovization.Coarser config.markovization)
    (hvertical : config'.markovization.vertical ≠ 0)
    (hreckons : ReckonsUnknown π ((markedTrees config treebank).flatMap Tree.subtrees).length) :
    ∃ model model' : Model σ, train π config treebank = .ok model ∧
      train π config' treebank = .ok model' ∧
      ∀ (openClass : Bool) (sentence : List String) (parse : Parse σ) (chart : Chart σ),
        ((model.withOpenClass openClass).parser π).parse? sentence = .ok (some parse) →
        ((model'.withOpenClass openClass).parser π).fillChart sentence = .ok chart →
        ∃ parse', ((model'.withOpenClass openClass).parser π).parse? sentence =
          .ok (some parse') := by
  have hfine : config.markovization.vertical ≠ 0 := by
    have hle := hcoarser.vertical
    omega
  have hlength := length_markedTrees_coarser hclean hcoarser hvertical
  obtain ⟨model, htrain, htrained⟩ := exists_isTrained hne hfine hreckons.toReckons
  obtain ⟨model', htrain', htrained'⟩ :=
    exists_isTrained hne hvertical (hlength ▸ hreckons.toReckons)
  refine ⟨model, model', htrain, htrain', fun openClass sentence parse chart hparse hfill => ?_⟩
  exact htrained.exists_parse_of_finer htrained' hclean hroot hsame hcoarser hvertical hreckons
    hparse hfill

section Unknown

/-- Neither ancestors nor siblings in the labels. -/
def bareConfig : Config where
  root := "S"
  markovization := { vertical := 1, horizontal := some 0 }

theorem coarser_bareConfig :
    bareConfig.markovization.Coarser mixedConfig.markovization where
  vertical := by decide
  horizontal := by decide

/-- A sentence with a word that neither tree has. -/
theorem exists_parse_of_coarser_unknown :
    ∃ (model model' : Model Likelihood) (parse parse' : Parse Likelihood),
      train ℚ mixedConfig mixedTreebank = .ok model ∧
      train ℚ bareConfig mixedTreebank = .ok model' ∧
      ((model.withOpenClass true).parser ℚ).parse? ["a", "b", "x", "g"] = .ok (some parse) ∧
      parse.tree = tagged "S" [("A", "a"), ("B", "b"), ("F", "x"), ("G", "g")] ∧
      ((model'.withOpenClass true).parser ℚ).parse? ["a", "b", "x", "g"] = .ok (some parse') := by
  have hfine : ((train ℚ mixedConfig mixedTreebank).toOption.bind fun model =>
      (((model.withOpenClass true).parser ℚ).parse? ["a", "b", "x", "g"]).toOption.bind
        (Option.map Parse.tree)) =
      some (tagged "S" [("A", "a"), ("B", "b"), ("F", "x"), ("G", "g")]) := by
    decide +kernel
  have hcoarse : ((train ℚ bareConfig mixedTreebank).toOption.bind fun model =>
      (((model.withOpenClass true).parser ℚ).fillChart ["a", "b", "x", "g"]).toOption.bind
        fun _ => some ()) = some () := by
    decide +kernel
  obtain ⟨model, hmodel, hfine⟩ := toOption_bind_eq_some.mp hfine
  obtain ⟨result, hresult, hfine⟩ := toOption_bind_eq_some.mp hfine
  obtain ⟨parse, rfl, htree⟩ := Option.map_eq_some_iff.mp hfine
  obtain ⟨model', hmodel', hcoarse⟩ := toOption_bind_eq_some.mp hcoarse
  obtain ⟨chart, hfill, -⟩ := toOption_bind_eq_some.mp hcoarse
  obtain ⟨_, _, htrain, htrain', hparses⟩ :=
    @exists_parse_of_coarser ℚ Likelihood _ _ mixedConfig bareConfig mixedTreebank _
      (List.cons_ne_nil _ _) (by decide +kernel) (by decide +kernel) rfl coarser_bareConfig
      (by decide) (reckonsUnknown_rat _)
  cases hmodel.symm.trans htrain
  cases hmodel'.symm.trans htrain'
  obtain ⟨parse', hparse'⟩ := hparses true _ parse chart hresult hfill
  exact ⟨model, model', parse, parse', hmodel, hmodel', hresult, htree, hparse'⟩

end Unknown

end Model

end Constituency

import Constituency.Model
import Constituency.Proofs.MarkedDerivation
import Constituency.Proofs.RecordedTree
import Constituency.Proofs.TrainedRules

/-!
# Trained parsers

A parser trained on clean trees searches marked trees and finds the best clean one: whatever its
grammar derives below the root is some clean tree, marked.
-/

namespace Constituency

namespace Model

variable {π σ : Type} [Score σ] [Probability π σ] {config : Config} {treebank trees : List Tree}
  {model : Model σ} {sentence : List String}

omit [Score σ] in
theorem train_eq_ok (h : train π config treebank = .ok model) : treebank ≠ [] ∧ ∃ trees,
    treebank.mapM (Tree.markovize config.markovization) = .ok trees ∧
      RuleIndex.ofTrees π trees = .ok model.rules ∧ model.tagCounts = .ofTrees trees ∧
      model.config = config := by
  unfold train at h
  split at h
  · simp [throw, throwThe, MonadExceptOf.throw, bind, Except.bind] at h
  · rename_i hne
    simp only [bind_eq_ok, mapError_eq_ok, pure, Except.pure, Except.ok.injEq] at h
    obtain ⟨trees, htrees, rules, hrules, rfl⟩ := h
    exact ⟨by simpa using hne, trees, htrees, hrules, rfl, rfl⟩

theorem wellMarked_of_mapM {m : Markovization} {trees : List Tree}
    (hclean : ∀ t ∈ treebank, t.IsClean) (htrees : treebank.mapM (Tree.markovize m) = .ok trees) :
    ∀ d ∈ trees, ∀ u ∈ d.subtrees, Tree.WellMarked m u := by
  intro d hd
  obtain ⟨t, ht, hmarkovize⟩ := (mem_of_mapM_eq_ok htrees).mp hd
  obtain ⟨-, rfl⟩ := Tree.markovize_eq_ok.mp hmarkovize
  exact (hclean t ht).wellMarked

/-- The rules and tags of a trained model are read off its marked trees. -/
theorem readsMarks (hclean : ∀ t ∈ treebank, t.IsClean)
    (h : train π config treebank = .ok model) :
    ReadsMarks config.markovization model.rules.toRules (model.parser π).lexicon.tags := by
  obtain ⟨-, trees, htrees, hrules, hcounts, -⟩ := train_eq_ok h
  have hmarked := wellMarked_of_mapM hclean htrees
  have hproduction : ∀ p ∈ trees.flatMap Tree.productions,
      MarkedProduction config.markovization p := by
    intro p hp
    obtain ⟨d, hd, hp⟩ := List.mem_flatMap.mp hp
    obtain ⟨u, hu, hleaf, hpreterminal, rfl⟩ := Tree.mem_productions.mp hp
    exact (hmarked d hd u hu).production hleaf hpreterminal
  constructor
  · intro rule hrule
    exact hproduction _ (RuleIndex.unary_ofTrees hrules rule hrule)
  · intro rule hrule
    exact hproduction _ (RuleIndex.binary_ofTrees hrules rule hrule)
  · intro tag htag
    rw [parser, hcounts, TagCounts.mem_tags_ofTrees] at htag
    obtain ⟨tagging, htagging, rfl⟩ := htag
    obtain ⟨d, hd, htagging⟩ := List.mem_flatMap.mp htagging
    obtain ⟨u, hu, hpreterminal, word, -, rfl⟩ := Tree.mem_taggings.mp htagging
    exact (hmarked d hd u hu).tag hpreterminal

/-- The scores of the clean trees of a sentence: those of their marked forms, where the trained
grammar derives them. -/
def cleanScores (π : Type) [Probability π σ] (model : Model σ) (sentence : List String) : Set σ :=
  {score | ∃ t d : Tree, t.IsClean ∧ t.label = model.config.root ∧ t.words = sentence ∧
    t.markovize model.config.markovization = .ok d ∧
    Derives model.rules.toRules (model.parser π).lexicon sentence
      ((model.parser π).root sentence) d score}

/-- A parser trained on clean trees returns the clean tree whose marked form is the recorded
derivation, and no clean tree has a better score. -/
theorem parse_isGreatest_cleanScores [LawfulScore σ] (hclean : ∀ t ∈ treebank, t.IsClean)
    (hroot : Label.IsClean config.root) (htrain : train π config treebank = .ok model)
    {parse : Parse σ} (hparse : (model.parser π).parse? sentence = .ok (some parse)) :
    ∃ chart, (model.parser π).fillChart sentence = .ok chart ∧
      parse.tree = (chart.tree ((model.parser π).root sentence)).plain ∧
      parse.tree.markovize config.markovization =
        .ok (chart.tree ((model.parser π).root sentence)) ∧
      IsGreatest (cleanScores π model sentence) parse.score := by
  have hmarks := readsMarks hclean htrain
  obtain ⟨hne, trees, htrees, hrules, -, rfl⟩ := train_eq_ok htrain
  have hg : (model.parser π).grammar.Lists model.rules.toRules :=
    (RuleIndex.wellIndexed_ofTrees hrules).lists
  obtain ⟨chart, hfill, -⟩ := bind_eq_ok.mp hparse
  rw [Parser.parse?_eq_ok hfill] at hparse
  obtain ⟨score, hs, rfl⟩ := Option.map_eq_some_iff.mp (Except.ok.inj hparse)
  obtain ⟨backpointer, hentry⟩ := Chart.get?_of_score? hs
  obtain ⟨hderives, -⟩ := Chart.derives_tree hg hfill hentry
  obtain ⟨t, -, hlabel, htclean, hmarked⟩ := hderives.exists_marked hmarks hroot
  have hplain : (chart.tree ((model.parser π).root sentence)).plain = t := by
    rw [hmarked, htclean.plain_markedBelow]
  have hvertical : model.config.markovization.vertical ≠ 0 := by
    obtain ⟨first, hfirst⟩ := List.exists_mem_of_ne_nil treebank hne
    obtain ⟨_, hfirst⟩ := exists_mapM_eq_ok.mp ⟨trees, htrees⟩ first hfirst
    exact (Tree.markovize_eq_ok.mp hfirst).1
  have hmarkovize := Tree.markovize_eq_ok.mpr ⟨hvertical, hmarked.symm⟩
  have hwords : t.words = sentence := by
    rw [← hplain, Tree.words_plain, hderives.words_eq]
    simp [Parser.root, List.extract_eq_take_drop]
  refine ⟨chart, hfill, rfl, hplain ▸ hmarkovize, ?_, ?_⟩
  · exact ⟨t, _, htclean, hlabel, hwords, hmarkovize, hderives⟩
  · intro x hx
    obtain ⟨_, _, _, _, _, _, hx⟩ := hx
    exact Chart.le_of_derives hg hfill hx hs

section Mixed

/-- A node over tags of single words. -/
def tagged (label : String) (taggings : List (String × String)) : Tree :=
  .node label (taggings.map fun (tag, word) => .node tag [.leaf word])

/-- Two trees that have only the second tag in common. -/
def mixedTreebank : List Tree :=
  [tagged "S" [("A", "a"), ("B", "b"), ("C", "c"), ("D", "d")],
    tagged "S" [("E", "e"), ("B", "b"), ("F", "f"), ("G", "g")]]

def mixedConfig : Config where
  root := "S"
  markovization := { vertical := 2, horizontal := some 1 }

/-- Half of one tree and half of the other: the memory of a single sibling lets their chains meet
after the second tag. -/
theorem parse_isGreatest_cleanScores_mixed :
    ∃ (model : Model Likelihood) (parse : Parse Likelihood),
    train ℚ mixedConfig mixedTreebank = .ok model ∧
      (model.parser ℚ).parse? ["a", "b", "f", "g"] = .ok (some parse) ∧
      parse.tree = tagged "S" [("A", "a"), ("B", "b"), ("F", "f"), ("G", "g")] ∧
      parse.score = .ofRat (1 / 4) ∧
      ∃ chart, (model.parser ℚ).fillChart ["a", "b", "f", "g"] = .ok chart ∧
        parse.tree = (chart.tree ((model.parser ℚ).root ["a", "b", "f", "g"])).plain ∧
        parse.tree.markovize mixedConfig.markovization =
          .ok (chart.tree ((model.parser ℚ).root ["a", "b", "f", "g"])) ∧
        IsGreatest (cleanScores ℚ model ["a", "b", "f", "g"]) parse.score := by
  have hresult : ((train ℚ mixedConfig mixedTreebank).toOption.bind fun model =>
      ((model.parser ℚ).parse? ["a", "b", "f", "g"]).toOption.join.map fun parse =>
        (parse.tree, parse.score)) =
      some (tagged "S" [("A", "a"), ("B", "b"), ("F", "f"), ("G", "g")], .ofRat (1 / 4)) := by
    decide +kernel
  cases htrain : train ℚ mixedConfig mixedTreebank with
  | error e => simp [htrain, Except.toOption] at hresult
  | ok model =>
    simp only [htrain, Except.toOption, Option.bind_some] at hresult
    cases hparse : (model.parser ℚ).parse? ["a", "b", "f", "g"] with
    | error e => simp [hparse] at hresult
    | ok result =>
      cases result with
      | none => simp [hparse] at hresult
      | some parse =>
        rw [hparse] at hresult
        obtain ⟨htree, hscore⟩ := Prod.mk.inj (Option.some.inj hresult)
        exact ⟨model, parse, rfl, hparse, htree, hscore, parse_isGreatest_cleanScores
          (by decide +kernel) (by decide +kernel) htrain hparse⟩

end Mixed

end Model

end Constituency

import Constituency.Proofs.TableOrder
import Constituency.Proofs.Unmarking

/-!
# The order of a treebank

A model only depends on how often productions and taggings occur. The trees of a treebank may come
in any order, and so may the entries of the tables that they are counted in: training fails for the
same reason, or the models answer every question in the same way.
-/

namespace Constituency

variable {π σ : Type} {trees trees' treebank treebank' : List Tree}

theorem RuleIndex.ofTrees_perm [Probability π σ] (h : trees.Perm trees') :
    RuleIndex.ofTrees π trees = RuleIndex.ofTrees π trees' := by
  have hproductions : (countedProductions trees).Perm (countedProductions trees') :=
    (h.flatMap_right _).filter _
  have hparents (parent : String) :
      (tally ((countedProductions trees).map Production.parent)).getD parent 0 =
        (tally ((countedProductions trees').map Production.parent)).getD parent 0 :=
    (tally_equiv (hproductions.map _)).getD_eq
  -- The same list of entries is gone through, and each has the same share.
  change (tally (countedProductions trees)).toList.foldlM _ _ =
    (tally (countedProductions trees')).toList.foldlM _ _
  rw [(tally_equiv hproductions).toList_eq]
  congr 1
  funext rules entry
  exact congrArg (fun whole => rules.addProduction entry.1 (Probability.ofRatio entry.2 whole : π))
    (hparents entry.1.parent)

/-- Whether a tree can be brought into the form that the orders ask for does not depend on it. -/
theorem Tree.mapM_markovize_alike (h : treebank.Perm treebank') (m : Markovization) :
    Alike (· = ·) List.Perm (treebank.mapM (Tree.markovize m))
      (treebank'.mapM (Tree.markovize m)) := by
  by_cases hm : m.vertical = 0
  · have herror (t : Tree) (ts : List Tree) : (t :: ts).mapM (Tree.markovize m) = .error ⟨0⟩ := by
      simp [List.mapM_cons, markovize, Markovization.validate, hm, bind, Except.bind]
    cases treebank with
    | nil =>
      obtain rfl := h.nil_eq
      exact .ok (List.Perm.refl [])
    | cons t ts =>
      cases treebank' with
      | nil => cases h.eq_nil
      | cons t' ts' =>
        rw [herror, herror]
        exact .error rfl
  · have hok (ts : List Tree) :
        ts.mapM (Tree.markovize m) = .ok (ts.map fun t => t.markedBelow m []) :=
      mapM_eq_ok_map fun t _ => markovize_eq_ok.mpr ⟨hm, rfl⟩
    rw [hok, hok]
    exact .ok (h.map _)

namespace Model

/-- Two models with the same rules in the same order, and with the same counts. -/
structure SameEstimates (model model' : Model σ) : Prop where
  rules : model.rules = model'.rules
  tagCounts : model.tagCounts.SameCounts model'.tagCounts
  config : model.config = model'.config

/-- Two models that give the same answers: the rules and their order, the words and the tags, and
the charts and parses of every sentence. -/
structure SameAnswers (π : Type) {σ : Type} [Score σ] [Probability π σ] (model model' : Model σ) :
    Prop where
  rules : model.rules = model'.rules
  isKnown : ∀ word, model.tagCounts.isKnown word = model'.tagCounts.isKnown word
  wordCount : model.tagCounts.wordCount = model'.tagCounts.wordCount
  lexicon : ∀ openClass, ((model.withOpenClass openClass).parser π).lexicon =
    ((model'.withOpenClass openClass).parser π).lexicon
  fillChart : ∀ openClass sentence, ((model.withOpenClass openClass).parser π).fillChart sentence =
    ((model'.withOpenClass openClass).parser π).fillChart sentence
  parse? : ∀ openClass sentence, ((model.withOpenClass openClass).parser π).parse? sentence =
    ((model'.withOpenClass openClass).parser π).parse? sentence
  tree? : ∀ openClass sentence, ((model.withOpenClass openClass).parser π).tree? sentence =
    ((model'.withOpenClass openClass).parser π).tree? sentence

variable [Probability π σ]

/-- Training in two ways, on the same trees in two orders. -/
theorem trainWith_alike {rules rules' : List Tree → Except (InvalidProbability π) (RuleIndex σ)}
    {counts counts' : List Tree → TagCounts} (hfaithful : Faithful rules counts)
    (hfaithful' : Faithful rules' counts') (h : treebank.Perm treebank') (config : Config) :
    Alike (· = ·) (SameEstimates (σ := σ)) (trainWith rules counts config treebank)
      (trainWith rules' counts' config treebank') := by
  unfold trainWith
  rw [h.isEmpty_eq]
  split
  · exact .error rfl
  · have hmarked := (Tree.mapM_markovize_alike h config.markovization).mapError
      fun e e' he => congrArg (TrainError.invalidOrder (π := π)) he
    apply hmarked.bind
    intro trees trees' htrees
    have hcounts : (TagCounts.ofTrees trees).SameCounts (.ofTrees trees') :=
      TagCounts.sameCounts_ofTaggings (htrees.flatMap_right _)
    have hsame := ((hfaithful.sameCounts trees).trans hcounts).trans
      (hfaithful'.sameCounts trees').symm
    rw [hfaithful.rules_eq, hfaithful'.rules_eq, RuleIndex.ofTrees_perm htrees]
    cases RuleIndex.ofTrees π trees' with
    | error e => exact .error rfl
    | ok index => exact .ok ⟨rfl, hsame, rfl⟩

variable [Score σ]

theorem SameEstimates.sameAnswers {model model' : Model σ} (h : model.SameEstimates model') :
    model.SameAnswers π model' := by
  have hparser (openClass : Bool) : (model.withOpenClass openClass).parser π =
      (model'.withOpenClass openClass).parser π := by
    change Parser.mk model.rules.toGrammar
        ((model.tagCounts.withOpenClass openClass).toLexicon π) model.config =
      Parser.mk model'.rules.toGrammar
        ((model'.tagCounts.withOpenClass openClass).toLexicon π) model'.config
    rw [h.rules, (h.tagCounts.withOpenClass openClass).toLexicon_eq, h.config]
  constructor
  case rules => exact h.rules
  case isKnown => exact h.tagCounts.isKnown_eq
  case wordCount => exact h.tagCounts.wordCount_eq
  case lexicon =>
    intro openClass
    rw [hparser]
  case fillChart =>
    intro openClass sentence
    rw [hparser]
  case parse? =>
    intro openClass sentence
    rw [hparser]
  case tree? =>
    intro openClass sentence
    rw [hparser]

/-- A model does not depend on the order of its treebank, nor on the order of the entries in the
tables that it is counted in. -/
theorem train_alike (h : treebank.Perm treebank') (config : Config) :
    Alike (· = ·) (SameAnswers π) (train π config treebank) (train π config treebank') ∧
      (∀ orders, Alike (· = ·) (SameAnswers π) (trainFromTables π orders config treebank)
        (train π config treebank')) ∧
      ∀ orders orders', Alike (· = ·) (SameAnswers π) (trainFromTables π orders config treebank)
        (trainFromTables π orders' config treebank') := by
  rw [train_eq_trainWith]
  refine ⟨?_, fun orders => ?_, fun orders orders' => ?_⟩
  · exact (trainWith_alike faithful_ofTrees faithful_ofTrees h config).mono
      fun _ _ => SameEstimates.sameAnswers
  · exact (trainWith_alike (faithful_ofTables orders) faithful_ofTrees h config).mono
      fun _ _ => SameEstimates.sameAnswers
  · exact (trainWith_alike (faithful_ofTables orders) (faithful_ofTables orders') h config).mono
      fun _ _ => SameEstimates.sameAnswers

section Tied

/-- Two trees over the same words, which are equally probable. -/
def tiedTreebank : List Tree :=
  [.node "S" [.node "N" [.leaf "a"], .node "P" [.leaf "b"]],
    .node "S" [.node "N" [.leaf "a"], .node "O" [.leaf "b"]]]

def tiedConfig : Config where
  root := "S"

/-- Tables that list their entries from the last to the first. -/
def reversedTables : TableOrders where
  productions := ⟨List.reverse, List.reverse_perm⟩
  taggings := ⟨List.reverse, List.reverse_perm⟩
  tags := ⟨List.reverse, List.reverse_perm⟩
  reference := ⟨List.reverse, List.reverse_perm⟩

/-- Which of the two trees a parser returns does not depend on which of them comes first. -/
theorem train_alike_tied : ∃ model model' : Model Likelihood,
    trainFromTables ℚ reversedTables tiedConfig tiedTreebank = .ok model ∧
      train ℚ tiedConfig tiedTreebank.reverse = .ok model' ∧ model.SameAnswers ℚ model' ∧
      ((model.withOpenClass true).parser ℚ).tree? ["a", "b"] =
        .ok (some (.node "S" [.node "N" [.leaf "a"], .node "O" [.leaf "b"]])) := by
  have hresult : ((train ℚ tiedConfig tiedTreebank.reverse).toOption.bind fun model =>
      (((model.withOpenClass true).parser ℚ).tree? ["a", "b"]).toOption) =
        some (some (.node "S" [.node "N" [.leaf "a"], .node "O" [.leaf "b"]])) := by
    decide +kernel
  -- Sorting does not evaluate in the kernel, so the model of the tables comes from the theorem.
  obtain ⟨model', htrain', htree⟩ := toOption_bind_eq_some.mp hresult
  have halike := (train_alike (π := ℚ) (List.reverse_perm tiedTreebank).symm tiedConfig).2.1
    reversedTables
  rw [htrain'] at halike
  generalize htrain : trainFromTables ℚ reversedTables tiedConfig tiedTreebank = result at halike
  cases halike with
  | @ok model _ hsame =>
    refine ⟨model, model', rfl, htrain', hsame, ?_⟩
    rw [hsame.tree? true]
    cases htree' : ((model'.withOpenClass true).parser ℚ).tree? ["a", "b"] with
    | error e => simp [htree', Except.toOption] at htree
    | ok tree => simpa [htree', Except.toOption] using htree

end Tied

end Model

end Constituency

import Constituency.Proofs.ChainProductions
import Constituency.Proofs.TrainedParser

/-!
# Known productions

The rules of the chains of different productions may be put together in a derivation. As long as
the labels of the chains hold the whole history, the chains that meet began alike, and the end of
the last one tells the whole production.
-/

namespace Constituency

variable {π σ : Type}

theorem Label.IsUnmarked.joinable {label : String} (h : IsUnmarked label) : IsJoinable label :=
  ⟨h.notMem (by simp), h.startsSynthetic_eq⟩

/-- The rules of the chains that some productions with unmarked labels are split into. -/
structure SplitRules (known : List Production) (rules : Rules σ) (tags : List String) : Prop where
  unmarked : ∀ p ∈ known, ∀ x ∈ p.parent :: p.children, Label.IsUnmarked x
  tag : ∀ tag ∈ tags, Label.IsUnmarked tag
  unary : ∀ rule ∈ rules.unary, ∃ p ∈ known, ⟨rule.parent, [rule.child]⟩ ∈ p.chain none
  binary : ∀ rule ∈ rules.binary,
    ∃ p ∈ known, ⟨rule.parent, [rule.left, rule.right]⟩ ∈ p.chain none

namespace SplitRules

variable {known : List Production} {rules : Rules σ} {tags : List String}
  (h : SplitRules known rules tags)
include h

theorem unary_cases {rule : UnaryRule σ} (hrule : rule ∈ rules.unary) :
    ⟨rule.parent, [rule.child]⟩ ∈ known := by
  obtain ⟨⟨parent, children⟩, hp, hmem⟩ := h.unary rule hrule
  obtain ⟨hparent, rfl : children = _⟩ := unary_mem_chainProductions hmem
  rw [Label.stage_nil] at hparent
  rwa [hparent]

/-- Either the last two children of a known production meet, or a child and the rest of a chain. -/
theorem binary_cases {rule : BinaryRule σ} (hrule : rule ∈ rules.binary) :
    ∃ parent history rest, ⟨parent, history ++ rule.left :: rest⟩ ∈ known ∧
      rule.parent = Label.stage parent none history ∧
      (rest = [rule.right] ∨ rule.right = Label.stage parent none (history ++ [rule.left])) := by
  obtain ⟨⟨parent, children⟩, hp, hmem⟩ := h.binary rule hrule
  obtain ⟨history, rest, rfl : children = _, hparent, hright⟩ := binary_mem_chainProductions hmem
  exact ⟨parent, history, rest, hp, hparent, hright⟩

end SplitRules

namespace Tree

variable {known : List Production} {a : String} {history : List String} {t : Tree}

/-- Every node but words and tags has a known production. -/
def IsKnown (known : List Production) (t : Tree) : Prop :=
  ∀ u ∈ t.subtrees, u.isLeaf = false → u.isPreterminal = false → u.production ∈ known

/-- What the tree contributes makes, after the history, a known production below `a`. A tag over a
word makes none. -/
structure Completes (known : List Production) (a : String) (history : List String) (t : Tree) :
    Prop where
  production : (history = [] ∧ ∃ word, t.children = [leaf word]) ∨
    ⟨a, history ++ (t.children.flatMap plainParts).map label⟩ ∈ known
  known_below : ∀ u ∈ t.children.flatMap plainParts, u.IsKnown known

theorem isKnown_leaf (word : String) : (leaf word).IsKnown known :=
  forall_mem_subtrees_node.mpr ⟨fun hleaf => by simp at hleaf, by simp⟩

theorem isKnown_tag (a word : String) : (node a [leaf word]).IsKnown known := by
  refine forall_mem_subtrees_node.mpr ⟨?_, ?_⟩
  · intro _ hpreterminal
    simp [leaf, isPreterminal] at hpreterminal
  · intro t ht
    obtain rfl := List.mem_singleton.mp ht
    exact isKnown_leaf word

variable (h : Completes known a [] t) (ha : Label.IsUnmarked a) (hlabel : t.label = a)
  (hleaf : t.isLeaf = false)
include h ha hlabel hleaf

theorem Completes.isKnown_plain : t.plain.IsKnown known := by
  obtain ⟨a, ts⟩ := t
  obtain rfl : a = _ := hlabel
  rw [plain_node (by simpa using hleaf), ha.category_eq]
  rcases h.production with ⟨-, word, rfl : ts = _⟩ | hmem
  · exact isKnown_tag a word
  · exact forall_mem_subtrees_node.mpr ⟨fun _ _ => hmem, h.known_below⟩

/-- A node that is not synthetic contributes itself. -/
theorem Completes.parts : t.plainParts.map label = [a] ∧ ∀ u ∈ t.plainParts, u.IsKnown known := by
  have hparts : t.plainParts = [t.plain] := by
    simp [plainParts, isSynthetic, hlabel, ha.startsSynthetic_eq]
  have hplain : t.plain.label = a := by rw [label_plain hleaf, hlabel, ha.category_eq]
  rw [hparts]
  simpa [hplain] using h.isKnown_plain ha hlabel hleaf

end Tree

namespace Derives

variable [Score σ] [Probability π σ] {known : List Production} {rules : Rules σ}
  {lexicon : Lexicon π} {sentence : List String} {c : Constituent} {t : Tree} {score : σ}
  {a : String} {history : List String} (hsplit : SplitRules known rules lexicon.tags)
include hsplit

/-- A derivation of the rest of a chain completes a known production. -/
theorem completes (h : Derives rules lexicon sentence c t score)
    (hx : ∀ x ∈ a :: history, Label.IsJoinable x) (hc : c.label = Label.stage a none history) :
    Tree.Completes known a history t := by
  have joinable {parent : String} {children labels : List String}
      (hp : ⟨parent, children⟩ ∈ known) (hlabels : labels ⊆ children) :
      ∀ x ∈ parent :: labels, Label.IsJoinable x := fun x hx =>
    (hsplit.unmarked _ hp x (List.cons_subset_cons parent hlabels hx)).joinable
  have unmarked {parent label : String} {children : List String}
      (hp : ⟨parent, children⟩ ∈ known) (hlabel : label ∈ children) : Label.IsUnmarked label :=
    hsplit.unmarked _ hp label (List.mem_cons_of_mem parent hlabel)
  induction h generalizing a history with
  | @tag i word tag score hword hscore =>
    have htag := (hsplit.tag tag (Lexicon.mem_tags_of_tagScore? hscore)).joinable
    obtain ⟨rfl, rfl⟩ := Label.stage_none_injective hx (by simpa using htag)
      (hc.symm.trans Label.stage_nil.symm)
    have hparts : (Tree.leaf word).plainParts = [Tree.leaf word] := rfl
    refine ⟨.inl ⟨rfl, word, rfl⟩, ?_⟩
    simpa [hparts] using Tree.isKnown_leaf word
  | @unary rule span t score hrule child ih =>
    have hp := hsplit.unary_cases hrule
    obtain ⟨rfl, rfl⟩ := Label.stage_none_injective hx (joinable hp (List.nil_subset _))
      (hc.symm.trans Label.stage_nil.symm)
    have hchild := unmarked hp List.mem_cons_self
    obtain ⟨hlabels, hknown⟩ := (ih (by simpa using hchild.joinable) Label.stage_nil.symm).parts
      hchild child.label_eq child.isLeaf_eq
    exact ⟨.inr (by simpa [hlabels] using hp), by simpa using hknown⟩
  | @binary rule i k j t u x y hrule left right ihl ihr =>
    obtain ⟨parent, history', rest, hp, hparent, hright⟩ := hsplit.binary_cases hrule
    obtain ⟨rfl, rfl⟩ := Label.stage_none_injective hx
      (joinable hp (List.subset_append_left _ _)) (hc.symm.trans hparent)
    have hleft := unmarked hp (List.mem_append_right _ List.mem_cons_self)
    obtain ⟨hlabels, hknown⟩ := (ihl (by simpa using hleft.joinable) Label.stage_nil.symm).parts
      hleft left.label_eq left.isLeaf_eq
    rcases hright with rfl | hright
    · have hlast : Label.IsUnmarked rule.right := unmarked hp (by simp)
      obtain ⟨hlabels', hknown'⟩ := (ihr (by simpa using hlast.joinable)
        Label.stage_nil.symm).parts hlast right.label_eq right.isLeaf_eq
      refine ⟨.inr (by simpa [hlabels, hlabels'] using hp), ?_⟩
      simpa only [Tree.children_node, List.flatMap_cons, List.flatMap_nil, List.append_nil]
        using List.forall_mem_append.mpr ⟨hknown, hknown'⟩
    · have hrest := ihr (joinable hp (by simp)) hright
      obtain ⟨b, ts⟩ := u
      obtain rfl : b = rule.right := right.label_eq
      have hparts : (Tree.node rule.right ts).plainParts = ts.flatMap Tree.plainParts := by
        rw [hright, Label.stage_concat]
        exact Tree.plainParts_synthetic (by simpa using right.isLeaf_eq)
      have hknown' : ∀ u ∈ ts.flatMap Tree.plainParts, u.IsKnown known := hrest.known_below
      obtain ⟨hnil, -⟩ | hmem := hrest.production
      · simp at hnil
      · rw [Tree.children_node, List.append_assoc] at hmem
        refine ⟨.inr ?_, ?_⟩
        · simpa [hlabels, hparts] using hmem
        · simpa only [Tree.children_node, List.flatMap_cons, List.flatMap_nil, List.append_nil,
            hparts] using List.forall_mem_append.mpr ⟨hknown, hknown'⟩

/-- What is derived under a label that is not synthetic has known productions only. -/
theorem isKnown_plain (h : Derives rules lexicon sentence c t score)
    (hc : Label.startsSynthetic c.label = false) : t.plain.IsKnown known := by
  have hunmarked : Label.IsUnmarked c.label := by
    cases h with
    | tag hword hscore => exact hsplit.tag _ (Lexicon.mem_tags_of_tagScore? hscore)
    | unary hrule child => exact hsplit.unmarked _ (hsplit.unary_cases hrule) _ List.mem_cons_self
    | binary hrule left right =>
      obtain ⟨parent, history, rest, hp, hparent, -⟩ := hsplit.binary_cases hrule
      by_cases hnil : history = []
      · subst hnil
        rw [Label.stage_nil] at hparent
        exact hparent ▸ hsplit.unmarked _ hp _ List.mem_cons_self
      · simp [hparent, Label.stage, hnil, Label.startsSynthetic, Label.toList_synthetic] at hc
  have hcompletes : Tree.Completes known c.label [] t :=
    completes hsplit h (by simpa using hunmarked.joinable) Label.stage_nil.symm
  exact hcompletes.isKnown_plain hunmarked h.label_eq h.isLeaf_eq

end Derives

namespace Model

variable [Score σ] [Probability π σ] {config : Config} {treebank : List Tree} {model : Model σ}
  {sentence : List String} {t : Tree}

/-- Without marks of ancestors and with the whole history, the rules of a trained model are those
of the chains of the treebank. -/
theorem splitRules (htagged : ∀ t ∈ treebank, t.IsTagged)
    (hlabels : ∀ t ∈ treebank, ∀ u ∈ t.subtrees, u.isLeaf = false → Label.IsUnmarked u.label)
    (hconfig : config.markovization = {}) (htrain : train π config treebank = .ok model) :
    SplitRules (treebank.flatMap Tree.productions) model.rules.toRules
      (model.parser π).lexicon.tags := by
  obtain ⟨-, trees, htrees, hrules, hcounts, -⟩ := train_eq_ok htrain
  rw [hconfig] at htrees
  have marked {d : Tree} (hd : d ∈ trees) : ∃ t ∈ treebank, t.markedBelow {} [] = d := by
    obtain ⟨t, ht, hmarkovize⟩ := (mem_of_mapM_eq_ok htrees).mp hd
    exact ⟨t, ht, (Tree.markovize_eq_ok.mp hmarkovize).2⟩
  have split {q : Production} (hq : q ∈ trees.flatMap Tree.productions) :
      ∃ p ∈ treebank.flatMap Tree.productions, q ∈ p.chain none := by
    obtain ⟨d, hd, hq⟩ := List.mem_flatMap.mp hq
    obtain ⟨t, ht, rfl⟩ := marked hd
    obtain ⟨p, hp, hq⟩ := List.mem_flatMap.mp
      (((htagged t ht).productions_markedBelow rfl).mem_iff.mp hq)
    exact ⟨p, List.mem_flatMap.mpr ⟨t, ht, hp⟩, hq⟩
  constructor
  · intro p hp x hx
    obtain ⟨t, ht, hp⟩ := List.mem_flatMap.mp hp
    obtain ⟨u, hu, hleaf, rfl⟩ := (htagged t ht).exists_of_mem_productions hp hx
    exact hlabels t ht u hu hleaf
  · intro tag htag
    rw [parser, hcounts, TagCounts.mem_tags_ofTrees] at htag
    obtain ⟨tagging, htagging, rfl⟩ := htag
    obtain ⟨d, hd, htagging⟩ := List.mem_flatMap.mp htagging
    obtain ⟨t, ht, rfl⟩ := marked hd
    rw [(htagged t ht).taggings_markedBelow rfl] at htagging
    obtain ⟨u, hu, -, word, hword, rfl⟩ := Tree.mem_taggings.mp htagging
    exact hlabels t ht u hu (by simpa [Tree.isLeaf] using List.ne_nil_of_mem hword)
  · intro rule hrule
    exact split (RuleIndex.unary_ofTrees hrules rule hrule)
  · intro rule hrule
    exact split (RuleIndex.binary_ofTrees hrules rule hrule)

/-- A parser that was trained without marks of ancestors and with the whole history returns only
productions of training trees, however it puts them together. -/
theorem exists_production_eq [LawfulScore σ] (htagged : ∀ t ∈ treebank, t.IsTagged)
    (hlabels : ∀ t ∈ treebank, ∀ u ∈ t.subtrees, u.isLeaf = false → Label.IsUnmarked u.label)
    (hroot : Label.startsSynthetic config.root = false) (hconfig : config.markovization = {})
    (htrain : train π config treebank = .ok model)
    (htree : (model.parser π).tree? sentence = .ok (some t)) :
    ∀ u ∈ t.subtrees, u.isLeaf = false → u.isPreterminal = false →
      ∃ s ∈ treebank, ∃ w ∈ s.subtrees, w.production = u.production := by
  have hsplit := splitRules htagged hlabels hconfig htrain
  obtain ⟨-, trees, -, hrules, -, rfl⟩ := train_eq_ok htrain
  obtain ⟨result, hparse, hresult⟩ := map_eq_ok.mp htree
  obtain ⟨parse, rfl, rfl⟩ := Option.map_eq_some_iff.mp hresult
  obtain ⟨chart, hfill, -⟩ := bind_eq_ok.mp hparse
  rw [Parser.parse?_eq_ok hfill] at hparse
  obtain ⟨score, hs, rfl⟩ := Option.map_eq_some_iff.mp (Except.ok.inj hparse)
  obtain ⟨backpointer, hentry⟩ := Chart.get?_of_score? hs
  obtain ⟨hderives, -⟩ :=
    Chart.derives_tree (RuleIndex.wellIndexed_ofTrees hrules).lists hfill hentry
  intro u hu hleaf hpreterminal
  obtain ⟨s, hs, hproduction⟩ := List.mem_flatMap.mp
    (hderives.isKnown_plain hsplit hroot u hu hleaf hpreterminal)
  obtain ⟨w, hw, -, -, heq⟩ := Tree.mem_productions.mp hproduction
  exact ⟨s, hs, w, hw, heq⟩

section Together

/-- Two trees that begin alike. -/
def alikeTreebank : List Tree :=
  [tagged "S" [("", "a"), ("B", "b"), ("C", "c"), ("D", "d")],
    tagged "S" [("", "p"), ("B", "q"), ("C", "r"), ("E", "e")]]

/-- The words are from both trees, and the production is that of the second one. -/
theorem exists_production_eq_alike : ∃ (model : Model Likelihood) (t : Tree),
    train ℚ { root := "S" } alikeTreebank = .ok model ∧
      (model.parser ℚ).tree? ["a", "q", "c", "e"] = .ok (some t) ∧
      t.production = ⟨"S", ["", "B", "C", "E"]⟩ ∧
      ∃ s ∈ alikeTreebank, ∃ w ∈ s.subtrees, w.production = t.production := by
  have hresult : ((train ℚ { root := "S" } alikeTreebank).toOption.bind fun model =>
      ((model.parser ℚ).tree? ["a", "q", "c", "e"]).toOption.join) =
      some (tagged "S" [("", "a"), ("B", "q"), ("C", "c"), ("E", "e")]) := by
    decide +kernel
  cases htrain : train ℚ { root := "S" } alikeTreebank with
  | error e => simp [htrain, Except.toOption] at hresult
  | ok model =>
    simp only [htrain, Except.toOption, Option.bind_some] at hresult
    cases htree : (model.parser ℚ).tree? ["a", "q", "c", "e"] with
    | error e => simp [htree] at hresult
    | ok result =>
      obtain rfl : result = some _ := by simpa [htree] using hresult
      exact ⟨model, _, rfl, htree, rfl, exists_production_eq (by decide +kernel)
        (by decide +kernel) (by decide +kernel) rfl htrain htree _ (Tree.mem_subtrees_self _)
        rfl rfl⟩

/-- The parser returns a tree with a production that no tree of the treebank has. -/
def Invents (config : Config) (treebank : List Tree) (sentence : List String) : Prop :=
  ∃ (model : Model Likelihood) (t : Tree), train ℚ config treebank = .ok model ∧
    (model.parser ℚ).tree? sentence = .ok (some t) ∧
      ∃ u ∈ t.subtrees, u.isLeaf = false ∧ u.isPreterminal = false ∧
        ∀ s ∈ treebank, ∀ w ∈ s.subtrees, w.production ≠ u.production

theorem invents_of_tree? {config : Config} {t : Tree}
    (h : ((train ℚ config treebank).toOption.bind fun model =>
      ((model.parser ℚ).tree? sentence).toOption.join) = some t)
    (hleaf : t.isLeaf = false) (hpreterminal : t.isPreterminal = false)
    (hnew : ∀ s ∈ treebank, ∀ w ∈ s.subtrees, w.production ≠ t.production) :
    Invents config treebank sentence := by
  cases htrain : train ℚ config treebank with
  | error e => simp [htrain, Except.toOption] at h
  | ok model =>
    simp only [htrain, Except.toOption, Option.bind_some] at h
    cases htree : (model.parser ℚ).tree? sentence with
    | error e => simp [htree] at h
    | ok result =>
      obtain rfl : result = some t := by simpa [htree] using h
      exact ⟨model, t, htrain, htree, t, Tree.mem_subtrees_self t, hleaf, hpreterminal, hnew⟩

/-- A label that reads like two. -/
def joinedTreebank : List Tree :=
  [tagged "X" [("A_B", "a"), ("C", "c"), ("D", "d")],
    tagged "X" [("A", "p"), ("B", "b"), ("E", "e"), ("F", "f")]]

/-- Labels may have been joined before, and the root may be the rest of a chain. -/
theorem invents_joined :
    (∀ t ∈ joinedTreebank, t.IsTagged ∧
      ∀ u ∈ t.subtrees, u.label.toList.all fun c => c ∉ ['@', '^', '-', '=']) ∧
    Invents { root := "X" } joinedTreebank ["a", "e", "f"] ∧
    Invents { root := "@X->_A" } joinedTreebank ["b", "e", "f"] := by
  refine ⟨by decide +kernel, ?_, ?_⟩
  · exact invents_of_tree? (t := tagged "X" [("A_B", "a"), ("E", "e"), ("F", "f")])
      (by decide +kernel) rfl rfl (by decide +kernel)
  · exact invents_of_tree? (t := tagged "@X" [("B", "b"), ("E", "e"), ("F", "f")])
      (by decide +kernel) rfl rfl (by decide +kernel)

end Together

end Model

end Constituency

import Constituency.Proofs.Backpointers
import Constituency.Proofs.PlainTree
import Constituency.Proofs.Viterbi

/-!
# Recorded trees

The score of an entry and the scores of its parts may disagree for a while: a part improves, and
what was made of it is not looked at again until its label comes up. In a filled chart they agree
again, so that the tree along the backpointers earns the recorded score.
-/

namespace Constituency

variable {π σ : Type} [Score σ] [Probability π σ] {rules : Rules σ} {lexicon : Lexicon π}
  {sentence : List String} {c : Constituent} {t : Tree} {score : σ}

namespace Derives

theorem label_eq (h : Derives rules lexicon sentence c t score) : t.label = c.label := by
  cases h <;> rfl

theorem isLeaf_eq (h : Derives rules lexicon sentence c t score) : t.isLeaf = false := by
  cases h <;> rfl

/-- A derivation has the words that its constituent spans. -/
theorem words_eq (h : Derives rules lexicon sentence c t score) :
    t.words = sentence.extract c.span.start c.span.stop := by
  induction h with
  | @tag i word _ _ hword _ =>
    obtain ⟨hi, rfl⟩ := List.getElem?_eq_some_iff.mp hword
    rw [Tree.words_node (by simp)]
    simp [Tree.words_leaf, List.extract_eq_take_drop, List.take_one_drop_eq_of_lt_length hi]
  | unary _ _ ih => simpa [Tree.words_node] using ih
  | @binary rule i k j t u _ _ _ left right ihl ihr =>
    have hik := left.span_bounds.1
    have hkj := right.span_bounds.1
    dsimp only at hik hkj ihl ihr ⊢
    rw [Tree.words_node (by simp)]
    simp only [List.flatMap_cons, List.flatMap_nil, List.append_nil, ihl, ihr,
      List.extract_eq_take_drop]
    rw [show j - i = (k - i) + (j - k) by omega, List.take_add, List.drop_drop,
      show i + (k - i) = k by omega]

end Derives

namespace Chart

/-- An entry that agrees with the scores that its parts have and with the best rule for them. -/
inductive Accounted (rules : Rules σ) (lexicon : Lexicon π) (sentence : List String)
    (chart : Chart σ) : Constituent → Entry σ → Prop where
  | tag {i : Nat} {word tag : String} {score : σ}
      (hword : sentence[i]? = some word) (hscore : lexicon.tagScore? word tag = some score) :
      Accounted rules lexicon sentence chart ⟨tag, ⟨i, i + 1⟩⟩
        ⟨score, .terminal (.word word i)⟩
  | unary {parent : String} {child : Constituent} {x best : σ}
      (hchild : chart.score? child = some x)
      (hrule : ⟨parent, child.label, best⟩ ∈ rules.unary)
      (hbest : rules.unaryScore? parent child.label = some best) :
      Accounted rules lexicon sentence chart ⟨parent, child.span⟩ ⟨x + best, .unary child⟩
  | binary {parent : String} {left right : String} {i k j : Nat} {x y best : σ}
      (hleft : chart.score? ⟨left, ⟨i, k⟩⟩ = some x)
      (hright : chart.score? ⟨right, ⟨k, j⟩⟩ = some y)
      (hrule : ⟨parent, left, right, best⟩ ∈ rules.binary)
      (hbest : rules.binaryScore? parent left right = some best) :
      Accounted rules lexicon sentence chart ⟨parent, ⟨i, j⟩⟩
        ⟨x + y + best, .binary ⟨left, ⟨i, k⟩⟩ ⟨right, ⟨k, j⟩⟩⟩

variable [LawfulScore σ] {grammar : Grammar σ} {rounds : Nat} {chart : Chart σ} {entry : Entry σ}

/-- The parts of an entry are at least as good as when it was written, and what they are worth now
has been offered for the entry, too: both must be the same. -/
theorem accounted_of_fill (hg : grammar.Lists rules)
    (hfill : fill grammar lexicon rounds sentence = .ok chart) (hc : chart.get? c = some entry) :
    Accounted rules lexicon sentence chart c entry := by
  have hclosed := closedOver_of_fill hg hfill
  have hscore := score?_of_get? hc
  obtain ⟨earlier, _, hextends, hl⟩ := (Grown.of_fill hfill).licensed hc
  cases hl with
  | tag hword htag => exact .tag hword htag
  | @unary child x rule hchild hfollows hrule =>
    obtain ⟨hmem, hlabel⟩ := hg.mem_unaryByChild.mp hrule
    obtain ⟨best, hbest, hle, hbestmem⟩ := rules.exists_unaryScore? hmem
    obtain ⟨y, hy, hxy⟩ := hextends child x (Has.of_score? hchild)
    obtain ⟨label, span⟩ := child
    obtain rfl := hlabel
    have hfollows : span.Follows y := fun h => LawfulScore.possible_of_le hxy (hfollows h)
    have hnow : y + best ≤ x + rule.score :=
      ((hclosed span).unary _ hbestmem y hy hfollows).le hscore
    have hthen : x + rule.score ≤ y + best := LawfulScore.add_le_add hxy hle
    rw [Std.le_antisymm hthen hnow]
    exact .unary hy hbestmem hbest
  | @binary i k j rule x y hrule hik hkj hleft hright =>
    obtain ⟨best, hbest, hle, hbestmem⟩ := rules.exists_binaryScore? (hg.mem_binary hrule)
    obtain ⟨x', hx', hxx⟩ := hextends _ x (Has.of_score? hleft)
    obtain ⟨y', hy', hyy⟩ := hextends _ y (Has.of_score? hright)
    have hnow : x' + y' + best ≤ x + y + rule.score :=
      ((hclosed ⟨i, j⟩).binary _ hbestmem k x' y' hik hkj hx' hy').le hscore
    have hthen : x + y + rule.score ≤ x' + y' + best :=
      LawfulScore.add_le_add (LawfulScore.add_le_add hxx hyy) hle
    rw [Std.le_antisymm hthen hnow]
    exact .binary hx' hy' hbestmem hbest

/-- The tree along the backpointers is a derivation, and rescored it earns what it is said to. -/
theorem derives_tree (hg : grammar.Lists rules)
    (hfill : fill grammar lexicon rounds sentence = .ok chart) (hc : chart.get? c = some entry) :
    Derives rules lexicon sentence c (chart.tree c) entry.score ∧
      rules.rescore? lexicon (chart.tree c) = some entry.score := by
  have hgrown := Grown.of_fill hfill
  induction c using hgrown.wellFounded_child.induction generalizing entry with
  | _ c ih =>
    have htree := hgrown.tree_eq c
    simp only [hc] at htree
    rw [htree]
    have part (d : Constituent) (x : σ) (hd : d ∈ entry.backpointer.children)
        (hx : chart.score? d = some x) :
        Derives rules lexicon sentence d (chart.tree d) x ∧
          rules.rescore? lexicon (chart.tree d) = some x := by
      obtain ⟨backpointer, hb⟩ := get?_of_score? hx
      exact ih d ⟨entry, hc, hd⟩ hb
    cases accounted_of_fill hg hfill hc with
    | @tag i word _ _ hword hscore =>
      have hleaf : chart.tree (.word word i) = .leaf word := by
        have hnone : chart.get? (.word word i) = none := by
          simpa using hgrown.word_has_no_entry ⟨i, word, hword, rfl⟩
        rw [hgrown.tree_eq, hnone]
        rfl
      simp only [Backpointer.children, List.map_cons, List.map_nil, hleaf]
      exact ⟨.tag hword hscore, hscore⟩
    | @unary parent child x best hchild hrule hbest =>
      obtain ⟨hderives, hrescore⟩ := part child x (by simp [Backpointer.children]) hchild
      obtain ⟨label, span⟩ := child
      refine ⟨.unary hrule hderives, ?_⟩
      simp [Backpointer.children, Rules.rescore?_unary hderives.isLeaf_eq, hrescore,
        hderives.label_eq, hbest]
    | @binary parent left right i k j x y best hleft hright hrule hbest =>
      obtain ⟨hl, hlscore⟩ := part _ x (by simp [Backpointer.children]) hleft
      obtain ⟨hr, hrscore⟩ := part _ y (by simp [Backpointer.children]) hright
      refine ⟨.binary hrule hl hr, ?_⟩
      simp [Backpointer.children, Rules.rescore?, hlscore, hrscore, hl.label_eq, hr.label_eq,
        hbest]

end Chart

namespace Parser

variable {parser : Parser π σ} {chart : Chart σ}

/-- What the tree along the backpointers of an entry says: which part of the sentence it is a
derivation of, and which score it earns. -/
structure Records (rules : Rules σ) (lexicon : Lexicon π) (sentence : List String)
    (c : Constituent) (t : Tree) (score : σ) : Prop where
  label : t.label = c.label
  words : t.words = sentence.extract c.span.start c.span.stop
  derives : Derives rules lexicon sentence c t score
  rescored : rules.rescore? lexicon t = some score

theorem records_tree [LawfulScore σ] {entry : Entry σ} (hg : parser.grammar.Lists rules)
    (hfill : parser.fillChart sentence = .ok chart) (hc : chart.get? c = some entry) :
    Records rules parser.lexicon sentence c (chart.tree c) entry.score := by
  obtain ⟨hderives, hrescored⟩ := Chart.derives_tree hg hfill hc
  exact ⟨hderives.label_eq, hderives.words_eq, hderives, hrescored⟩

/-- Every entry of a filled chart has a derivation recorded that earns its score. The plain tree of
a parse has the words of the sentence under the category of the root, and the score of the parse is
that of the derivation it was made from. -/
theorem recorded_derivations [LawfulScore σ] (hg : parser.grammar.Lists rules)
    (hfill : parser.fillChart sentence = .ok chart) :
    (∀ c entry, chart.get? c = some entry →
      c.span.start < c.span.stop ∧ c.span.stop ≤ sentence.length ∧
        Records rules parser.lexicon sentence c (chart.tree c) entry.score) ∧
    ∀ parse, parser.parse? sentence = .ok (some parse) →
      parse.tree.words = sentence ∧ parse.tree.label = Label.category parser.config.root ∧
        ∃ d, d.plain = parse.tree ∧
          Records rules parser.lexicon sentence (parser.root sentence) d parse.score := by
  constructor
  · intro c entry hc
    have hrecords := records_tree hg hfill hc
    exact ⟨hrecords.derives.span_bounds.1, hrecords.derives.span_bounds.2, hrecords⟩
  · intro parse hparse
    rw [parse?_eq_ok hfill] at hparse
    obtain ⟨score, hs, rfl⟩ := Option.map_eq_some_iff.mp (Except.ok.inj hparse)
    obtain ⟨backpointer, hentry⟩ := Chart.get?_of_score? hs
    have hrecords := records_tree hg hfill hentry
    refine ⟨?_, ?_, _, rfl, hrecords⟩
    · rw [Tree.words_plain, hrecords.words]
      simp [root, List.extract_eq_take_drop]
    · rw [Tree.label_plain hrecords.derives.isLeaf_eq, hrecords.label]
      rfl

section Stale

/-- `P` is made of `A` before `A` gets better by way of `Z`. -/
def staleRules : Rules Likelihood where
  unary := [⟨"P", "A", .ofRat 1⟩, ⟨"A", "Z", .ofRat 1⟩, ⟨"A", "Z", .ofRat (1 / 3)⟩]

def staleParser : Parser ℚ Likelihood where
  grammar := staleRules.toGrammar
  lexicon := { tags := ["A", "Z"], score := fun _ tag => if tag = "Z" then 1 / 2 else 1 / 4 }
  config := { root := "P" }

theorem recorded_derivations_stale : ∃ parse,
    staleParser.parse? ["w"] = .ok (some parse) ∧ parse.score = .ofRat (1 / 2) ∧
      parse.tree.words = ["w"] ∧ ∃ d, d.plain = parse.tree ∧
        Records staleRules staleParser.lexicon ["w"] (staleParser.root ["w"]) d parse.score := by
  have hscore : (staleParser.fillChart ["w"]).toOption.bind
      (·.score? (staleParser.root ["w"])) = some (.ofRat (1 / 2)) := by decide +kernel
  cases hfill : staleParser.fillChart ["w"] with
  | error e => simp [hfill, Except.toOption] at hscore
  | ok chart =>
    have hroot : chart.score? (staleParser.root ["w"]) = some (.ofRat (1 / 2)) := by
      simpa [hfill, Except.toOption] using hscore
    have hparse := parse?_eq_ok hfill
    rw [hroot] at hparse
    obtain ⟨hwords, _, hd⟩ :=
      (recorded_derivations staleRules.lists_toGrammar hfill).2 _ hparse
    exact ⟨_, hparse, rfl, hwords, hd⟩

end Stale

end Parser

end Constituency

import Constituency.Constituent
import Constituency.Grammar
import Constituency.Lexicon
import Constituency.Proofs.Score

/-!
# Derivations

A derivation puts a constituent together from the words up: a tag over each word and a rule at
every other node. Nothing here mentions a chart.
-/

namespace Constituency

variable {π σ : Type}

/-- The rules of a grammar. The same rule may be there more than once, with different scores. -/
structure Rules (σ : Type) where
  unary : List (UnaryRule σ) := []
  binary : List (BinaryRule σ) := []

/-- The lookups list these rules, each under its children and in whatever order. -/
structure Grammar.Lists (grammar : Grammar σ) (rules : Rules σ) : Prop where
  mem_unaryByChild {rule : UnaryRule σ} {label : String} :
    rule ∈ grammar.unaryByChild label ↔ rule ∈ rules.unary ∧ rule.child = label
  mem_binaryByLeft {rule : BinaryRule σ} {label : String} :
    rule ∈ grammar.binaryByLeft label ↔ rule ∈ rules.binary ∧ rule.left = label
  mem_binaryByRight {rule : BinaryRule σ} {label : String} :
    rule ∈ grammar.binaryByRight label ↔ rule ∈ rules.binary ∧ rule.right = label

/-- The lookups in a list of rules. -/
def Rules.toGrammar (rules : Rules σ) : Grammar σ where
  unaryByChild label := rules.unary.filter (·.child = label)
  binaryByLeft label := rules.binary.filter (·.left = label)
  binaryByRight label := rules.binary.filter (·.right = label)

theorem Rules.lists_toGrammar (rules : Rules σ) : rules.toGrammar.Lists rules := by
  constructor <;> simp [toGrammar]

/-- The score of a word under a tag that the lexicon tries and gives a positive probability. -/
def Lexicon.tagScore? [Probability π σ] (lexicon : Lexicon π) (word tag : String) : Option σ :=
  if tag ∈ lexicon.tags ∧ Probability.isZero (lexicon.score word tag) = false then
    (Probability.score (lexicon.score word tag)).toOption
  else none

theorem Lexicon.mem_tags_of_tagScore? [Probability π σ] {lexicon : Lexicon π} {word tag : String}
    {score : σ} (h : lexicon.tagScore? word tag = some score) : tag ∈ lexicon.tags := by
  unfold tagScore? at h
  split at h
  · rename_i ht
    exact ht.1
  · simp at h

theorem Lexicon.tagScore?_of_subset [Probability π σ] {lexicon : Lexicon π} {tags : List String}
    {word tag : String} {score : σ} (h : tags ⊆ lexicon.tags)
    (hs : Lexicon.tagScore? { lexicon with tags } word tag = some score) :
    lexicon.tagScore? word tag = some score := by
  unfold tagScore? at hs ⊢
  split at hs
  · rename_i ht
    rwa [if_pos ⟨h ht.1, ht.2⟩]
  · simp at hs

/-- `Derives rules lexicon sentence c t score`: the tree `t` derives the constituent `c` of the
sentence, and it earns the score. -/
inductive Derives [Score σ] [Probability π σ] (rules : Rules σ) (lexicon : Lexicon π)
    (sentence : List String) : Constituent → Tree → σ → Prop where
  | tag {i : Nat} {word tag : String} {score : σ}
      (hword : sentence[i]? = some word) (hscore : lexicon.tagScore? word tag = some score) :
      Derives rules lexicon sentence ⟨tag, ⟨i, i + 1⟩⟩ (.node tag [.leaf word]) score
  | unary {rule : UnaryRule σ} {span : Span} {t : Tree} {score : σ}
      (hrule : rule ∈ rules.unary)
      (child : Derives rules lexicon sentence ⟨rule.child, span⟩ t score) :
      Derives rules lexicon sentence ⟨rule.parent, span⟩ (.node rule.parent [t])
        (score + rule.score)
  | binary {rule : BinaryRule σ} {i k j : Nat} {t u : Tree} {x y : σ}
      (hrule : rule ∈ rules.binary)
      (left : Derives rules lexicon sentence ⟨rule.left, ⟨i, k⟩⟩ t x)
      (right : Derives rules lexicon sentence ⟨rule.right, ⟨k, j⟩⟩ u y) :
      Derives rules lexicon sentence ⟨rule.parent, ⟨i, j⟩⟩ (.node rule.parent [t, u])
        (x + y + rule.score)

theorem Derives.span_bounds [Score σ] [Probability π σ] {rules : Rules σ} {lexicon : Lexicon π}
    {sentence : List String} {c : Constituent} {t : Tree} {score : σ}
    (h : Derives rules lexicon sentence c t score) :
    c.span.start < c.span.stop ∧ c.span.stop ≤ sentence.length := by
  induction h with
  | @tag i _ _ _ hword _ =>
    obtain ⟨hi, _⟩ := List.getElem?_eq_some_iff.mp hword
    exact ⟨Nat.lt_succ_self i, hi⟩
  | unary _ _ ih => exact ih
  | binary _ _ _ left right => exact ⟨Nat.lt_trans left.1 right.1, right.2⟩

/-- The scores of all derivations of a constituent. -/
def derivationScores [Score σ] [Probability π σ] (rules : Rules σ) (lexicon : Lexicon π)
    (sentence : List String) (c : Constituent) : Set σ :=
  {score | ∃ t, Derives rules lexicon sentence c t score}

section Rescoring

variable [Score σ]

/-- The best of some scores, if there are any. -/
def best? : List σ → Option σ
  | [] => none
  | a :: scores =>
    match best? scores with
    | none => some a
    | some b => some (if a ≤ b then b else a)

@[simp] theorem best?_eq_none {scores : List σ} : best? scores = none ↔ scores = [] := by
  cases scores with
  | nil => simp [best?]
  | cons a scores =>
    simp only [best?]
    split <;> simp

theorem isGreatest_of_best? [LawfulScore σ] {scores : List σ} {b : σ} (h : best? scores = some b) :
    IsGreatest {a | a ∈ scores} b := by
  induction scores generalizing b with
  | nil => simp [best?] at h
  | cons a scores ih =>
    cases hr : best? scores with
    | none =>
      obtain rfl := best?_eq_none.mp hr
      obtain rfl : a = b := by simpa [best?] using h
      refine ⟨by simp, ?_⟩
      intro x hx
      obtain rfl : x = a := by simpa using hx
      exact Std.le_refl x
    | some r =>
      obtain ⟨hmem, hup⟩ := ih hr
      simp only [best?, hr, Option.some.injEq] at h
      split at h
      · rename_i hle
        subst h
        refine ⟨List.mem_cons_of_mem a hmem, ?_⟩
        intro x hx
        rcases List.mem_cons.mp hx with rfl | hx
        · exact hle
        · exact hup hx
      · rename_i hle
        subst h
        refine ⟨List.mem_cons_self, ?_⟩
        intro x hx
        rcases List.mem_cons.mp hx with rfl | hx
        · exact Std.le_refl x
        · exact Std.le_trans (hup hx) (LawfulScore.le_of_not_le hle)

theorem best?_eq_some_iff [LawfulScore σ] {scores : List σ} {b : σ} :
    best? scores = some b ↔ IsGreatest {a | a ∈ scores} b := by
  refine ⟨isGreatest_of_best?, ?_⟩
  intro h
  cases hr : best? scores with
  | none =>
    have hmem := h.1
    simp [best?_eq_none.mp hr] at hmem
  | some r =>
    have hg := isGreatest_of_best? hr
    exact congrArg some (Std.le_antisymm (h.2 hg.1) (hg.2 h.1))

namespace Rules

/-- The best score of a unary rule with these labels. -/
def unaryScore? (rules : Rules σ) (parent child : String) : Option σ :=
  best? ((rules.unary.filter fun r => r.parent = parent ∧ r.child = child).map UnaryRule.score)

/-- The best score of a binary rule with these labels. -/
def binaryScore? (rules : Rules σ) (parent left right : String) : Option σ :=
  best? ((rules.binary.filter fun r =>
    r.parent = parent ∧ r.left = left ∧ r.right = right).map BinaryRule.score)

/-- The score that a tree earns bottom-up: a tag over a word what the lexicon says, and any other
node what its children earn and the best rule for it. -/
def rescore? [Probability π σ] (rules : Rules σ) (lexicon : Lexicon π) : Tree → Option σ
  | .node tag [.node word []] => lexicon.tagScore? word tag
  | .node parent [child] => do
    return (← rules.rescore? lexicon child) + (← rules.unaryScore? parent child.label)
  | .node parent [left, right] => do
    return (← rules.rescore? lexicon left) + (← rules.rescore? lexicon right) +
      (← rules.binaryScore? parent left.label right.label)
  | _ => none

variable [LawfulScore σ] {rules : Rules σ} {parent child left right : String} {score : σ}

theorem unaryScore?_eq_some_iff : rules.unaryScore? parent child = some score ↔
    IsGreatest {s | ⟨parent, child, s⟩ ∈ rules.unary} score := by
  rw [unaryScore?, best?_eq_some_iff]
  have hset : {a | a ∈ (rules.unary.filter fun r => r.parent = parent ∧ r.child = child).map
      UnaryRule.score} = {s | ⟨parent, child, s⟩ ∈ rules.unary} := by
    ext s
    simp only [Set.mem_ofPred_eq, List.mem_map, List.mem_filter, decide_eq_true_eq]
    constructor
    · intro h
      obtain ⟨r, ⟨hr, rfl, rfl⟩, rfl⟩ := h
      exact hr
    · intro hr
      exact ⟨_, ⟨hr, rfl, rfl⟩, rfl⟩
  rw [hset]

theorem binaryScore?_eq_some_iff : rules.binaryScore? parent left right = some score ↔
    IsGreatest {s | ⟨parent, left, right, s⟩ ∈ rules.binary} score := by
  rw [binaryScore?, best?_eq_some_iff]
  have hset : {a | a ∈ (rules.binary.filter fun r =>
      r.parent = parent ∧ r.left = left ∧ r.right = right).map BinaryRule.score} =
      {s | ⟨parent, left, right, s⟩ ∈ rules.binary} := by
    ext s
    simp only [Set.mem_ofPred_eq, List.mem_map, List.mem_filter, decide_eq_true_eq]
    constructor
    · intro h
      obtain ⟨r, ⟨hr, rfl, rfl, rfl⟩, rfl⟩ := h
      exact hr
    · intro hr
      exact ⟨_, ⟨hr, rfl, rfl, rfl⟩, rfl⟩
  rw [hset]

/-- Of the rules with the same labels there is a best one. -/
theorem exists_unaryScore? {rule : UnaryRule σ} (h : rule ∈ rules.unary) :
    ∃ best, rules.unaryScore? rule.parent rule.child = some best ∧ rule.score ≤ best ∧
      ⟨rule.parent, rule.child, best⟩ ∈ rules.unary := by
  cases hb : rules.unaryScore? rule.parent rule.child with
  | none =>
    have hnil := List.map_eq_nil_iff.mp (best?_eq_none.mp hb)
    exact absurd (List.filter_eq_nil_iff.mp hnil rule h) (by simp)
  | some best =>
    have hg := unaryScore?_eq_some_iff.mp hb
    exact ⟨best, rfl, hg.2 h, hg.1⟩

theorem exists_binaryScore? {rule : BinaryRule σ} (h : rule ∈ rules.binary) :
    ∃ best, rules.binaryScore? rule.parent rule.left rule.right = some best ∧
      rule.score ≤ best ∧ ⟨rule.parent, rule.left, rule.right, best⟩ ∈ rules.binary := by
  cases hb : rules.binaryScore? rule.parent rule.left rule.right with
  | none =>
    have hnil := List.map_eq_nil_iff.mp (best?_eq_none.mp hb)
    exact absurd (List.filter_eq_nil_iff.mp hnil rule h) (by simp)
  | some best =>
    have hg := binaryScore?_eq_some_iff.mp hb
    exact ⟨best, rfl, hg.2 h, hg.1⟩

omit [LawfulScore σ] in
theorem rescore?_unary [Probability π σ] {lexicon : Lexicon π} {t : Tree} (h : t.isLeaf = false)
    (parent : String) :
    rules.rescore? lexicon (.node parent [t]) = do
      return (← rules.rescore? lexicon t) + (← rules.unaryScore? parent t.label) := by
  obtain ⟨a, ts⟩ := t
  cases ts with
  | nil => simp at h
  | cons u us => rfl

end Rules

end Rescoring

end Constituency

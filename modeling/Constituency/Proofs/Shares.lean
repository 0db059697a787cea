import Mathlib.Algebra.Order.Field.Basic
import Mathlib.Algebra.Order.Field.Rat
import Mathlib.Data.Nat.Cast.Order.Ring
import Constituency.Proofs.Likelihood
import Constituency.Proofs.TrainedRules

/-!
# Shares of counts

A treebank is counted, and what is estimated from it are shares: of a production among those with
its parent, and of a word among those under its tag. As long as the arithmetic does for the counts,
every production has its rule and every tagging its score.
-/

namespace Constituency

variable {π σ : Type}

section Arithmetic

variable [Score σ] [Probability π σ]

/-- What `n` shares of counts up to the limit are worth together, put together in any order. -/
inductive ShareSum (π : Type) {σ : Type} [Score σ] [Probability π σ] (limit : Nat) :
    Nat → σ → Prop where
  | share {part whole : Nat} (hpos : 0 < part) (hle : part ≤ whole) (hlimit : whole ≤ limit) :
      ShareSum π limit 1 (Probability.log (Probability.ofRatio part whole : π))
  | add {m n : Nat} {a b : σ} (left : ShareSum π limit m a) (right : ShareSum π limit n b) :
      ShareSum π limit (m + n) (a + b)

/-- The arithmetic does for counts up to a limit: shares are positive probabilities, and something
made of no more shares may happen. Floating-point numbers do for counts of up to 53 bits, and
rational numbers for any. -/
structure Reckons (π : Type) {σ : Type} [Score σ] [Probability π σ] (limit : Nat) : Prop where
  isValid_zero : Probability.isValid (Probability.zero : π) = true
  isValid_share {part whole : Nat} : 0 < part → part ≤ whole → whole ≤ limit →
    Probability.isValid (Probability.ofRatio part whole : π) = true
  isZero_share {part whole : Nat} : 0 < part → part ≤ whole → whole ≤ limit →
    Probability.isZero (Probability.ofRatio part whole : π) = false
  clamp_share {part whole : Nat} : 0 < part → part ≤ whole → whole ≤ limit →
    Probability.clamp (Probability.ofRatio part whole : π) = Probability.ofRatio part whole
  possible_sum {n : Nat} {a : σ} : ShareSum π limit n a → n ≤ limit → Score.Possible a

theorem ratio_bounds {part whole : Nat} (hpos : 0 < part) (hle : part ≤ whole) :
    0 < (part / whole : ℚ) ∧ (part / whole : ℚ) ≤ 1 := by
  have hpart : (0 : ℚ) < part := Nat.cast_pos.mpr hpos
  have hwhole : (0 : ℚ) < whole := Nat.cast_pos.mpr (hpos.trans_le hle)
  exact ⟨div_pos hpart hwhole, (div_le_one hwhole).mpr (Nat.cast_le.mpr hle)⟩

/-- Rational numbers reckon with any counts. -/
theorem reckons_rat (limit : Nat) : Reckons ℚ limit where
  isValid_zero := by decide
  isValid_share hpos hle _ := isValid_rat (ratio_bounds hpos hle).1 (ratio_bounds hpos hle).2
  isZero_share hpos hle _ := isZero_rat (ratio_bounds hpos hle).1
  clamp_share hpos hle _ :=
    (clamp_rat (ratio_bounds hpos hle).1).trans (min_eq_left (ratio_bounds hpos hle).2)
  possible_sum hsum hn := by
    clear hn
    induction hsum with
    | share hpos hle _ => exact Likelihood.possible_ofRat (ratio_bounds hpos hle).1
    | add _ _ ihl ihr => exact Likelihood.possible_add ihl ihr

end Arithmetic

section Estimates

variable [Probability π σ] {trees : List Tree} {limit : Nat}

/-- The productions that rules are estimated from. -/
def countedProductions (trees : List Tree) : List Production :=
  (trees.flatMap Tree.productions).filter (·.children.length ≤ 2)

/-- Of the productions with the same parent those that are the same. -/
def Production.share (π : Type) [Probability π σ] (trees : List Tree) (p : Production) : π :=
  Probability.ofRatio ((countedProductions trees).count p)
    (((countedProductions trees).map Production.parent).count p.parent)

/-- Of the taggings with the same tag those that are the same. -/
def Tagging.share (π : Type) [Probability π σ] (trees : List Tree) (t : Tagging) : π :=
  Probability.ofRatio ((trees.flatMap Tree.taggings).count t)
    (((trees.flatMap Tree.taggings).map Tagging.tag).count t.tag)

/-- The counts that a share is made of. -/
theorem count_bounds {α β : Type} [DecidableEq α] [DecidableEq β] {l : List α} {a : α}
    (f : α → β) (h : a ∈ l) (hlimit : l.length ≤ limit) :
    0 < l.count a ∧ l.count a ≤ (l.map f).count (f a) ∧ (l.map f).count (f a) ≤ limit := by
  refine ⟨List.count_pos_iff.mpr h, List.count_le_count_map, ?_⟩
  calc (l.map f).count (f a) ≤ (l.map f).length := List.count_le_length
    _ = l.length := List.length_map f
    _ ≤ limit := hlimit

variable [Score σ]

/-- The rules of an index are the counted productions, each with the score of its share. -/
structure RuleIndex.Estimates (π : Type) [Probability π σ] (trees : List Tree)
    (rules : RuleIndex σ) : Prop where
  unary (rule : UnaryRule σ) : rule ∈ rules.toRules.unary ↔
    ⟨rule.parent, [rule.child]⟩ ∈ countedProductions trees ∧
      rule.score = Probability.log (Production.share π trees ⟨rule.parent, [rule.child]⟩)
  binary (rule : BinaryRule σ) : rule ∈ rules.toRules.binary ↔
    ⟨rule.parent, [rule.left, rule.right]⟩ ∈ countedProductions trees ∧
      rule.score =
        Probability.log (Production.share π trees ⟨rule.parent, [rule.left, rule.right]⟩)

namespace RuleIndex.Estimates

variable [LawfulScore σ] {rules : RuleIndex σ} (h : rules.Estimates π trees)
include h

theorem unaryScore?_eq (parent child : String) : rules.toRules.unaryScore? parent child =
    if ⟨parent, [child]⟩ ∈ countedProductions trees then
      some (Probability.log (Production.share π trees ⟨parent, [child]⟩))
    else none := by
  split
  · rename_i hp
    refine Rules.unaryScore?_eq_some_iff.mpr ⟨(h.unary _).mpr ⟨hp, rfl⟩, fun score hscore => ?_⟩
    exact Std.le_of_eq ((h.unary _).mp hscore).2
  · rename_i hp
    by_contra hne
    obtain ⟨score, hscore⟩ := Option.ne_none_iff_exists'.mp hne
    exact hp ((h.unary _).mp (Rules.unaryScore?_eq_some_iff.mp hscore).1).1

theorem binaryScore?_eq (parent left right : String) :
    rules.toRules.binaryScore? parent left right =
      if ⟨parent, [left, right]⟩ ∈ countedProductions trees then
        some (Probability.log (Production.share π trees ⟨parent, [left, right]⟩))
      else none := by
  split
  · rename_i hp
    refine Rules.binaryScore?_eq_some_iff.mpr ⟨(h.binary _).mpr ⟨hp, rfl⟩, fun score hscore => ?_⟩
    exact Std.le_of_eq ((h.binary _).mp hscore).2
  · rename_i hp
    by_contra hne
    obtain ⟨score, hscore⟩ := Option.ne_none_iff_exists'.mp hne
    exact hp ((h.binary _).mp (Rules.binaryScore?_eq_some_iff.mp hscore).1).1

end RuleIndex.Estimates

/-- The taggings that unknown words resemble. -/
def referenceTaggings (taggings : List Tagging) : List Tagging :=
  let once := taggings.filter fun t => (tally (taggings.map Tagging.word)).getD t.word 0 == 1
  if once.isEmpty then taggings else once

namespace TagCounts

/-- The same counts, with probabilities for unknown words or without. -/
def withOpenClass (counts : TagCounts) (openClass : Bool) : TagCounts :=
  { counts with openClass }

omit [Score σ] in
/-- The estimate from the taggings themselves. -/
theorem estimate_ofTaggings {taggings : List Tagging} {openClass : Bool} {word tag : String} :
    (((ofTaggings taggings).withOpenClass openClass).estimate word tag : π) =
      if word ∈ taggings.map Tagging.word then
        if ⟨tag, word⟩ ∈ taggings then
          Probability.ofRatio (taggings.count ⟨tag, word⟩)
            ((taggings.map Tagging.tag).count tag)
        else Probability.zero
      else if openClass = true ∧ tag ∈ (referenceTaggings taggings).map Tagging.tag then
        unknownWeight π * Probability.ofRatio
          (((referenceTaggings taggings).map Tagging.tag).count tag)
          (referenceTaggings taggings).length
      else Probability.zero := by
  have hknown : ((ofTaggings taggings).withOpenClass openClass).isKnown word = true ↔
      word ∈ taggings.map Tagging.word := Std.TreeMap.contains_iff_mem.trans mem_tally
  have htagging : ((ofTaggings taggings).withOpenClass openClass).taggings[
      (⟨tag, word⟩ : Tagging)]? = _ := getElem?_tally taggings _
  have htag : ((ofTaggings taggings).withOpenClass openClass).tags.getD tag 0 = _ :=
    getD_tally (taggings.map Tagging.tag) tag
  have hreference : ((ofTaggings taggings).withOpenClass openClass).reference[tag]? = _ :=
    getElem?_tally ((referenceTaggings taggings).map Tagging.tag) tag
  by_cases hword : word ∈ taggings.map Tagging.word
  · rw [estimate, if_pos (hknown.mpr hword), if_pos hword, htagging, htag]
    by_cases hmem : ⟨tag, word⟩ ∈ taggings <;> simp [hmem]
  · rw [estimate, if_neg (hknown.not.mpr hword), if_neg hword, hreference]
    cases openClass with
    | false => simp [withOpenClass]
    | true =>
      by_cases hmem : tag ∈ (referenceTaggings taggings).map Tagging.tag
      · simp only [withOpenClass, hmem, if_true, and_self]
        rfl
      · simp [withOpenClass, hmem]

end TagCounts

omit [Score σ] in
/-- The different productions are added in ascending order, each with its share. -/
theorem RuleIndex.ofTrees_eq_foldlM : ofTrees π trees =
    (tally (countedProductions trees)).keys.foldlM
      (fun rules p => rules.addProduction p (p.share π trees)) {} := by
  change (tally (countedProductions trees)).toList.foldlM _ ({} : RuleIndex σ) = _
  rw [toList_tally, List.foldlM_map]
  simp only [getD_tally]
  rfl

omit [Score σ] in
/-- The index of the trees takes up the different productions one by one. -/
theorem RuleIndex.ofTrees_eq_ok
    (hshares : ∀ p ∈ countedProductions trees, Probability.isValid (p.share π trees) = true ∧
      Probability.isZero (p.share π trees) = false) :
    ofTrees π trees = .ok (((tally (countedProductions trees)).keys.map
      fun p => (p, Probability.log (p.share π trees))).foldl
        (fun rules item => rules.push item.1 item.2) {}) := by
  have hstep : ∀ p ∈ (tally (countedProductions trees)).keys, ∀ rules : RuleIndex σ,
      rules.addProduction p (p.share π trees) =
        .ok (rules.push p (Probability.log (p.share π trees))) := by
    intro p hp rules
    obtain ⟨hvalid, hzero⟩ := hshares p (mem_tally.mp (Std.TreeMap.mem_keys.mp hp))
    exact RuleIndex.addProduction_eq_ok hvalid hzero
  rw [ofTrees_eq_foldlM, List.foldl_map]
  exact foldlM_eq_ok_foldl hstep {}

theorem RuleIndex.exists_ofTrees_of_shares
    (hshares : ∀ p ∈ countedProductions trees, Probability.isValid (p.share π trees) = true ∧
      Probability.isZero (p.share π trees) = false) :
    ∃ rules, ofTrees π trees = .ok rules ∧ rules.Estimates π trees := by
  have hmem (p : Production) (score : σ) :
      (p, score) ∈ (tally (countedProductions trees)).keys.map
          (fun p => (p, Probability.log (p.share π trees))) ↔
        p ∈ countedProductions trees ∧ score = Probability.log (p.share π trees) := by
    simp only [List.mem_map, Std.TreeMap.mem_keys, mem_tally, Prod.mk.injEq]
    constructor
    · intro hp
      obtain ⟨_, hp, rfl, rfl⟩ := hp
      exact ⟨hp, rfl⟩
    · intro hp
      exact ⟨p, hp.1, rfl, hp.2.symm⟩
  refine ⟨_, ofTrees_eq_ok hshares, ?_⟩
  constructor
  · intro rule
    rw [mem_unary_foldl_push, hmem]
    simp [mem_unary_toRules, toGrammar]
  · intro rule
    rw [mem_binary_foldl_push, hmem]
    simp [mem_binary_toRules, toGrammar]

variable (h : Reckons π limit)
include h

theorem Reckons.shares (hlimit : (countedProductions trees).length ≤ limit) :
    ∀ p ∈ countedProductions trees, Probability.isValid (p.share π trees) = true ∧
      Probability.isZero (p.share π trees) = false := by
  intro p hp
  obtain ⟨hpos, hle, hwhole⟩ := count_bounds Production.parent hp hlimit
  exact ⟨h.isValid_share hpos hle hwhole, h.isZero_share hpos hle hwhole⟩

theorem RuleIndex.exists_ofTrees (hlimit : (countedProductions trees).length ≤ limit) :
    ∃ rules, ofTrees π trees = .ok rules ∧ rules.Estimates π trees :=
  exists_ofTrees_of_shares (h.shares hlimit)

namespace TagCounts

omit h [Score σ] in
/-- A known word is scored by shares. -/
theorem estimate_of_known {word tag : String}
    (hknown : word ∈ (trees.flatMap Tree.taggings).map Tagging.word) :
    (ofTrees trees).estimate word tag =
      if ⟨tag, word⟩ ∈ trees.flatMap Tree.taggings then Tagging.share π trees ⟨tag, word⟩
      else Probability.zero :=
  (estimate_ofTaggings : ((ofTaggings (trees.flatMap Tree.taggings)).withOpenClass
    true).estimate word tag = _).trans (if_pos hknown)

theorem isValid_score_of_known (hlimit : (trees.flatMap Tree.taggings).length ≤ limit)
    {word : String} (hknown : word ∈ (trees.flatMap Tree.taggings).map Tagging.word)
    (tag : String) : Probability.isValid ((ofTrees trees).score word tag : π) = true := by
  unfold score
  split
  · rw [estimate_of_known hknown]
    split
    · rename_i hmem
      obtain ⟨hpos, hle, hwhole⟩ := count_bounds Tagging.tag hmem hlimit
      rw [Tagging.share, h.clamp_share hpos hle hwhole]
      exact h.isValid_share hpos hle hwhole
    · have hzero := h.isValid_zero
      simp_all [Probability.isValid, Probability.clamp]
  · exact h.isValid_zero

/-- A tagging of the treebank has the score of its share. -/
theorem tagScore?_of_mem (hlimit : (trees.flatMap Tree.taggings).length ≤ limit)
    {tagging : Tagging} (hmem : tagging ∈ trees.flatMap Tree.taggings) :
    ((ofTrees trees).toLexicon π).tagScore? tagging.word tagging.tag =
      some (Probability.log (tagging.share π trees)) := by
  obtain ⟨hpos, hle, hwhole⟩ := count_bounds Tagging.tag hmem hlimit
  have htag : tagging.tag ∈ ((ofTrees trees).toLexicon π).tags :=
    mem_tags_ofTrees.mpr ⟨tagging, hmem, rfl⟩
  have hscore : ((ofTrees trees).toLexicon π).score tagging.word tagging.tag =
      tagging.share π trees := by
    change (ofTrees trees).score tagging.word tagging.tag = _
    rw [score, if_pos (Std.TreeMap.contains_iff_mem.mpr (Std.TreeMap.mem_keys.mp htag)),
      estimate_of_known (List.mem_map_of_mem hmem), if_pos hmem]
    exact h.clamp_share hpos hle hwhole
  rw [Lexicon.tagScore?, hscore, if_pos ⟨htag, h.isZero_share hpos hle hwhole⟩,
    Probability.score, Tagging.share, if_pos (h.isValid_share hpos hle hwhole)]
  rfl

end TagCounts

end Estimates

end Constituency

import Constituency.Proofs.Shares

/-!
# Unknown words

A word that the treebank does not have is scored like the words that it has once, or like any word
if there are none. Tags that may stand over a word, known or unknown, have a positive share in it,
and no other tag has a score.
-/

namespace Constituency

variable {π σ : Type}

section Arithmetic

variable [Score σ] [Probability π σ] {limit n : Nat} {score : σ}

/-- What an unknown word gets under a tag that is a part of the reference. -/
def unknownShare (π : Type) {σ : Type} [Probability π σ] (part whole : Nat) : π :=
  Probability.clamp (TagCounts.unknownWeight π * Probability.ofRatio part whole)

/-- The probability of a word, known or unknown, under a tag that may stand over it. -/
def WordShare (limit : Nat) (p : π) : Prop :=
  ∃ part whole, 0 < part ∧ part ≤ whole ∧ whole ≤ limit ∧
    (p = Probability.ofRatio part whole ∨ p = unknownShare π part whole)

/-- What a tag over a word and unary rules above it are worth, `n` together. -/
inductive WordSum (π : Type) {σ : Type} [Score σ] [Probability π σ] (limit : Nat) :
    Nat → σ → Prop where
  | tag {p : π} (h : WordShare limit p) : WordSum π limit 1 (Probability.log p)
  | rule {n part whole : Nat} {score : σ} (below : WordSum π limit n score) (hpos : 0 < part)
      (hle : part ≤ whole) (hlimit : whole ≤ limit) :
      WordSum π limit (n + 1) (score + Probability.log (Probability.ofRatio part whole : π))

/-- The arithmetic does for the shares of unknown words, too. -/
structure ReckonsUnknown (π : Type) {σ : Type} [Score σ] [Probability π σ] (limit : Nat) : Prop
    extends Reckons π limit where
  isValid_unknown {part whole : Nat} : 0 < part → part ≤ whole → whole ≤ limit →
    Probability.isValid (unknownShare π part whole) = true
  isZero_unknown {part whole : Nat} : 0 < part → part ≤ whole → whole ≤ limit →
    Probability.isZero (unknownShare π part whole) = false
  possible_wordSum {n : Nat} {score : σ} : WordSum π limit n score → n ≤ limit →
    Score.Possible score

theorem ReckonsUnknown.word (h : ReckonsUnknown π limit) {p : π} (hp : WordShare limit p) :
    Probability.isValid p = true ∧ Probability.isZero p = false := by
  obtain ⟨part, whole, hpos, hle, hlimit, rfl | rfl⟩ := hp
  · exact ⟨h.isValid_share hpos hle hlimit, h.isZero_share hpos hle hlimit⟩
  · exact ⟨h.isValid_unknown hpos hle hlimit, h.isZero_unknown hpos hle hlimit⟩

theorem unknownShare_bounds {part whole : Nat} (hpos : 0 < part) (hle : part ≤ whole) :
    0 < (unknownShare ℚ part whole : ℚ) ∧ (unknownShare ℚ part whole : ℚ) ≤ 1 := by
  have hweighted : 0 < (TagCounts.unknownWeight ℚ * (part / whole) : ℚ) :=
    mul_pos (ratio_bounds (by decide) (by decide)).1 (ratio_bounds hpos hle).1
  have hclamp : unknownShare ℚ part whole = min (TagCounts.unknownWeight ℚ * (part / whole)) 1 :=
    clamp_rat hweighted
  rw [hclamp]
  exact ⟨lt_min hweighted one_pos, min_le_right _ _⟩

/-- Rational numbers reckon with unknown words. -/
theorem reckonsUnknown_rat (limit : Nat) : ReckonsUnknown ℚ limit where
  toReckons := reckons_rat limit
  isValid_unknown hpos hle _ :=
    isValid_rat (unknownShare_bounds hpos hle).1 (unknownShare_bounds hpos hle).2
  isZero_unknown hpos hle _ := isZero_rat (unknownShare_bounds hpos hle).1
  possible_wordSum hsum hn := by
    clear hn
    induction hsum with
    | tag h =>
      obtain ⟨part, whole, hpos, hle, -, rfl | rfl⟩ := h
      · exact Likelihood.possible_ofRat (ratio_bounds hpos hle).1
      · exact Likelihood.possible_ofRat (unknownShare_bounds hpos hle).1
    | rule _ hpos hle _ ih =>
      exact Likelihood.possible_add ih (Likelihood.possible_ofRat (ratio_bounds hpos hle).1)

end Arithmetic

/-- The tag may stand over the word: over a known word as it does in the treebank, and over an
unknown one, if these are tagged at all, as over the words that it resembles. -/
def MayTag (openClass : Bool) (taggings : List Tagging) (tag word : String) : Prop :=
  ⟨tag, word⟩ ∈ taggings ∨ openClass = true ∧ word ∉ taggings.map Tagging.word ∧
    tag ∈ (referenceTaggings taggings).map Tagging.tag

theorem referenceTaggings_subset {taggings : List Tagging} :
    referenceTaggings taggings ⊆ taggings := by
  unfold referenceTaggings
  dsimp only
  split
  · exact List.Subset.refl _
  · exact List.filter_subset_self _

theorem length_referenceTaggings_le {taggings : List Tagging} :
    (referenceTaggings taggings).length ≤ taggings.length := by
  unfold referenceTaggings
  dsimp only
  split
  · exact Nat.le_refl _
  · exact List.length_filter_le _ _

theorem MayTag.mem_tags {openClass : Bool} {taggings : List Tagging} {tag word : String}
    (h : MayTag openClass taggings tag word) : tag ∈ taggings.map Tagging.tag := by
  rcases h with hmem | ⟨-, -, hmem⟩
  · exact List.mem_map_of_mem hmem
  · exact List.map_subset _ referenceTaggings_subset hmem

namespace TagCounts

variable [Probability π σ] [Score σ] {taggings : List Tagging} {openClass : Bool}
  {word tag : String} {limit : Nat}

theorem score_of_mayTag (h : ReckonsUnknown π limit) (hlimit : taggings.length ≤ limit)
    (hmay : MayTag openClass taggings tag word) :
    WordShare limit (((ofTaggings taggings).withOpenClass openClass).score word tag : π) := by
  have hcontains : ((ofTaggings taggings).withOpenClass openClass).tags.contains tag = true :=
    Std.TreeMap.contains_iff_mem.mpr (mem_tally.mpr hmay.mem_tags)
  rw [score, if_pos hcontains, estimate_ofTaggings]
  rcases hmay with hmem | ⟨hopen, hword, hmem⟩
  · obtain ⟨hpos, hle, hwhole⟩ := count_bounds Tagging.tag hmem hlimit
    rw [if_pos (List.mem_map_of_mem hmem), if_pos hmem, h.clamp_share hpos hle hwhole]
    exact ⟨_, _, hpos, hle, hwhole, .inl rfl⟩
  · have hshorter : (referenceTaggings taggings).length ≤ limit :=
      length_referenceTaggings_le.trans hlimit
    rw [if_neg hword, if_pos ⟨hopen, hmem⟩]
    refine ⟨_, _, List.count_pos_iff.mpr hmem, ?_, hshorter, .inr rfl⟩
    simpa using List.count_le_length (l := (referenceTaggings taggings).map Tagging.tag)

theorem score_of_not_mayTag (h : Reckons π limit) (hmay : ¬MayTag openClass taggings tag word) :
    (((ofTaggings taggings).withOpenClass openClass).score word tag : π) = Probability.zero := by
  have hclamp : Probability.clamp (Probability.zero : π) = Probability.zero :=
    if_pos (of_decide_eq_true (Bool.and_eq_true_iff.mp h.isValid_zero).1)
  have hestimate : (((ofTaggings taggings).withOpenClass openClass).estimate word tag : π) =
      Probability.zero := by
    rw [estimate_ofTaggings]
    by_cases hword : word ∈ taggings.map Tagging.word
    · rw [if_pos hword, if_neg fun hmem => hmay (.inl hmem)]
    · rw [if_neg hword, if_neg fun hmem => hmay (.inr ⟨hmem.1, hword, hmem.2⟩)]
  rw [score, hestimate, hclamp, ite_self]

/-- A lexicon has a score where the tag may stand over the word, and nowhere else. -/
theorem tagScore?_eq_some_iff (h : ReckonsUnknown π limit) (hlimit : taggings.length ≤ limit)
    {score : σ} :
    (((ofTaggings taggings).withOpenClass openClass).toLexicon π).tagScore? word tag =
        some score ↔ MayTag openClass taggings tag word ∧
      score = Probability.log
        (((ofTaggings taggings).withOpenClass openClass).score word tag : π) := by
  have hscore : (((ofTaggings taggings).withOpenClass openClass).toLexicon π).score word tag =
      ((ofTaggings taggings).withOpenClass openClass).score word tag := rfl
  rw [Lexicon.tagScore?, hscore]
  by_cases hmay : MayTag openClass taggings tag word
  · obtain ⟨hvalid, hzero⟩ := h.word (score_of_mayTag h hlimit hmay)
    have htag : tag ∈ (((ofTaggings taggings).withOpenClass openClass).toLexicon π).tags :=
      Std.TreeMap.mem_keys.mpr (mem_tally.mpr hmay.mem_tags)
    rw [if_pos ⟨htag, hzero⟩, Probability.score, if_pos hvalid]
    simp [hmay, Except.toOption, eq_comm]
  · have hzero : Probability.isZero (Probability.zero : π) = true := by
      have hle := (Bool.and_eq_true_iff.mp h.isValid_zero).1
      simp_all [Probability.isZero]
    rw [score_of_not_mayTag h.toReckons hmay, hzero]
    simp [hmay]

end TagCounts

end Constituency

import Constituency.Proofs.Points
import Constituency.Proofs.Rounds

/-!
# How fills end

A fill fails for a score that is no probability, or for want of rounds. Tags and parents of rules
are all the labels that a chart can have, and as many rounds are enough for every span. The scores
of the words are then all that decides how a fill ends.
-/

namespace Constituency

variable {π σ : Type}

/-- All labels that constituents can have are among the given ones. -/
structure Rules.LabelsIn (rules : Rules σ) (tags : List String) (labels : Finset String) :
    Prop where
  tag : ∀ tag ∈ tags, tag ∈ labels
  unary : ∀ rule ∈ rules.unary, rule.parent ∈ labels
  binary : ∀ rule ∈ rules.binary, rule.parent ∈ labels

/-- The same for the rules that a grammar knows, whether or not they can be listed. -/
structure Grammar.LabelsIn (grammar : Grammar σ) (tags : List String) (labels : Finset String) :
    Prop where
  tag : ∀ tag ∈ tags, tag ∈ labels
  unary : ∀ rule, grammar.HasUnary rule → rule.parent ∈ labels
  binary : ∀ rule, grammar.HasBinary rule → rule.parent ∈ labels

theorem Grammar.Lists.labelsIn {grammar : Grammar σ} {rules : Rules σ} {tags : List String}
    {labels : Finset String} (hg : grammar.Lists rules) (h : rules.LabelsIn tags labels) :
    grammar.LabelsIn tags labels where
  tag := h.tag
  unary rule hrule := h.unary rule (hg.mem_unary hrule)
  binary rule hrule := h.binary rule (hg.mem_binary hrule)

/-- A score that is neither left out nor accepted. -/
def Probability.isRefused [Probability π σ] (p : π) : Bool :=
  !isZero p && !isValid p

/-- The scores of the words under all tags, in the order in which a fill reads them. -/
def Lexicon.scores (lexicon : Lexicon π) (sentence : List String) : List π :=
  sentence.flatMap fun word => lexicon.tags.map (lexicon.score word)

theorem Lexicon.mem_scores {lexicon : Lexicon π} {sentence : List String} {p : π} :
    p ∈ lexicon.scores sentence ↔
      ∃ word ∈ sentence, ∃ tag ∈ lexicon.tags, lexicon.score word tag = p := by
  simp [scores]

/-- The first score of a word that is refused. -/
def Lexicon.refused? [Probability π σ] (lexicon : Lexicon π) (word : String) :
    Option (InvalidProbability π) :=
  ((lexicon.tags.map (lexicon.score word)).find? Probability.isRefused).map .mk

/-- A score that is refused is the first invalid one of those that are not left out. -/
theorem Lexicon.refused?_eq_findSome? [Probability π σ] (lexicon : Lexicon π) (word : String) :
    lexicon.refused? word =
      ((lexicon.tags.map fun tag => (tag, lexicon.score word tag)).filter
        fun (_, p) => !Probability.isZero p).findSome? fun (_, p) =>
          if Probability.isValid p then none else some ⟨p⟩ := by
  unfold Lexicon.refused?
  induction lexicon.tags with
  | nil => rfl
  | cons tag tags ih =>
    simp only [List.map_cons, List.filter_cons, List.find?_cons, Probability.isRefused] at ih ⊢
    cases hzero : Probability.isZero (lexicon.score word tag) with
    | true => simpa using ih
    | false =>
      cases hvalid : Probability.isValid (lexicon.score word tag) with
      | true => simpa [hvalid] using ih
      | false => simp [hvalid]

/-- The first score that is refused is that of the first word that has any. -/
theorem Lexicon.map_find?_scores [Probability π σ] (lexicon : Lexicon π) (sentence : List String) :
    ((lexicon.scores sentence).find? Probability.isRefused).map
        (fun p => FillError.invalidProbability ⟨p⟩) =
      sentence.zipIdx.findSome? fun w => (lexicon.refused? w.1).map .invalidProbability := by
  have hwords : sentence.zipIdx.map Prod.fst = sentence := List.zipIdx_map_fst 0 sentence
  rw [Lexicon.scores, List.find?_flatMap, List.map_findSome?]
  conv_lhs => rw [← hwords, List.findSome?_map]
  congr 1
  funext w
  simp [Lexicon.refused?, Function.comp_def]

namespace Chart

variable [Probability π σ] {grammar : Grammar σ} {rules : Rules σ} {lexicon : Lexicon π}
  {rounds : Nat} {sentence : List String} {labels : Finset String} {chart : Chart σ} {span : Span}

/-- A word is tagged unless one of its scores is refused. -/
theorem ends_tagOffers (lexicon : Lexicon π) (word : String) (i : Nat) :
    Ends (fun offers : List (Constituent × Entry σ) => tagOffers lexicon word i = .ok offers)
      (lexicon.refused? word) (tagOffers lexicon word i) := by
  rw [lexicon.refused?_eq_findSome?]
  refine Ends.mono (Ends.mapM (R := fun _ => True) fun (tag, p) _ => ?_) fun _ hoffers _ => hoffers
  have hscore : Ends (fun _ => True) (if Probability.isValid p then none else some ⟨p⟩)
      (Probability.score (σ := σ) p) := by
    unfold Probability.score
    split
    · exact .ok trivial
    · exact .error _
  exact hscore.map fun _ _ => trivial

variable [Score σ]

theorem Grown.label_mem (h : Grown grammar lexicon sentence chart)
    (hlabels : grammar.LabelsIn lexicon.tags labels) {c : Constituent}
    (hc : (chart.get? c).isSome = true) : c.label ∈ labels := by
  induction h generalizing c with
  | empty => simp at hc
  | @offer chart d entry _ licensed ih =>
    by_cases hd : d = c ∧ chart.improves d entry.score = true
    · obtain ⟨rfl, -⟩ := hd
      cases licensed with
      | tag _ hscore => exact hlabels.tag _ (Lexicon.mem_tags_of_tagScore? hscore)
      | unary _ _ hrule => exact hlabels.unary _ ⟨_, hrule⟩
      | binary hrule => exact hlabels.binary _ hrule
    · rw [get?_offer, if_neg hd] at hc
      exact ih hc

theorem Grown.encloses (h : Grown grammar lexicon sentence chart)
    (hlabels : grammar.LabelsIn lexicon.tags labels) (span : Span) :
    Encloses grammar span chart labels where
  entry _ hentry := h.label_mem hlabels hentry
  rule _ _ rule hrule := hlabels.unary rule ⟨_, hrule⟩

variable [LawfulScore σ]

section Rounds

variable (hlabels : grammar.LabelsIn lexicon.tags labels) (hrounds : labels.card ≤ rounds)
include hlabels hrounds

/-- With a round for every label, a span is closed. -/
theorem exists_close (h : Grown grammar lexicon sentence chart) (span : Span)
    (possibleOnly : Bool) :
    ∃ closed, chart.close (π := π) grammar rounds span possibleOnly = .ok closed := by
  obtain ⟨closed, hclosed⟩ : ∃ closed, closeFrom? grammar span possibleOnly rounds
      (chart.seen span) chart = some closed :=
    exists_closeFrom?_of_card_le h.coherent (h.encloses hlabels span) hrounds
  exact ⟨closed, close_eq_ok.mpr hclosed⟩

theorem ends_fillWord (h : Grown grammar lexicon sentence chart) {word : String} {i : Nat}
    (hword : sentence[i]? = some word) :
    Ends (Grown grammar lexicon sentence) ((lexicon.refused? word).map .invalidProbability)
      (chart.fillWord grammar lexicon rounds word i) := by
  rw [← Option.or_none (o := Option.map _ _)]
  apply (ends_tagOffers lexicon word i).mapError.bind
  intro offers hoffers
  have htagged : Grown grammar lexicon sentence (chart.offerAll offers) :=
    h.tagOffers hword fun _ => (mem_tagOffers hoffers).mp
  obtain ⟨filled, hfilled⟩ := exists_close hlabels hrounds htagged ⟨i, i + 1⟩ true
  rw [hfilled]
  exact .ok (htagged.closeFrom? (flagFits_word i) (close_eq_ok.mp hfilled))

theorem ends_fillSpan (h : Grown grammar lexicon sentence chart)
    (hspan : span ∈ wideSpans sentence.length) :
    Ends (Grown grammar lexicon sentence) none
      (chart.fillSpan (π := π) grammar rounds span) := by
  have hcombined : Grown grammar lexicon sentence (chart.combine grammar span) :=
    h.combineOffers fun _ ho => ho
  obtain ⟨filled, hfilled⟩ := exists_close hlabels hrounds hcombined span false
  have heq : chart.fillSpan (π := π) grammar rounds span = .ok filled := hfilled
  rw [heq]
  exact .ok (h.fillSpan (flagFits_wide hspan) heq)

/-- With a round for every label, a fill fails for the first score that is refused, and for no
other reason. -/
theorem ends_fill : Ends (Grown grammar lexicon sentence)
    (((lexicon.scores sentence).find? Probability.isRefused).map fun p => .invalidProbability ⟨p⟩)
    (fill grammar lexicon rounds sentence) := by
  have hwide : (wideSpans sentence.length).findSome? (fun _ => (none : Option (FillError π))) =
      none := by simp
  rw [lexicon.map_find?_scores, ← Option.or_none (o := List.findSome? _ _), ← hwide]
  apply Ends.bind (R := Grown grammar lexicon sentence)
  · refine Ends.foldlM (fun (word, i) hw chart hgrown => ?_) .empty
    exact ends_fillWord hlabels hrounds hgrown (List.mk_mem_zipIdx_iff_getElem?.mp hw)
  · intro chart hgrown
    exact Ends.foldlM (fun span hspan chart hgrown =>
      ends_fillSpan hlabels hrounds hgrown hspan) hgrown

end Rounds

/-- With a round for every label, valid scores of the words are all that a fill needs. -/
theorem exists_fill (hg : grammar.Lists rules) (hlabels : rules.LabelsIn lexicon.tags labels)
    (hrounds : labels.card ≤ rounds) (hvalid : ∀ word ∈ sentence, ∀ tag ∈ lexicon.tags,
      Probability.isValid (lexicon.score word tag) = true) :
    ∃ chart, fill grammar lexicon rounds sentence = .ok chart := by
  have hnone : (lexicon.scores sentence).find? Probability.isRefused = none := by
    simp only [List.find?_eq_none, Lexicon.mem_scores]
    rintro _ ⟨word, hword, tag, htag, rfl⟩
    simp [Probability.isRefused, hvalid word hword tag htag]
  have hends : Ends (Grown grammar lexicon sentence) _ (fill grammar lexicon rounds sentence) :=
    ends_fill (hg.labelsIn hlabels) hrounds
  rw [hnone] at hends
  obtain ⟨chart, hchart, -⟩ := hends.exists_eq_ok
  exact ⟨chart, hchart⟩

end Chart

end Constituency

import Constituency.Proofs.Filling

/-!
# Points of a fill

The charts that a fill passes through, one for each offer that it makes, also where it fails later
on. All of them have grown by licensed offers.
-/

namespace Constituency.Chart

variable {π σ : Type} [Score σ] [Probability π σ]

section Points

variable (grammar : Grammar σ) (lexicon : Lexicon π) (rounds : Nat) (sentence : List String)

/-- The charts within a round of unary rules over a span: between two labels of the agenda, or
after some of the rules up from a label. -/
inductive RoundPoint (span : Span) (possibleOnly : Bool) (agenda : List String)
    (chart : Chart σ) : Chart σ → Prop where
  | label {labels : List String} (hlabels : labels <+: agenda) :
      RoundPoint span possibleOnly agenda chart
        (labels.foldl (Promotion.follow grammar span possibleOnly) { chart }).chart
  | rule {labels : List String} {label : String} {score : σ} {rules : List (UnaryRule σ)}
      {p : Promotion σ} (hlabels : labels ++ [label] <+: agenda)
      (hp : labels.foldl (Promotion.follow grammar span possibleOnly) { chart } = p)
      (hscore : p.chart.score? ⟨label, span⟩ = some score)
      (hfollowed : (possibleOnly && Score.isImpossible score) = false)
      (hrules : rules <+: grammar.unaryByChild label) :
      RoundPoint span possibleOnly agenda chart
        (rules.foldl (Promotion.apply ⟨label, span⟩ score) p).chart

/-- The charts within the rounds of unary rules over a span. -/
inductive ClosurePoint (span : Span) (possibleOnly : Bool) :
    Nat → Std.TreeSet String → Chart σ → Chart σ → Prop where
  | now {rounds : Nat} {agenda : Std.TreeSet String} {chart point : Chart σ}
      (hagenda : agenda.isEmpty = false)
      (hpoint : RoundPoint grammar span possibleOnly agenda.toList chart point) :
      ClosurePoint span possibleOnly (rounds + 1) agenda chart point
  | later {rounds : Nat} {agenda : Std.TreeSet String} {chart point : Chart σ} {p : Promotion σ}
      (hagenda : agenda.isEmpty = false)
      (hp : promote grammar span possibleOnly agenda chart = p)
      (hpoint : ClosurePoint span possibleOnly rounds p.improved p.chart point) :
      ClosurePoint span possibleOnly (rounds + 1) agenda chart point

/-- The chart after some words. -/
def fillWords (words : List (String × Nat)) : Except (FillError π) (Chart σ) :=
  words.foldlM (fun chart (word, i) => chart.fillWord grammar lexicon rounds word i) {}

/-- The chart after all words and some longer spans. -/
def fillSpans (spans : List Span) : Except (FillError π) (Chart σ) := do
  spans.foldlM (fillSpan grammar rounds) (← fillWords grammar lexicon rounds sentence.zipIdx)

theorem fill_eq_fillSpans : fill grammar lexicon rounds sentence =
    fillSpans grammar lexicon rounds sentence (wideSpans sentence.length) := rfl

/-- The charts that a fill passes through. Tags are entered one by one, so that a tag whose score
is no probability leaves the tags before it in the chart. -/
inductive FillPoint : Chart σ → Prop where
  | words {words : List (String × Nat)} {chart : Chart σ} (hwords : words <+: sentence.zipIdx)
      (hfill : fillWords grammar lexicon rounds words = .ok chart) : FillPoint chart
  | tag {words : List (String × Nat)} {word : String} {i : Nat} {chart : Chart σ}
      {tags : List String} {offers : List (Constituent × Entry σ)}
      (hwords : words ++ [(word, i)] <+: sentence.zipIdx)
      (hfill : fillWords grammar lexicon rounds words = .ok chart)
      (htags : tags <+: lexicon.tags)
      (hoffers : tagOffers { lexicon with tags } word i = .ok offers) :
      FillPoint (chart.offerAll offers)
  | overWord {words : List (String × Nat)} {word : String} {i : Nat} {chart tagged point : Chart σ}
      {offers : List (Constituent × Entry σ)}
      (hwords : words ++ [(word, i)] <+: sentence.zipIdx)
      (hfill : fillWords grammar lexicon rounds words = .ok chart)
      (hoffers : tagOffers lexicon word i = .ok offers) (htagged : chart.offerAll offers = tagged)
      (hpoint : ClosurePoint grammar ⟨i, i + 1⟩ true rounds (tagged.seen ⟨i, i + 1⟩) tagged
        point) : FillPoint point
  | spans {spans : List Span} {chart : Chart σ} (hspans : spans <+: wideSpans sentence.length)
      (hfill : fillSpans grammar lexicon rounds sentence spans = .ok chart) : FillPoint chart
  | combination {spans : List Span} {span : Span} {chart : Chart σ}
      {offers : List (Constituent × Entry σ)}
      (hspans : spans ++ [span] <+: wideSpans sentence.length)
      (hfill : fillSpans grammar lexicon rounds sentence spans = .ok chart)
      (hoffers : offers <+: combineOffers grammar chart span) : FillPoint (chart.offerAll offers)
  | overSpan {spans : List Span} {span : Span} {chart combined point : Chart σ}
      (hspans : spans ++ [span] <+: wideSpans sentence.length)
      (hfill : fillSpans grammar lexicon rounds sentence spans = .ok chart)
      (hcombined : chart.combine grammar span = combined)
      (hpoint : ClosurePoint grammar span false rounds (combined.seen span) combined point) :
      FillPoint point

end Points

variable {grammar : Grammar σ} {lexicon : Lexicon π} {rounds : Nat} {sentence : List String}
  {chart : Chart σ} {span : Span} {possibleOnly : Bool}

/-- The chart that a fill ends with is one of its points. -/
theorem FillPoint.of_fill (h : fill grammar lexicon rounds sentence = .ok chart) :
    FillPoint grammar lexicon rounds sentence chart := by
  rw [fill_eq_fillSpans] at h
  exact .spans List.prefix_rfl h

/-- Offers over one span that are licensed by what the chart has over the other spans. -/
theorem Grown.offerAll (span : Span) {offers : List (Constituent × Entry σ)}
    (h : Grown grammar lexicon sentence chart) (hspan : ∀ o ∈ offers, o.1.span = span)
    (hl : ∀ o ∈ offers, ∀ later : Chart σ,
      (∀ d : Constituent, d.span ≠ span → later.get? d = chart.get? d) →
        Licensed grammar lexicon sentence later o.1 o.2) :
    Grown grammar lexicon sentence (chart.offerAll offers) := by
  induction offers generalizing chart with
  | nil => exact h
  | cons o offers ih =>
    have hfirst := hl o (by simp) chart fun _ _ => rfl
    apply ih (h.offer hfirst) (fun o' ho => hspan o' (by simp [ho]))
    intro o' ho later hlater
    apply hl o' (by simp [ho]) later
    intro d hd
    rw [hlater d hd]
    apply get?_offer_of_ne
    intro heq
    exact hd (heq ▸ hspan o (by simp))

theorem Grown.tagOffers {offers : List (Constituent × Entry σ)} {word : String} {i : Nat}
    (h : Grown grammar lexicon sentence chart) (hword : sentence[i]? = some word)
    (ho : ∀ o ∈ offers, ∃ tag score, lexicon.tagScore? word tag = some score ∧
      o = (⟨tag, ⟨i, i + 1⟩⟩, ⟨score, .terminal (.word word i)⟩)) :
    Grown grammar lexicon sentence (chart.offerAll offers) := by
  apply Grown.offerAll ⟨i, i + 1⟩ h
  · intro o hmem
    obtain ⟨tag, score, _, rfl⟩ := ho o hmem
    rfl
  · intro o hmem later _
    obtain ⟨tag, score, hs, rfl⟩ := ho o hmem
    exact .tag hword hs

theorem Grown.combineOffers {offers : List (Constituent × Entry σ)}
    (h : Grown grammar lexicon sentence chart)
    (ho : ∀ o ∈ offers, o ∈ combineOffers grammar chart span) :
    Grown grammar lexicon sentence (chart.offerAll offers) := by
  apply Grown.offerAll span h
  · intro o hmem
    exact span_of_mem_combineOffers (ho o hmem)
  · intro o hmem later hlater
    obtain ⟨i, j⟩ := span
    obtain ⟨k, hik, hkj, hs⟩ := mem_combineOffers.mp (ho o hmem)
    dsimp only at hik hkj
    obtain ⟨rule, hrule, hj⟩ := mem_splitOffers hs
    obtain ⟨x, y, hx, hy, rfl⟩ := join?_eq_some.mp hj
    refine .binary hrule hik hkj ?_ ?_
    · rw [score?, hlater _ (by simp only [ne_eq, Span.mk.injEq, not_and]; omega)]
      exact hx
    · rw [score?, hlater _ (by simp only [ne_eq, Span.mk.injEq, not_and]; omega)]
      exact hy

variable [LawfulScore σ]

/-- Rules over a child do not change the score that the child is read with: a rule from a label
to itself never improves it. -/
theorem Grown.applyAll {rules : List (UnaryRule σ)} {child : Constituent} {score : σ}
    {p : Promotion σ} (h : Grown grammar lexicon sentence p.chart)
    (hchild : p.chart.score? child = some score) (hfollows : child.span.Follows score)
    (hrules : ∀ rule ∈ rules, rule ∈ grammar.unaryByChild child.label) :
    Grown grammar lexicon sentence (rules.foldl (Promotion.apply child score) p).chart := by
  induction rules generalizing p with
  | nil => exact h
  | cons rule rules ih =>
    have hlicensed : Licensed grammar lexicon sentence p.chart ⟨rule.parent, child.span⟩
        ⟨score + rule.score, .unary child⟩ := .unary hchild hfollows (hrules rule (by simp))
    refine ih (chart_apply (p := p) rule ▸ h.offer hlicensed) ?_
      (fun r hr => hrules r (by simp [hr]))
    rw [chart_apply]
    by_cases he : (⟨rule.parent, child.span⟩ : Constituent) = child
    · have hn : p.chart.improves ⟨rule.parent, child.span⟩ (score + rule.score) = false := by
        rw [not_improves_iff, he]
        exact ⟨score, hchild, LawfulScore.add_le_left _ _⟩
      rw [offer_of_not_improves hn]
      exact hchild
    · rw [score?_offer_of_ne he]
      exact hchild

theorem Grown.follow (hf : FlagFits span possibleOnly) {p : Promotion σ} {label : String}
    (h : Grown grammar lexicon sentence p.chart) :
    Grown grammar lexicon sentence (p.follow grammar span possibleOnly label).chart := by
  rcases follow_cases grammar span possibleOnly p label with he | ⟨score, hs, hi, he⟩
  · rw [he]
    exact h
  · rw [he]
    exact h.applyAll hs (hf.follows_iff.mpr hi) fun _ hr => hr

theorem Grown.followAll (hf : FlagFits span possibleOnly) {labels : List String}
    (h : Grown grammar lexicon sentence chart) :
    Grown grammar lexicon sentence
      (labels.foldl (Promotion.follow grammar span possibleOnly) { chart }).chart :=
  followAll_keeps (Grown grammar lexicon sentence) (p := { chart }) (fun _ _ hp => hp.follow hf) h

theorem Grown.closeFrom? (hf : FlagFits span possibleOnly) {agenda : Std.TreeSet String}
    {closed : Chart σ} (h : Grown grammar lexicon sentence chart)
    (hc : Chart.closeFrom? grammar span possibleOnly rounds agenda chart = some closed) :
    Grown grammar lexicon sentence closed :=
  closeFrom?_keeps (Grown grammar lexicon sentence) (fun _ _ hp => hp.follow hf) h hc

theorem Grown.fillWord {word : String} {i : Nat} {filled : Chart σ}
    (h : Grown grammar lexicon sentence chart) (hword : sentence[i]? = some word)
    (hfill : chart.fillWord grammar lexicon rounds word i = .ok filled) :
    Grown grammar lexicon sentence filled := by
  obtain ⟨offers, ho, hc⟩ := fillWord_eq_ok.mp hfill
  exact (h.tagOffers hword fun _ => (mem_tagOffers ho).mp).closeFrom? (flagFits_word i) hc

theorem Grown.fillSpan {filled : Chart σ} (h : Grown grammar lexicon sentence chart)
    (hf : FlagFits span false) (hfill : chart.fillSpan (π := π) grammar rounds span = .ok filled) :
    Grown grammar lexicon sentence filled :=
  (h.combineOffers fun _ ho => ho).closeFrom? hf (fillSpan_eq_ok.mp hfill)

theorem Grown.of_fillWords {words : List (String × Nat)} (hwords : words <+: sentence.zipIdx)
    (hfill : fillWords grammar lexicon rounds words = .ok chart) :
    Grown grammar lexicon sentence chart := by
  refine foldlM_keeps (fun _ => Grown grammar lexicon sentence) ?_ .empty hfill
  intro (word, i) hw _ before after hg hstep
  exact hg.fillWord (List.mk_mem_zipIdx_iff_getElem?.mp (hwords.subset hw)) hstep

theorem Grown.of_fillSpans {spans : List Span} (hspans : spans <+: wideSpans sentence.length)
    (hfill : fillSpans grammar lexicon rounds sentence spans = .ok chart) :
    Grown grammar lexicon sentence chart := by
  obtain ⟨words, hwords, hfill⟩ := bind_eq_ok.mp hfill
  have hstart := Grown.of_fillWords List.prefix_rfl hwords
  refine foldlM_keeps (fun _ => Grown grammar lexicon sentence) ?_ hstart hfill
  intro span hspan _ before after hg hstep
  exact hg.fillSpan (flagFits_wide (hspans.subset hspan)) hstep

theorem Grown.of_fill (h : fill grammar lexicon rounds sentence = .ok chart) :
    Grown grammar lexicon sentence chart := by
  rw [fill_eq_fillSpans] at h
  exact of_fillSpans List.prefix_rfl h

theorem Grown.of_roundPoint {agenda : List String} {point : Chart σ}
    (h : Grown grammar lexicon sentence chart) (hf : FlagFits span possibleOnly)
    (hp : RoundPoint grammar span possibleOnly agenda chart point) :
    Grown grammar lexicon sentence point := by
  cases hp with
  | label _ => exact h.followAll hf
  | rule _ hp hscore hfollowed hrules =>
    subst hp
    exact (h.followAll hf).applyAll hscore (hf.follows_iff.mpr hfollowed)
      fun _ hr => hrules.subset hr

theorem Grown.of_closurePoint {agenda : Std.TreeSet String} {point : Chart σ}
    (h : Grown grammar lexicon sentence chart) (hf : FlagFits span possibleOnly)
    (hp : ClosurePoint grammar span possibleOnly rounds agenda chart point) :
    Grown grammar lexicon sentence point := by
  induction hp with
  | now _ hpoint => exact h.of_roundPoint hf hpoint
  | later _ hp _ ih =>
    subst hp
    exact ih (h.followAll hf)

/-- Every chart that a fill passes through has grown by licensed offers. -/
theorem FillPoint.grown (h : FillPoint grammar lexicon rounds sentence chart) :
    Grown grammar lexicon sentence chart := by
  have word_at {words : List (String × Nat)} {word : String} {i : Nat}
      (hwords : words ++ [(word, i)] <+: sentence.zipIdx) : sentence[i]? = some word :=
    List.mk_mem_zipIdx_iff_getElem?.mp (hwords.subset (by simp))
  have wide {spans : List Span} {span : Span}
      (hspans : spans ++ [span] <+: wideSpans sentence.length) : FlagFits span false :=
    flagFits_wide (hspans.subset (by simp))
  cases h with
  | words hwords hfill => exact .of_fillWords hwords hfill
  | tag hwords hfill htags hoffers =>
    have hstart := Grown.of_fillWords ((List.prefix_append _ _).trans hwords) hfill
    apply hstart.tagOffers (word_at hwords)
    intro o ho
    obtain ⟨tag, score, hs, rfl⟩ := (mem_tagOffers hoffers).mp ho
    exact ⟨tag, score, Lexicon.tagScore?_of_subset htags.subset hs, rfl⟩
  | overWord hwords hfill hoffers htagged hpoint =>
    subst htagged
    have hstart := Grown.of_fillWords ((List.prefix_append _ _).trans hwords) hfill
    exact (hstart.tagOffers (word_at hwords) fun _ => (mem_tagOffers hoffers).mp).of_closurePoint
      (flagFits_word _) hpoint
  | spans hspans hfill => exact .of_fillSpans hspans hfill
  | combination hspans hfill hoffers =>
    have hstart := Grown.of_fillSpans ((List.prefix_append _ _).trans hspans) hfill
    exact hstart.combineOffers fun o ho => hoffers.subset ho
  | overSpan hspans hfill hcombined hpoint =>
    subst hcombined
    have hstart := Grown.of_fillSpans ((List.prefix_append _ _).trans hspans) hfill
    exact (hstart.combineOffers fun _ ho => ho).of_closurePoint (wide hspans) hpoint

end Constituency.Chart

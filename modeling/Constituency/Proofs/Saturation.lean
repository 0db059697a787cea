import Mathlib.Data.List.Pairwise
import Constituency.Proofs.Closure
import Constituency.Proofs.Points
import Constituency.Proofs.SplitSides

/-!
# Filled charts

A filled chart has all that tags and rules make of its entries. Each span comes after the spans
within it and is not touched again, so that it suffices to look at a span when it is filled.
-/

namespace Constituency

namespace Chart

variable {π σ : Type} [Score σ] [Probability π σ]

/-- The chart has all that tags and rules make of its entries over a span and within it. -/
structure ClosedOver (rules : Rules σ) (lexicon : Lexicon π) (sentence : List String)
    (chart : Chart σ) (span : Span) : Prop where
  tag : ∀ i word tag score, span = ⟨i, i + 1⟩ → sentence[i]? = some word →
    lexicon.tagScore? word tag = some score → chart.Has ⟨tag, span⟩ score
  unary : ∀ rule ∈ rules.unary, ∀ score, chart.score? ⟨rule.child, span⟩ = some score →
    span.Follows score → chart.Has ⟨rule.parent, span⟩ (score + rule.score)
  binary : ∀ rule ∈ rules.binary, ∀ k x y, span.start < k → k < span.stop →
    chart.score? ⟨rule.left, ⟨span.start, k⟩⟩ = some x →
    chart.score? ⟨rule.right, ⟨k, span.stop⟩⟩ = some y →
    chart.Has ⟨rule.parent, span⟩ (x + y + rule.score)

variable {grammar : Grammar σ} {rules : Rules σ} {lexicon : Lexicon π} {rounds : Nat}
  {sentence : List String} {chart filled : Chart σ} {span : Span}

/-- Whether a span is closed depends on the entries within it. -/
theorem ClosedOver.congr (h : ClosedOver rules lexicon sentence chart span)
    (hframe : ∀ d : Constituent, d.span.Within span → filled.get? d = chart.get? d) :
    ClosedOver rules lexicon sentence filled span := by
  have score?_eq (d : Constituent) (hd : d.span.Within span) :
      filled.score? d = chart.score? d := by
    simp [score?, hframe d hd]
  have has_of (d : Constituent) (score : σ) (hd : d.span.Within span) (hs : chart.Has d score) :
      filled.Has d score := by
    simpa [Has, score?_eq d hd] using hs
  have self (label : String) : Span.Within (Constituent.mk label span).span span :=
    ⟨Nat.le_refl _, Nat.le_refl _⟩
  constructor
  · intro i word tag score hspan hword hscore
    exact has_of _ _ (self tag) (h.tag i word tag score hspan hword hscore)
  · intro rule hrule score hs hfollows
    rw [score?_eq _ (self rule.child)] at hs
    exact has_of _ _ (self rule.parent) (h.unary rule hrule score hs hfollows)
  · intro rule hrule k x y hk hk' hx hy
    rw [score?_eq _ ⟨Nat.le_refl _, Nat.le_of_lt hk'⟩] at hx
    rw [score?_eq _ ⟨Nat.le_of_lt hk, Nat.le_refl _⟩] at hy
    exact has_of _ _ (self rule.parent) (h.binary rule hrule k x y hk hk' hx hy)

omit [Probability π σ] in
/-- At each split the binary rules offer all that they make of the two sides, from whichever side
they are looked up. -/
theorem mem_splitOffers_of_mem (hg : grammar.Lists rules) (hc : chart.Coherent) {k : Nat}
    {rule : BinaryRule σ} {x y : σ} (hrule : rule ∈ rules.binary)
    (hx : chart.score? ⟨rule.left, ⟨span.start, k⟩⟩ = some x)
    (hy : chart.score? ⟨rule.right, ⟨k, span.stop⟩⟩ = some y) :
    ∃ entry : Entry σ, entry.score = x + y + rule.score ∧
      (⟨rule.parent, span⟩, entry) ∈ splitOffers grammar chart span k := by
  have hjoin := join?_eq_some.mpr ⟨x, y, hx, hy, rfl⟩
  rw [splitOffers_eq]
  exact ⟨_, rfl, (mem_offersFrom hg.twoSided hc _).mpr
    ⟨rule, hg.mem_binaryByLeft.mpr ⟨hrule, rfl⟩, hjoin⟩⟩

variable [LawfulScore σ]

/-- A closure that starts from a coherent chart leaves the unary rules with nothing to offer. -/
theorem has_of_closeFrom? (hg : grammar.Lists rules) {possibleOnly : Bool}
    (hf : FlagFits span possibleOnly) (hc : chart.Coherent)
    (h : closeFrom? grammar span possibleOnly rounds (chart.seen span) chart = some filled)
    {rule : UnaryRule σ} (hrule : rule ∈ rules.unary) {score : σ}
    (hs : filled.score? ⟨rule.child, span⟩ = some score) (hfollows : span.Follows score) :
    filled.Has ⟨rule.parent, span⟩ (score + rule.score) := by
  have hstart (label : String) :
      label ∈ chart.seen span ∨ Settled grammar span chart label := by
    by_cases hl : label ∈ chart.seen span
    · exact .inl hl
    · exact .inr (hf.spent_iff.mp (spent_of_get?_eq_none (by simpa [hc label span] using hl)))
  exact settled_of_closeFrom? hf hstart h rule.child score hs hfollows rule
    (hg.mem_unaryByChild.mpr ⟨hrule, rfl⟩)

theorem closedOver_of_fillWord (hg : grammar.Lists rules)
    (h : Grown grammar lexicon sentence chart) {word : String} {i : Nat}
    (hword : sentence[i]? = some word)
    (hfill : chart.fillWord grammar lexicon rounds word i = .ok filled) :
    ClosedOver rules lexicon sentence filled ⟨i, i + 1⟩ := by
  obtain ⟨offers, hoffers, hclose⟩ := fillWord_eq_ok.mp hfill
  have htagged : Grown grammar lexicon sentence (chart.offerAll offers) :=
    h.tagOffers hword fun _ => (mem_tagOffers hoffers).mp
  constructor
  · intro i' word' tag score hspan hword' hscore
    obtain ⟨rfl, _⟩ := Span.mk.inj hspan
    obtain rfl : word = word' := Option.some.inj (hword.symm.trans hword')
    exact extends_of_closeFrom? hclose _ _
      (has_offerAll ((mem_tagOffers hoffers).mpr ⟨tag, score, hscore, rfl⟩) chart)
  · intro rule hrule score hs hfollows
    exact has_of_closeFrom? hg (flagFits_word i) htagged.coherent hclose hrule hs hfollows
  · intro rule _ k x y hk hk'
    dsimp only at hk hk'
    omega

theorem closedOver_of_fillSpan (hg : grammar.Lists rules)
    (h : Grown grammar lexicon sentence chart) (hwide : span.start + 1 < span.stop)
    (hf : FlagFits span false)
    (hfill : chart.fillSpan (π := π) grammar rounds span = .ok filled) :
    ClosedOver rules lexicon sentence filled span := by
  have hclose := fillSpan_eq_ok.mp hfill
  have hcombined : Grown grammar lexicon sentence (chart.combine grammar span) :=
    h.combineOffers fun _ ho => ho
  constructor
  · intro i word tag score hspan
    subst hspan
    dsimp only at hwide
    omega
  · intro rule hrule score hs hfollows
    exact has_of_closeFrom? hg hf hcombined.coherent hclose hrule hs hfollows
  · intro rule hrule k x y hk hk' hx hy
    have score?_eq (d : Constituent) (hd : d.span ≠ span) : filled.score? d = chart.score? d := by
      simp [score?, get?_of_fillSpan hfill hd]
    obtain ⟨i, j⟩ := span
    dsimp only at hk hk'
    rw [score?_eq _ (by simp only [ne_eq, Span.mk.injEq]; omega)] at hx
    rw [score?_eq _ (by simp only [ne_eq, Span.mk.injEq]; omega)] at hy
    obtain ⟨entry, he, hmem⟩ := mem_splitOffers_of_mem hg h.coherent hrule hx hy
    rw [← he]
    exact extends_of_closeFrom? hclose _ _
      (has_offerAll (mem_combineOffers.mpr ⟨k, hk, hk', hmem⟩) chart)

section Order

/-- All spans of a sentence of `n` words, in the order in which they are filled. -/
def allSpans (n : Nat) : List Span :=
  (List.range n).map (fun i => ⟨i, i + 1⟩) ++ wideSpans n

theorem mem_allSpans {n : Nat} (h : span.start < span.stop) (hn : span.stop ≤ n) :
    span ∈ allSpans n := by
  obtain ⟨i, j⟩ := span
  dsimp only at h hn
  apply List.mem_append.mpr
  by_cases hj : j = i + 1
  · exact .inl (List.mem_map.mpr ⟨i, List.mem_range.mpr (by omega), by rw [hj]⟩)
  · exact .inr (mem_wideSpans.mpr ⟨by simp only; omega, hn⟩)

/-- No span lies within one that comes before it. -/
theorem pairwise_allSpans (n : Nat) :
    (allSpans n).Pairwise fun earlier later => ¬later.Within earlier := by
  refine List.pairwise_append.mpr ⟨?_, ?_, ?_⟩
  · refine List.pairwise_map.mpr (List.pairwise_lt_range.imp fun h => ?_)
    simp only [Span.Within]
    omega
  · apply (pairwise_wideSpans n).imp
    intro earlier later h
    simp only [Span.Before, Span.Within] at h ⊢
    omega
  · intro _ hword wide hwide
    obtain ⟨i, _, rfl⟩ := List.mem_map.mp hword
    have hw := (mem_wideSpans.mp hwide).1
    simp only [Span.Within]
    omega

end Order

/-- A chart in which the spans before the rest have been filled. -/
structure Filled (grammar : Grammar σ) (rules : Rules σ) (lexicon : Lexicon π)
    (sentence : List String) (rest : List Span) (chart : Chart σ) : Prop where
  grown : Grown grammar lexicon sentence chart
  closed : ∃ done, done ++ rest = allSpans sentence.length ∧
    ∀ span ∈ done, ClosedOver rules lexicon sentence chart span

omit [LawfulScore σ] in
theorem Filled.step {rest : List Span}
    (h : Filled grammar rules lexicon sentence (span :: rest) chart)
    (hgrown : Grown grammar lexicon sentence filled)
    (hclosed : ClosedOver rules lexicon sentence filled span)
    (hframe : ∀ d : Constituent, d.span ≠ span → filled.get? d = chart.get? d) :
    Filled grammar rules lexicon sentence rest filled := by
  obtain ⟨done, hall, hdone⟩ := h.closed
  refine ⟨hgrown, done ++ [span], by simpa using hall, ?_⟩
  intro earlier he
  rcases List.mem_append.mp he with hin | hin
  · refine (hdone earlier hin).congr fun d hd => hframe d ?_
    intro heq
    subst heq
    have hpairwise := hall ▸ pairwise_allSpans sentence.length
    exact (List.pairwise_append.mp hpairwise).2.2 earlier hin d.span (by simp) hd
  · rwa [List.mem_singleton.mp hin]

theorem filled_fillWords (hg : grammar.Lists rules)
    (hfill : fillWords grammar lexicon rounds sentence.zipIdx = .ok chart) :
    Filled grammar rules lexicon sentence (wideSpans sentence.length) chart := by
  let inv (rest : List (String × Nat)) : Chart σ → Prop :=
    Filled grammar rules lexicon sentence
      (rest.map (fun w => ⟨w.2, w.2 + 1⟩) ++ wideSpans sentence.length)
  refine foldlM_keeps inv ?_ ⟨.empty, [], ?_, by simp⟩ hfill
  · intro (word, i) hw rest before after hb hstep
    have hword := List.mk_mem_zipIdx_iff_getElem?.mp hw
    apply hb.step (hb.grown.fillWord hword hstep)
    · exact closedOver_of_fillWord hg hb.grown hword hstep
    · intro d hd
      exact get?_of_fillWord hstep hd
  · have hpositions : sentence.zipIdx.map Prod.snd = List.range sentence.length := by
      simp [List.range_eq_range']
    rw [allSpans, ← hpositions, List.map_map]
    rfl

theorem filled_fillSpans (hg : grammar.Lists rules)
    (hfill : fill grammar lexicon rounds sentence = .ok chart) :
    Filled grammar rules lexicon sentence [] chart := by
  obtain ⟨words, hwords, hfill⟩ := bind_eq_ok.mp hfill
  refine foldlM_keeps (Filled grammar rules lexicon sentence) ?_ (filled_fillWords hg hwords) hfill
  intro span hspan rest before after hb hstep
  have hflag := flagFits_wide hspan
  apply hb.step (hb.grown.fillSpan hflag hstep)
  · exact closedOver_of_fillSpan hg hb.grown (mem_wideSpans.mp hspan).1 hflag hstep
  · intro d hd
    exact get?_of_fillSpan hstep hd

/-- A filled chart is closed over every span. There is nothing beyond the ends of a sentence. -/
theorem closedOver_of_fill (hg : grammar.Lists rules)
    (hfill : fill grammar lexicon rounds sentence = .ok chart) (span : Span) :
    ClosedOver rules lexicon sentence chart span := by
  obtain ⟨hgrown, done, hall, hdone⟩ := filled_fillSpans hg hfill
  by_cases hspan : span.start < span.stop ∧ span.stop ≤ sentence.length
  · have hmem := hall ▸ mem_allSpans hspan.1 hspan.2
    exact hdone span (by simpa using hmem)
  · constructor
    · intro i word tag score hspan' hword _
      subst hspan'
      obtain ⟨hi, _⟩ := List.getElem?_eq_some_iff.mp hword
      exact absurd ⟨Nat.lt_succ_self i, hi⟩ hspan
    · intro rule _ score hs
      exact absurd (hgrown.span_bounds (isSome_of_score? hs)) hspan
    · intro rule _ k x y hk hk' _ hy
      have hbounds := hgrown.span_bounds (isSome_of_score? hy)
      exact absurd ⟨Nat.lt_trans hk hk', hbounds.2⟩ hspan

end Chart

end Constituency

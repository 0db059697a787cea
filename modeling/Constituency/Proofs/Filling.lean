import Constituency.Proofs.Growth
import Constituency.Proofs.Steps

/-!
# Filling a chart

What each step of a fill offers, and in which order the spans come.
-/

namespace Constituency

/-- Whether a span lies within another one. -/
def Span.Within (inner outer : Span) : Prop :=
  outer.start ≤ inner.start ∧ inner.stop ≤ outer.stop

instance (inner outer : Span) : Decidable (inner.Within outer) :=
  inferInstanceAs (Decidable (_ ∧ _))

/-- Shorter spans come first, and those of the same width from left to right. -/
def Span.Before (a b : Span) : Prop :=
  a.stop + b.start < b.stop + a.start ∨ a.stop + b.start = b.stop + a.start ∧ a.start < b.start

namespace Chart

variable {π σ : Type} {chart : Chart σ} {span : Span}

section Offers

theorem mem_tagOffers [Probability π σ] {lexicon : Lexicon π} {word : String} {i : Nat}
    {offers : List (Constituent × Entry σ)} (h : tagOffers lexicon word i = .ok offers)
    {o : Constituent × Entry σ} :
    o ∈ offers ↔ ∃ tag score, lexicon.tagScore? word tag = some score ∧
      o = (⟨tag, ⟨i, i + 1⟩⟩, ⟨score, .terminal (.word word i)⟩) := by
  rw [mem_of_mapM_eq_ok h]
  constructor
  · intro h
    obtain ⟨⟨tag, p⟩, hmem, ho⟩ := h
    obtain ⟨hmem, hp⟩ := List.mem_filter.mp hmem
    obtain ⟨tag', htag, he⟩ := List.mem_map.mp hmem
    obtain ⟨rfl, rfl⟩ := Prod.mk.inj he
    obtain ⟨score, hs, rfl⟩ := map_eq_ok.mp ho
    refine ⟨tag', score, ?_, rfl⟩
    simp_all [Lexicon.tagScore?, Except.toOption]
  · intro h
    obtain ⟨tag, score, hs, rfl⟩ := h
    unfold Lexicon.tagScore? at hs
    split at hs
    · rename_i ht
      refine ⟨(tag, lexicon.score word tag), ?_, ?_⟩
      · exact List.mem_filter.mpr ⟨List.mem_map.mpr ⟨tag, ht.1, rfl⟩, by simp [ht.2]⟩
      · cases hp : Probability.score (lexicon.score word tag) with
        | error e => simp [hp, Except.toOption] at hs
        | ok s => simp_all [Except.toOption, Except.map]
    · simp at hs

theorem exists_tagOffers_iff [Probability π σ] {lexicon : Lexicon π} {word : String} {i : Nat} :
    (∃ offers : List (Constituent × Entry σ), tagOffers lexicon word i = .ok offers) ↔
      ∀ tag ∈ lexicon.tags, Probability.isZero (lexicon.score word tag) = false →
        Probability.isValid (lexicon.score word tag) = true := by
  have hscore (p : π) : (∃ s : σ, Probability.score p = .ok s) ↔
      Probability.isValid p = true := by
    unfold Probability.score
    cases Probability.isValid p <;> simp
  refine exists_mapM_eq_ok.trans ?_
  simp only [List.mem_filter, List.mem_map, map_eq_ok, Bool.not_eq_true']
  constructor
  · intro h tag htag hzero
    obtain ⟨_, s, hs, -⟩ := h (tag, lexicon.score word tag) ⟨⟨tag, htag, rfl⟩, hzero⟩
    exact (hscore _).mp ⟨s, hs⟩
  · intro h scored hmem
    obtain ⟨⟨tag, htag, rfl⟩, hzero⟩ := hmem
    obtain ⟨s, hs⟩ := (hscore _).mpr (h tag htag hzero)
    exact ⟨_, s, hs, rfl⟩

variable [Score σ]

theorem join?_eq_some {split : Nat} {rule : BinaryRule σ} {o : Constituent × Entry σ} :
    chart.join? span split rule = some o ↔
      ∃ x y, chart.score? ⟨rule.left, ⟨span.start, split⟩⟩ = some x ∧
        chart.score? ⟨rule.right, ⟨split, span.stop⟩⟩ = some y ∧
        o = (⟨rule.parent, span⟩, ⟨x + y + rule.score,
          .binary ⟨rule.left, ⟨span.start, split⟩⟩ ⟨rule.right, ⟨split, span.stop⟩⟩⟩) := by
  simp only [join?, bind, pure, Option.bind_eq_some_iff, Option.some.injEq, @eq_comm _ _ o]
  exact ⟨fun ⟨x, hx, y, hy, ho⟩ => ⟨x, y, hx, hy, ho⟩, fun ⟨x, y, hx, hy, ho⟩ => ⟨x, hx, y, hy, ho⟩⟩

/-- The splits strictly within a span, from left to right. -/
def splits (span : Span) : List Nat :=
  (List.range (span.stop - span.start - 1)).map (span.start + 1 + ·)

theorem mem_splits {span : Span} {split : Nat} :
    split ∈ splits span ↔ span.start < split ∧ split < span.stop := by
  simp only [splits, List.mem_map, List.mem_range]
  constructor
  · rintro ⟨m, hm, rfl⟩
    omega
  · rintro ⟨hstart, hstop⟩
    exact ⟨split - span.start - 1, by omega, by omega⟩

/-- All that the binary rules make of the shorter spans. -/
def combineOffers (grammar : Grammar σ) (chart : Chart σ) (span : Span) :
    List (Constituent × Entry σ) :=
  ((List.range (span.stop - span.start - 1)).map (span.start + 1 + ·)).flatMap
    (splitOffers grammar chart span)

theorem combine_eq (grammar : Grammar σ) (chart : Chart σ) (span : Span) :
    chart.combine grammar span = chart.offerAll (combineOffers grammar chart span) := rfl

theorem mem_combineOffers {grammar : Grammar σ} {o : Constituent × Entry σ} :
    o ∈ combineOffers grammar chart span ↔
      ∃ k, span.start < k ∧ k < span.stop ∧ o ∈ splitOffers grammar chart span k := by
  change o ∈ (splits span).flatMap (splitOffers grammar chart span) ↔ _
  simp only [List.mem_flatMap, mem_splits, and_assoc]

theorem mem_splitOffers {grammar : Grammar σ} {k : Nat} {o : Constituent × Entry σ}
    (h : o ∈ splitOffers grammar chart span k) :
    ∃ rule, grammar.HasBinary rule ∧ chart.join? span k rule = some o := by
  obtain ⟨rule, hrule, ho⟩ := List.mem_filterMap.mp h
  refine ⟨rule, ?_, ho⟩
  split at hrule
  · obtain ⟨label, _, hr⟩ := List.mem_flatMap.mp hrule
    exact ⟨label, .inr (List.mem_filter.mp hr).1⟩
  · obtain ⟨label, _, hr⟩ := List.mem_flatMap.mp hrule
    exact ⟨label, .inl (List.mem_filter.mp hr).1⟩

theorem span_of_mem_combineOffers {grammar : Grammar σ} {o : Constituent × Entry σ}
    (h : o ∈ combineOffers grammar chart span) : o.1.span = span := by
  obtain ⟨k, _, _, hs⟩ := mem_combineOffers.mp h
  obtain ⟨rule, _, hj⟩ := mem_splitOffers hs
  obtain ⟨x, y, _, _, rfl⟩ := join?_eq_some.mp hj
  rfl

end Offers

variable [Score σ] {grammar : Grammar σ} {possibleOnly : Bool}

/-- The flag that a span is closed with: over a single word only possible labels are followed. -/
def FlagFits (span : Span) (possibleOnly : Bool) : Prop :=
  possibleOnly = true ↔ span.stop = span.start + 1

theorem FlagFits.follows_iff {score : σ} (h : FlagFits span possibleOnly) :
    span.Follows score ↔ (possibleOnly && Score.isImpossible score) = false := by
  cases possibleOnly <;> simp_all [FlagFits, Span.Follows, Score.Possible]

section Promotions

variable {p : Promotion σ} {child : Constituent} {score : σ} {label : String}

theorem chart_apply (rule : UnaryRule σ) : (p.apply child score rule).chart =
    p.chart.offer ⟨rule.parent, child.span⟩ ⟨score + rule.score, .unary child⟩ := by
  simp only [Promotion.apply, Chart.offer]
  split <;> rfl

/-- A label is followed with the score that it has by then. -/
theorem follow_of_score? (hs : p.chart.score? ⟨label, span⟩ = some score)
    (hb : (possibleOnly && Score.isImpossible score) = false) :
    p.follow grammar span possibleOnly label =
      (grammar.unaryByChild label).foldl (Promotion.apply ⟨label, span⟩ score) p := by
  simp [Promotion.follow, hs, hb]

theorem follow_cases (grammar : Grammar σ) (span : Span) (possibleOnly : Bool)
    (p : Promotion σ) (label : String) :
    p.follow grammar span possibleOnly label = p ∨
      ∃ score, p.chart.score? ⟨label, span⟩ = some score ∧
        (possibleOnly && Score.isImpossible score) = false ∧
        p.follow grammar span possibleOnly label =
          (grammar.unaryByChild label).foldl (Promotion.apply ⟨label, span⟩ score) p := by
  cases hs : p.chart.score? ⟨label, span⟩ with
  | none => simp [Promotion.follow, hs]
  | some score =>
    cases hb : possibleOnly && Score.isImpossible score with
    | false => exact .inr ⟨score, rfl, hb, follow_of_score? hs hb⟩
    | true => exact .inl (by simp [Promotion.follow, hs, hb])

end Promotions

theorem followAll_keeps (inv : Chart σ → Prop)
    (step : ∀ (p : Promotion σ) label, inv p.chart →
      inv (p.follow grammar span possibleOnly label).chart)
    {labels : List String} {p : Promotion σ} (h : inv p.chart) :
    inv (labels.foldl (Promotion.follow grammar span possibleOnly) p).chart := by
  induction labels generalizing p with
  | nil => exact h
  | cons label labels ih => exact ih (step p label h)

/-- What following a label keeps, closing a span keeps. -/
theorem closeFrom?_keeps (inv : Chart σ → Prop)
    (step : ∀ (p : Promotion σ) label, inv p.chart →
      inv (p.follow grammar span possibleOnly label).chart)
    {rounds : Nat} {agenda : Std.TreeSet String} {chart closed : Chart σ} (h : inv chart)
    (hc : closeFrom? grammar span possibleOnly rounds agenda chart = some closed) :
    inv closed := by
  induction rounds generalizing agenda chart with
  | zero =>
    simp only [closeFrom?] at hc
    split at hc <;> simp_all
  | succ rounds ih =>
    simp only [closeFrom?] at hc
    split at hc
    · simp_all
    · exact ih (followAll_keeps inv (p := { chart }) step h) hc

theorem close_eq_ok {rounds : Nat} {chart closed : Chart σ} :
    chart.close (π := π) grammar rounds span possibleOnly = .ok closed ↔
      closeFrom? grammar span possibleOnly rounds (chart.seen span) chart = some closed := by
  unfold close
  split <;> simp_all

section Words

variable [Probability π σ] {lexicon : Lexicon π} {rounds : Nat} {word : String} {i : Nat}
  {filled : Chart σ}

theorem fillWord_eq_ok :
    chart.fillWord grammar lexicon rounds word i = .ok filled ↔
      ∃ offers, tagOffers lexicon word i = .ok offers ∧
        closeFrom? grammar ⟨i, i + 1⟩ true rounds ((chart.offerAll offers).seen ⟨i, i + 1⟩)
          (chart.offerAll offers) = some filled := by
  simp [fillWord, close_eq_ok]

theorem flagFits_word (i : Nat) : FlagFits ⟨i, i + 1⟩ true := by
  simp [FlagFits]

end Words

theorem fillSpan_eq_ok {rounds : Nat} {filled : Chart σ} :
    chart.fillSpan (π := π) grammar rounds span = .ok filled ↔
      closeFrom? grammar span false rounds ((chart.combine grammar span).seen span)
        (chart.combine grammar span) = some filled :=
  close_eq_ok

theorem mem_wideSpans {n : Nat} :
    span ∈ wideSpans n ↔ span.start + 1 < span.stop ∧ span.stop ≤ n := by
  obtain ⟨i, j⟩ := span
  simp only [wideSpans, List.mem_flatMap, List.mem_map, List.mem_range, Span.mk.injEq]
  constructor
  · intro h
    obtain ⟨extra, _, start, _, rfl, rfl⟩ := h
    omega
  · intro h
    obtain ⟨hij, hj⟩ := h
    exact ⟨j - i - 2, by omega, i, by omega, rfl, by omega⟩

theorem pairwise_wideSpans (n : Nat) : (wideSpans n).Pairwise Span.Before := by
  unfold wideSpans
  rw [List.pairwise_flatMap]
  constructor
  · intro extra _
    rw [List.pairwise_map]
    apply List.pairwise_lt_range.imp
    intro start start' h
    right
    dsimp only
    omega
  · apply List.pairwise_lt_range.imp
    intro extra extra' h a ha b hb
    obtain ⟨start, _, rfl⟩ := List.mem_map.mp ha
    obtain ⟨start', _, rfl⟩ := List.mem_map.mp hb
    left
    dsimp only
    omega

theorem flagFits_wide {n : Nat} (h : span ∈ wideSpans n) : FlagFits span false := by
  have hw := (mem_wideSpans.mp h).1
  simp [FlagFits]
  omega

end Chart

end Constituency

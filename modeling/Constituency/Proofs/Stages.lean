import Constituency.Parser
import Constituency.Proofs.Saturation
import Constituency.Proofs.UnaryChains

/-!
# Stages of a fill

A fill takes one stage for each span. What a stage does depends on the rounds of unary rules only in
so far as they may be too few: a cap on the rounds never changes a chart, it only stops a fill.
-/

namespace Constituency

namespace Chart

variable {π σ : Type}

/-- A stage fills the span of a word or a longer one. -/
inductive Stage where
  | word (word : String) (position : Nat)
  | wide (span : Span)
deriving DecidableEq, Repr

def Stage.span : Stage → Span
  | word _ i => ⟨i, i + 1⟩
  | wide span => span

/-- The stages of a sentence: its words from left to right, and then its longer spans. -/
def stages (sentence : List String) : List Stage :=
  sentence.zipIdx.map (fun (word, i) => .word word i) ++
    (wideSpans sentence.length).map .wide

theorem map_span_stages (sentence : List String) :
    (stages sentence).map Stage.span = allSpans sentence.length := by
  have hpositions : sentence.zipIdx.map Prod.snd = List.range sentence.length := by
    simp [List.range_eq_range']
  rw [stages, allSpans, ← hpositions, List.map_append, List.map_map, List.map_map, List.map_map]
  congr 1
  exact List.map_id _

theorem pairwise_before_allSpans (n : Nat) : (allSpans n).Pairwise Span.Before := by
  refine List.pairwise_append.mpr ⟨?_, pairwise_wideSpans n, ?_⟩
  · refine List.pairwise_map.mpr (List.pairwise_lt_range.imp fun h => .inr ?_)
    simp only
    omega
  · intro _ hword wide hwide
    obtain ⟨i, _, rfl⟩ := List.mem_map.mp hword
    have hw := (mem_wideSpans.mp hwide).1
    left
    simp only
    omega

variable [Score σ] [Probability π σ] {grammar : Grammar σ} {lexicon : Lexicon π}
  {rounds rounds' : Nat} {sentence : List String} {chart : Chart σ} {span : Span} {stage : Stage}

def fillStage (grammar : Grammar σ) (lexicon : Lexicon π) (rounds : Nat) (chart : Chart σ) :
    Stage → Except (FillError π) (Chart σ)
  | .word word i => chart.fillWord grammar lexicon rounds word i
  | .wide span => chart.fillSpan grammar rounds span

theorem fill_eq_foldlM : fill grammar lexicon rounds sentence =
    (stages sentence).foldlM (fillStage grammar lexicon rounds) {} := by
  simp only [stages, List.foldlM_append, List.foldlM_map]
  rfl

omit [Probability π σ] in
theorem close_eq_error {possibleOnly : Bool} {e : FillError π}
    (h : chart.close grammar rounds span possibleOnly = .error e) :
    e = .divergence span rounds := by
  unfold close at h
  split at h
  · cases h
  · cases h
    rfl

omit [Probability π σ] in
/-- With more rounds a closure does the same, unless it runs out of the fewer ones. -/
theorem close_cases (h : rounds ≤ rounds') (grammar : Grammar σ) (span : Span)
    (possibleOnly : Bool) (chart : Chart σ) :
    chart.close (π := π) grammar rounds span possibleOnly =
        chart.close grammar rounds' span possibleOnly ∨
      chart.close (π := π) grammar rounds span possibleOnly = .error (.divergence span rounds) := by
  cases hclose : chart.close (π := π) grammar rounds span possibleOnly with
  | error e => exact .inr (congrArg _ (close_eq_error hclose))
  | ok closed =>
    obtain ⟨n, hn, hcloses⟩ := exists_closesIn (close_eq_ok.mp hclose)
    left
    rw [hcloses.close_eq, if_pos (hn.trans h)]

theorem fillStage_cases (h : rounds ≤ rounds') (grammar : Grammar σ) (lexicon : Lexicon π)
    (chart : Chart σ) (stage : Stage) :
    fillStage grammar lexicon rounds chart stage = fillStage grammar lexicon rounds' chart stage ∨
      fillStage grammar lexicon rounds chart stage =
        .error (.divergence stage.span rounds) := by
  cases stage with
  | word word i =>
    simp only [fillStage, fillWord, Stage.span]
    cases tagOffers lexicon word i with
    | error e => exact .inl rfl
    | ok offers => exact close_cases h grammar ⟨i, i + 1⟩ true (chart.offerAll offers)
  | wide span => exact close_cases h grammar span false (chart.combine grammar span)

theorem eq_of_fillStage_eq_divergence
    (h : fillStage grammar lexicon rounds chart stage = .error (.divergence span rounds')) :
    span = stage.span ∧ rounds' = rounds := by
  have hclose {span' : Span} {possibleOnly : Bool} {chart : Chart σ}
      (h : chart.close (π := π) grammar rounds span' possibleOnly =
        .error (.divergence span rounds')) : span = span' ∧ rounds' = rounds :=
    FillError.divergence.inj (close_eq_error h)
  cases stage with
  | word word i =>
    simp only [fillStage, fillWord] at h
    cases hoffers : tagOffers (σ := σ) lexicon word i with
    | error e =>
      rw [hoffers] at h
      cases h
    | ok offers =>
      rw [hoffers] at h
      exact hclose h
  | wide span' => exact hclose h

/-- With more rounds a fill does the same, unless a stage runs out of the fewer ones. With more of
them the fill gets at least as far. -/
theorem fill_cases (h : rounds ≤ rounds') (grammar : Grammar σ) (lexicon : Lexicon π)
    (sentence : List String) :
    fill grammar lexicon rounds sentence = fill grammar lexicon rounds' sentence ∨
      ∃ span ∈ allSpans sentence.length,
        fill grammar lexicon rounds sentence = .error (.divergence span rounds) ∧
          ∀ later n, fill grammar lexicon rounds' sentence = .error (.divergence later n) →
            span = later ∨ span.Before later := by
  rw [fill_eq_foldlM, fill_eq_foldlM]
  rcases foldlM_eq_or_part (fillStage grammar lexicon rounds) (fillStage grammar lexicon rounds')
    (stages sentence) {} with heq | ⟨before, stage, after, chart, hstages, hlow, hhigh, hne⟩
  · exact .inl heq
  · right
    have hstop := (fillStage_cases h grammar lexicon chart stage).resolve_left hne
    have hspans : allSpans sentence.length =
        before.map Stage.span ++ stage.span :: after.map Stage.span := by
      rw [← map_span_stages, hstages, List.map_append, List.map_cons]
    refine ⟨stage.span, by simp [hspans], ?_, ?_⟩
    · rw [hstages, List.foldlM_append, hlow]
      change (stage :: after).foldlM (fillStage grammar lexicon rounds) chart = _
      rw [List.foldlM_cons, hstop]
      rfl
    · intro later n hlater
      rw [hstages, List.foldlM_append, hhigh] at hlater
      obtain ⟨stage', hmem, chart', hdiverges⟩ := exists_of_foldlM_eq_error hlater
      obtain ⟨rfl, -⟩ := eq_of_fillStage_eq_divergence hdiverges
      have hpairwise := hspans ▸ pairwise_before_allSpans sentence.length
      have hrest := List.pairwise_cons.mp (List.pairwise_append.mp hpairwise).2.1
      rcases List.mem_cons.mp hmem with rfl | hmem
      · exact .inl rfl
      · exact .inr (hrest.1 _ (List.mem_map_of_mem hmem))

theorem mem_allSpans_of_fill_eq_divergence {n : Nat}
    (h : fill grammar lexicon rounds sentence = .error (.divergence span n)) :
    span ∈ allSpans sentence.length ∧ n = rounds := by
  rw [fill_eq_foldlM] at h
  obtain ⟨stage, hmem, _, hstage⟩ := exists_of_foldlM_eq_error h
  obtain ⟨rfl, rfl⟩ := eq_of_fillStage_eq_divergence hstage
  exact ⟨map_span_stages sentence ▸ List.mem_map_of_mem hmem, rfl⟩

end Chart

namespace Parser

variable {π σ : Type} [Score σ] [Probability π σ]

def withMaxRounds (parser : Parser π σ) (rounds : Nat) : Parser π σ :=
  { parser with config := { parser.config with maxRounds := rounds } }

/-- The cap on the rounds is only a guard. A chart that is filled under a cap is filled in the same
way under any higher one, a score that is no probability is found as well, and a span at which the
higher cap stops a fill comes no earlier than the one at which the lower cap does. -/
theorem fillChart_of_le_maxRounds (parser : Parser π σ) {rounds rounds' : Nat}
    (h : rounds ≤ rounds') (sentence : List String) :
    (∀ chart, (parser.withMaxRounds rounds).fillChart sentence = .ok chart →
      (parser.withMaxRounds rounds').fillChart sentence = .ok chart) ∧
    (∀ e, (parser.withMaxRounds rounds).fillChart sentence = .error (.invalidProbability e) →
      (parser.withMaxRounds rounds').fillChart sentence = .error (.invalidProbability e)) ∧
    ∀ span n, (parser.withMaxRounds rounds').fillChart sentence = .error (.divergence span n) →
      n = rounds' ∧ span ∈ Chart.allSpans sentence.length ∧
        ∃ earlier ∈ Chart.allSpans sentence.length,
          (parser.withMaxRounds rounds).fillChart sentence = .error (.divergence earlier rounds) ∧
            (earlier = span ∨ earlier.Before span) := by
  have hcases : (parser.withMaxRounds rounds).fillChart sentence =
        (parser.withMaxRounds rounds').fillChart sentence ∨
      ∃ earlier ∈ Chart.allSpans sentence.length,
        (parser.withMaxRounds rounds).fillChart sentence = .error (.divergence earlier rounds) ∧
          ∀ span n,
            (parser.withMaxRounds rounds').fillChart sentence = .error (.divergence span n) →
              earlier = span ∨ earlier.Before span :=
    Chart.fill_cases h parser.grammar parser.lexicon sentence
  have hdiverges {cap : Nat} {span : Span} {n : Nat}
      (hfill : (parser.withMaxRounds cap).fillChart sentence = .error (.divergence span n)) :
      span ∈ Chart.allSpans sentence.length ∧ n = cap :=
    Chart.mem_allSpans_of_fill_eq_divergence hfill
  refine ⟨fun chart hchart => ?_, fun e he => ?_, fun span n hspan => ?_⟩
  · rcases hcases with heq | ⟨earlier, -, hstop, -⟩
    · rwa [← heq]
    · cases hchart.symm.trans hstop
  · rcases hcases with heq | ⟨earlier, -, hstop, -⟩
    · rwa [← heq]
    · cases he.symm.trans hstop
  · obtain ⟨hmem, rfl⟩ := hdiverges hspan
    refine ⟨rfl, hmem, ?_⟩
    rcases hcases with heq | ⟨earlier, hearlier, hstop, hbefore⟩
    · obtain ⟨-, rfl⟩ := hdiverges (heq.trans hspan)
      exact ⟨span, hmem, heq.trans hspan, .inl rfl⟩
    · exact ⟨earlier, hearlier, hstop, hbefore span _ hspan⟩

section Ladder

/-- One step up from a word, and two from a phrase. -/
def ladderRules : Rules Likelihood where
  unary := [⟨"A", "T", .ofRat 1⟩, ⟨"Y", "X", .ofRat 1⟩, ⟨"Z", "Y", .ofRat 1⟩]
  binary := [⟨"X", "T", "T", .ofRat 1⟩]

def ladderParser : Parser ℚ Likelihood where
  grammar := ladderRules.toGrammar
  lexicon := { tags := ["T"], score := fun _ _ => 1 }

/-- Two rounds suffice for the words and stop the fill at the phrase. One round stops it at the
first word. -/
theorem fillChart_of_le_maxRounds_ladder : 1 ≤ 2 ∧
    (ladderParser.withMaxRounds 2).fillChart ["v", "w"] = .error (.divergence ⟨0, 2⟩ 2) ∧
    (ladderParser.withMaxRounds 1).fillChart ["v", "w"] = .error (.divergence ⟨0, 1⟩ 1) ∧
    (⟨0, 1⟩ : Span).Before ⟨0, 2⟩ := by
  have hhigh : (ladderParser.withMaxRounds 2).fillChart ["v", "w"] =
      .error (.divergence ⟨0, 2⟩ 2) := by decide +kernel
  have hlow : (ladderParser.withMaxRounds 1).fillChart ["v", "w"] =
      .error (.divergence ⟨0, 1⟩ 1) := by decide +kernel
  obtain ⟨-, -, hstop⟩ := fillChart_of_le_maxRounds ladderParser (by decide : 1 ≤ 2) ["v", "w"]
  obtain ⟨-, -, earlier, -, hearlier, hbefore⟩ := hstop _ _ hhigh
  obtain rfl : (⟨0, 1⟩ : Span) = earlier :=
    (FillError.divergence.inj (Except.error.inj (hlow.symm.trans hearlier))).1
  exact ⟨by decide, hhigh, hlow, hbefore.resolve_left (by decide)⟩

end Ladder

end Parser

end Constituency

import Mathlib.Data.List.Sort
import Constituency.Proofs.Likelihood
import Constituency.Proofs.MirroredCharts
import Constituency.Proofs.Points

/-!
# Windows of a sentence

The chart of a sentence contains the charts of all of its windows. Over the spans of a window a fill
does what a fill of the window alone does, in the same order, and over the other spans it leaves the
window alone.
-/

namespace Constituency

variable {π σ : Type}

namespace Chart

variable {offset : Nat} {part sentence : List String} {chart whole : Chart σ} {c : Constituent}
  {lexicon : Lexicon π} {grammar : Grammar σ} {rounds : Nat}

/-- The words of a window of the sentence, each with its place in the sentence. -/
theorem filter_words {words : List String} {n : Nat} (h : offset + n ≤ words.length) :
    (words.zipIdx.filter fun w => Span.Within ⟨w.2, w.2 + 1⟩ ⟨offset, offset + n⟩) =
      ((words.drop offset).take n).zipIdx offset := by
  have hout (words : List String) (start : Nat)
      (h : start + words.length ≤ offset ∨ offset + n ≤ start) :
      (words.zipIdx start).filter
        (fun w => Span.Within ⟨w.2, w.2 + 1⟩ ⟨offset, offset + n⟩) = [] := by
    rw [List.filter_eq_nil_iff]
    intro w hw
    have hlow := List.le_snd_of_mem_zipIdx hw
    have hhigh := List.snd_lt_add_of_mem_zipIdx hw
    rw [decide_eq_true_eq, Span.Within]
    dsimp only
    omega
  have hin (words : List String) (h : words.length = n) : (words.zipIdx offset).filter
      (fun w => Span.Within ⟨w.2, w.2 + 1⟩ ⟨offset, offset + n⟩) = words.zipIdx offset := by
    rw [List.filter_eq_self]
    intro w hw
    have hlow := List.le_snd_of_mem_zipIdx hw
    have hhigh := List.snd_lt_add_of_mem_zipIdx hw
    rw [decide_eq_true_eq, Span.Within]
    dsimp only
    omega
  have hbefore : (words.take offset).length = offset := by
    rw [List.length_take]
    omega
  have hinside : ((words.drop offset).take n).length = n := by
    rw [List.length_take, List.length_drop]
    omega
  -- What comes before the window, the window, and what comes after it.
  conv_lhs =>
    rw [← List.take_append_drop offset words, ← List.take_append_drop n (words.drop offset)]
  rw [List.zipIdx_append, List.zipIdx_append, List.filter_append, List.filter_append, Nat.zero_add,
    hbefore, hinside, hout _ 0 (by omega), hin _ hinside, hout _ (offset + n) (by omega),
    List.nil_append, List.append_nil]

/-- The words of the part stand in the sentence, one after the other. -/
theorem forall₂_words (h : offset + part.length ≤ sentence.length) :
    List.Forall₂ (fun w w' : String × Nat => part[w.2]? = some w.1 ∧
        sentence[w'.2]? = some w'.1 ∧ w'.2 = offset + w.2) part.zipIdx
      (sentence.zipIdx.filter fun w =>
        Span.Within ⟨w.2, w.2 + 1⟩ ⟨offset, offset + part.length⟩) := by
  have hlength : ((sentence.drop offset).take part.length).length = part.length := by
    rw [List.length_take, List.length_drop]
    omega
  rw [filter_words h, List.forall₂_iff_get]
  refine ⟨by simp only [List.length_zipIdx, hlength], ?_⟩
  intro d hd hd'
  have hd : d < part.length := by simpa using hd
  have hsentence : offset + d < sentence.length := by omega
  simp [hsentence]

/-- The spans of the part come in the order in which a fill of the sentence comes to them. -/
theorem filter_wideSpans {n k : Nat} (h : offset + k ≤ n) :
    (wideSpans n).filter (fun span => span.Within ⟨offset, offset + k⟩) =
      (wideSpans k).map (Span.moved offset) := by
  have : Std.Irrefl Span.Before := ⟨fun a h => by simp [Span.Before] at h⟩
  have : Std.Antisymm Span.Before := ⟨fun a b h h' => by
    simp only [Span.Before] at h h'
    omega⟩
  refine List.Pairwise.eq_of_mem_iff ((pairwise_wideSpans n).filter _) ?_ ?_
  · rw [List.pairwise_map]
    apply (pairwise_wideSpans k).imp
    intro a b hab
    simp only [Span.Before, Span.moved] at hab ⊢
    omega
  · rintro ⟨start, stop⟩
    simp only [List.mem_filter, mem_wideSpans, List.mem_map, decide_eq_true_eq]
    unfold Span.Within
    dsimp only
    constructor
    · rintro ⟨⟨hwide, hn⟩, hstart, hstop⟩
      exact ⟨⟨start - offset, stop - offset⟩, by dsimp only; omega,
        by simp only [Span.moved, Span.mk.injEq]; omega⟩
    · rintro ⟨a, ⟨hwide, hk⟩, ha⟩
      simp only [Span.moved, Span.mk.injEq] at ha
      omega

section Fill

variable [Score σ] [Probability π σ]

/-- Beyond the end of the sentence there is nothing. -/
theorem eq_none_of_fill (hfill : fill grammar lexicon rounds sentence = .ok chart)
    (hc : sentence.length < c.span.stop) : chart.get? c = none ∧ chart.seen? c.span = none := by
  obtain ⟨words, hwords, hspans⟩ := bind_eq_ok.mp hfill
  have hstep (span : Span) (hspan : span.stop ≤ sentence.length) (chart : Chart σ) (d : Constituent)
      (entry : Entry σ) (hd : d.span = span) (h : chart.get? c = none ∧ chart.seen? c.span = none) :
      (chart.offer d entry).get? c = none ∧ (chart.offer d entry).seen? c.span = none := by
    have hne : c.span ≠ d.span := by
      rw [hd]
      rintro rfl
      omega
    rwa [get?_offer_of_span_ne hne, seen?_offer_of_ne hne]
  have hempty : words.get? c = none ∧ words.seen? c.span = none := by
    refine foldlM_keeps (fun _ chart => chart.get? c = none ∧ chart.seen? c.span = none) ?_
      (by simp) hwords
    intro (word, i) hw _ before after hbefore hfill
    have hi := List.snd_lt_of_mem_zipIdx hw
    exact fillWord_keeps _ (hstep ⟨i, i + 1⟩ hi) hbefore hfill
  refine foldlM_keeps (fun _ chart => chart.get? c = none ∧ chart.seen? c.span = none) ?_
    hempty hspans
  intro span hspan _ before after hbefore hfill
  exact fillSpan_keeps _ (hstep span (mem_wideSpans.mp hspan).2) hbefore hfill

/-- The chart of the part is a window of the chart of the sentence. -/
theorem exists_fill_window (hr : lexicon.ReadsAlike offset part sentence)
    (hfill : fill grammar lexicon rounds sentence = .ok whole) :
    ∃ chart, fill grammar lexicon rounds part = .ok chart ∧
      chart.IsWindow offset part sentence whole := by
  obtain ⟨words, hwords, hspans⟩ := bind_eq_ok.mp hfill
  obtain ⟨tagged, htagged, hmirrors⟩ : ∃ tagged,
      fillWords grammar lexicon rounds part.zipIdx = .ok tagged ∧
        Mirrors offset part sentence tagged words := by
    refine exists_foldlM_of_filter (E := fun _ _ => True) ?_ ?_ (forall₂_words hr.bound)
      mirrors_empty hwords
    · rintro ⟨word, i⟩ ⟨word', _⟩ ⟨hword, hword', rfl⟩ chart whole h
      exact h.fillWord hr hword hword'
    · intro w hout chart whole later h hfill
      exact h.fillWord_outside (of_decide_eq_false hout) hfill
  obtain ⟨chart, hchart, hmirrors⟩ : ∃ chart, (wideSpans part.length).foldlM
      (fillSpan (π := π) grammar rounds) tagged = .ok chart ∧
        Mirrors offset part sentence chart whole := by
    refine exists_foldlM_of_filter (E := fun _ _ => True)
      (Q := fun span span' => span.stop ≤ part.length ∧ span' = span.moved offset)
      (p := fun span => span.Within ⟨offset, offset + part.length⟩) ?_ ?_ ?_ hmirrors hspans
    · rintro span _ ⟨hspan, rfl⟩ chart whole h
      exact h.fillSpan hspan
    · intro span hout chart whole later h hfill
      exact h.fillSpan_outside (of_decide_eq_false hout) hfill
    · rw [filter_wideSpans hr.bound, List.forall₂_map_right_iff, List.forall₂_same]
      intro span hspan
      exact ⟨(mem_wideSpans.mp hspan).2, rfl⟩
  have hpart : fill grammar lexicon rounds part = .ok chart :=
    bind_eq_ok.mpr ⟨tagged, htagged, hchart⟩
  exact ⟨chart, hpart, hmirrors, fun c => eq_none_of_fill hpart⟩

end Fill

end Chart

namespace Parser

variable [Score σ] [Probability π σ] {parser : Parser π σ} {sentence : List String}
  {whole : Chart σ}

/-- If a sentence has a chart, then so has whatever the lexicon reads like a window of it, and the
two charts agree over the window. So it is with the window itself and, for the lexicon of a
treebank, with any other unknown words in it. -/
theorem exists_fillChart_window (hfill : parser.fillChart sentence = .ok whole) :
    (∀ offset part, parser.lexicon.ReadsAlike offset part sentence →
      ∃ chart, parser.fillChart part = .ok chart ∧ chart.IsWindow offset part sentence whole) ∧
    (∀ offset size, offset + size ≤ sentence.length →
      ∃ chart, parser.fillChart ((sentence.drop offset).take size) = .ok chart ∧
        chart.IsWindow offset ((sentence.drop offset).take size) sentence whole) ∧
    ∀ counts : TagCounts, parser.lexicon = counts.toLexicon π →
      ∀ offset part, offset + part.length ≤ sentence.length →
        (∀ (d : Nat) word word', part[d]? = some word → sentence[offset + d]? = some word' →
          word = word' ∨ counts.isKnown word = false ∧ counts.isKnown word' = false) →
        ∃ chart, parser.fillChart part = .ok chart ∧
          chart.IsWindow offset part sentence whole := by
  have hwindow (offset : Nat) (part : List String)
      (hr : parser.lexicon.ReadsAlike offset part sentence) : ∃ chart,
        parser.fillChart part = .ok chart ∧ chart.IsWindow offset part sentence whole :=
    Chart.exists_fill_window hr hfill
  refine ⟨hwindow, ?_, ?_⟩
  · intro offset size hsize
    exact hwindow offset _ (.window parser.lexicon hsize)
  · intro counts hcounts offset part hbound hwords
    apply hwindow
    rw [hcounts]
    exact .of_unknown hbound hwords

section Strangers

/-- Nouns form phrases of two and of more; `a` and `b` are known. -/
def phraseParser : Parser ℚ Likelihood where
  grammar := Rules.toGrammar
    { unary := [⟨"NP", "N", .ofRat (1 / 4)⟩]
      binary := [⟨"NP", "N", "N", .ofRat (1 / 4)⟩, ⟨"NP", "NP", "NP", .ofRat (1 / 2)⟩] }
  lexicon := TagCounts.toLexicon ℚ (.ofTaggings [⟨"N", "a"⟩, ⟨"N", "b"⟩])
  config := { root := "NP" }

/-- Inside a sentence, the chart has an entry for two unknown words as it has alone. -/
theorem exists_fillChart_window_unknown : ∃ whole chart,
    phraseParser.fillChart ["a", "x", "y", "b"] = .ok whole ∧
      phraseParser.fillChart ["z", "z"] = .ok chart ∧
      chart.IsWindow 1 ["z", "z"] ["a", "x", "y", "b"] whole ∧
      chart.get? ⟨"NP", ⟨0, 2⟩⟩ =
        some ⟨.ofRat (1 / 4000000), .binary ⟨"N", ⟨0, 1⟩⟩ ⟨"N", ⟨1, 2⟩⟩⟩ := by
  have hroot : (phraseParser.fillChart ["z", "z"]).toOption.bind (·.get? ⟨"NP", ⟨0, 2⟩⟩) =
      some ⟨.ofRat (1 / 4000000), .binary ⟨"N", ⟨0, 1⟩⟩ ⟨"N", ⟨1, 2⟩⟩⟩ := by decide +kernel
  have hsentence : (phraseParser.fillChart ["a", "x", "y", "b"]).toOption.isSome = true := by
    decide +kernel
  obtain ⟨chart, hfill, hroot⟩ := toOption_bind_eq_some.mp hroot
  cases hwhole : phraseParser.fillChart ["a", "x", "y", "b"] with
  | error e => simp [hwhole, Except.toOption] at hsentence
  | ok whole =>
    have hunknown (d : Nat) (word word' : String) (hword : ["z", "z"][d]? = some word)
        (hword' : ["a", "x", "y", "b"][1 + d]? = some word') : word = word' ∨
          TagCounts.isKnown (.ofTaggings [⟨"N", "a"⟩, ⟨"N", "b"⟩]) word = false ∧
            TagCounts.isKnown (.ofTaggings [⟨"N", "a"⟩, ⟨"N", "b"⟩]) word' = false := by
      right
      cases d with
      | zero =>
        cases hword
        cases hword'
        decide +kernel
      | succ d =>
        cases d with
        | zero =>
          cases hword
          cases hword'
          decide +kernel
        | succ d => cases hword
    obtain ⟨chart', hfill', hwindow⟩ :=
      (exists_fillChart_window hwhole).2.2 _ rfl 1 ["z", "z"] (by decide) hunknown
    cases hfill.symm.trans hfill'
    exact ⟨whole, chart, rfl, hfill, hwindow, hroot⟩

end Strangers

end Parser

end Constituency

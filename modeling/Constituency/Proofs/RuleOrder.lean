import Constituency.Parser
import Constituency.Proofs.Closure
import Constituency.Proofs.Likelihood
import Constituency.Proofs.Offers

/-!
# The order of rules and tags

The order in which rules and tags are tried decides between equally good backpointers, and nothing
else. Two fills that try the same rules and tags in different orders run side by side: whatever
they are offered at a step, they are offered the same, and the best offers do not depend on the
order. Within a round of unary rules a label counts as improved if any offer beats what it had
before, in whatever order the offers come.
-/

namespace Constituency

variable {π σ : Type}

/-- The lookups list the same rules, in any order and with any repetition. -/
structure Grammar.SameRules (grammar grammar' : Grammar σ) : Prop where
  unaryByChild : ∀ label rule,
    rule ∈ grammar.unaryByChild label ↔ rule ∈ grammar'.unaryByChild label
  binaryByLeft : ∀ label rule,
    rule ∈ grammar.binaryByLeft label ↔ rule ∈ grammar'.binaryByLeft label
  binaryByRight : ∀ label rule,
    rule ∈ grammar.binaryByRight label ↔ rule ∈ grammar'.binaryByRight label

theorem Grammar.SameRules.of_perm {grammar grammar' : Grammar σ}
    (hunary : ∀ label, (grammar.unaryByChild label).Perm (grammar'.unaryByChild label))
    (hleft : ∀ label, (grammar.binaryByLeft label).Perm (grammar'.binaryByLeft label))
    (hright : ∀ label, (grammar.binaryByRight label).Perm (grammar'.binaryByRight label)) :
    grammar.SameRules grammar' where
  unaryByChild label _ := (hunary label).mem_iff
  binaryByLeft label _ := (hleft label).mem_iff
  binaryByRight label _ := (hright label).mem_iff

/-- The same scores, and the same tags in any order and with any repetition. -/
structure Lexicon.SameTags (lexicon lexicon' : Lexicon π) : Prop where
  tags : ∀ tag, tag ∈ lexicon.tags ↔ tag ∈ lexicon'.tags
  score : ∀ word tag, lexicon.score word tag = lexicon'.score word tag

/-- Failures of the same kind, over the same span and after as many rounds; values that are no
probabilities may differ. -/
inductive FillError.SameKind : FillError π → FillError π → Prop where
  | invalidProbability (e e' : InvalidProbability π) :
    SameKind (.invalidProbability e) (.invalidProbability e')
  | divergence (span : Span) (rounds : Nat) :
    SameKind (.divergence span rounds) (.divergence span rounds)

namespace Chart

variable {chart chart' : Chart σ} {c : Constituent} {span : Span}

/-- The same constituents with the same scores, and the same labels seen. -/
structure SameScores (chart chart' : Chart σ) : Prop where
  score? : ∀ c, chart.score? c = chart'.score? c
  seen? : ∀ span, Option.Rel Std.TreeSet.Equiv (chart.seen? span) (chart'.seen? span)

section Indexed

/-- The labels seen follow from the scores. -/
theorem Indexed.sameScores (h : chart.Indexed) (h' : chart'.Indexed)
    (hscore : ∀ c, chart.score? c = chart'.score? c) : chart.SameScores chart' where
  score? := hscore
  seen? span := by
    have hmem (label : String) : label ∈ chart.seen span ↔ label ∈ chart'.seen span := by
      rw [h.mem_seen_iff, h'.mem_seen_iff, hscore]
    simp only [seen] at hmem
    cases hs : chart.seen? span with
    | none =>
      cases hs' : chart'.seen? span with
      | none => exact .none
      | some labels' =>
        obtain ⟨label, hl⟩ := h'.nonempty span labels' hs'
        have hnone := (hmem label).mpr (by simpa [hs'] using hl)
        simp [hs] at hnone
    | some labels =>
      cases hs' : chart'.seen? span with
      | none =>
        obtain ⟨label, hl⟩ := h.nonempty span labels hs
        have hnone := (hmem label).mp (by simpa [hs] using hl)
        simp [hs'] at hnone
      | some labels' =>
        apply Option.Rel.some
        apply Std.TreeSet.Equiv.of_forall_mem_iff
        simpa [hs, hs'] using hmem

/-- Two charts in the midst of a fill, of which only the backpointers may differ. -/
structure Agree (chart chart' : Chart σ) : Prop where
  left : chart.Indexed
  right : chart'.Indexed
  score? : ∀ c, chart.score? c = chart'.score? c

theorem Agree.empty : Agree ({} : Chart σ) {} :=
  ⟨indexed_empty, indexed_empty, fun _ => rfl⟩

theorem Agree.sameScores (h : Agree chart chart') : chart.SameScores chart' :=
  h.left.sameScores h.right h.score?

theorem Agree.seen_equiv (h : Agree chart chart') (span : Span) :
    (chart.seen span).Equiv (chart'.seen span) := by
  apply Std.TreeSet.Equiv.of_forall_mem_iff
  intro label
  rw [h.left.mem_seen_iff, h.right.mem_seen_iff, h.score?]

theorem Agree.improves_eq [Score σ] (h : Agree chart chart') (c : Constituent) (score : σ) :
    chart.improves c score = chart'.improves c score := by
  rw [improves, improves, h.score?]

end Indexed

section Offers

variable [Score σ] [LawfulScore σ] {offers offers' : List (Constituent × Entry σ)}

/-- The same offers in any order. -/
theorem Agree.offerAll (h : Agree chart chart') (ho : ∀ o, o ∈ offers ↔ o ∈ offers') :
    Agree (chart.offerAll offers) (chart'.offerAll offers') where
  left := h.left.offerAll
  right := h.right.offerAll
  score? c := score?_offerAll_congr (h.score? c) ho

/-- Whatever the order of the rules up from a child, they improve the same labels: those for which
some rule beats what the chart had before. -/
theorem mem_improved_applyAll {rules : List (UnaryRule σ)} {child : Constituent} {score : σ}
    {p : Promotion σ} {label : String} :
    label ∈ (rules.foldl (Promotion.apply child score) p).improved ↔
      label ∈ p.improved ∨ ∃ rule ∈ rules, rule.parent = label ∧
        p.chart.improves ⟨label, child.span⟩ (score + rule.score) = true := by
  induction rules generalizing p with
  | nil => simp
  | cons rule rules ih =>
    have hfirst : label ∈ (p.apply child score rule).improved ↔ label ∈ p.improved ∨
        rule.parent = label ∧ p.chart.improves ⟨label, child.span⟩ (score + rule.score) = true := by
      simp only [Promotion.apply]
      split
      · rename_i hi
        rw [Std.TreeSet.mem_insert, Std.LawfulEqOrd.compare_eq_iff_eq]
        constructor
        · rintro (rfl | hl)
          · exact .inr ⟨rfl, hi⟩
          · exact .inl hl
        · rintro (hl | ⟨rfl, -⟩)
          · exact .inr hl
          · exact .inl rfl
      · rename_i hi
        constructor
        · exact .inl
        · rintro (hl | ⟨rfl, hl⟩)
          · exact hl
          · exact absurd hl hi
    rw [List.foldl_cons, ih]
    simp only [List.mem_cons, or_and_right, exists_or, exists_eq_left]
    rw [← or_assoc, ← hfirst]
    -- Unless the first rule has improved the label, the others find what they found before it.
    have hleads := Promotion.leads_apply child score p rule
    by_cases hl : label ∈ (p.apply child score rule).improved
    · simp [hl]
    · simp only [hl, false_or, improves, hleads.unchanged label hl]

end Offers

section Closure

variable [Score σ] [LawfulScore σ] {grammar grammar' : Grammar σ} {possibleOnly : Bool}
  {p p' : Promotion σ} {agenda agenda' : Std.TreeSet String}

/-- Rounds that agree, on the labels improved so far too. -/
structure Promotion.Agree (p p' : Promotion σ) : Prop where
  chart : Chart.Agree p.chart p'.chart
  improved : p.improved.Equiv p'.improved

/-- The same rules up from a child, in any order. -/
theorem Promotion.Agree.applyAll {rules rules' : List (UnaryRule σ)}
    (hrules : ∀ rule, rule ∈ rules ↔ rule ∈ rules') (h : p.Agree p') (child : Constituent)
    (score : σ) : (rules.foldl (Promotion.apply child score) p).Agree
      (rules'.foldl (Promotion.apply child score) p') where
  chart := by
    rw [chart_applyAll, chart_applyAll]
    apply h.chart.offerAll
    intro o
    simp only [List.mem_map, hrules]
  improved := by
    apply Std.TreeSet.Equiv.of_forall_mem_iff
    intro label
    rw [mem_improved_applyAll, mem_improved_applyAll, h.improved.mem_iff]
    simp only [hrules, h.chart.improves_eq]

theorem Promotion.Agree.follow (hg : grammar.SameRules grammar') (h : p.Agree p')
    (label : String) : (p.follow grammar span possibleOnly label).Agree
      (p'.follow grammar' span possibleOnly label) := by
  unfold Promotion.follow
  simp only [h.chart.score?]
  cases p'.chart.score? ⟨label, span⟩ with
  | none => exact h
  | some score =>
    simp only
    split
    · exact h
    · exact h.applyAll (hg.unaryByChild label) ⟨label, span⟩ score

theorem Agree.promote (hg : grammar.SameRules grammar') (ha : agenda.Equiv agenda')
    (h : Agree chart chart') : (promote grammar span possibleOnly agenda chart).Agree
      (promote grammar' span possibleOnly agenda' chart') := by
  have followAll (labels : List String) {p p' : Promotion σ} (h : p.Agree p') :
      (labels.foldl (Promotion.follow grammar span possibleOnly) p).Agree
        (labels.foldl (Promotion.follow grammar' span possibleOnly) p') := by
    induction labels generalizing p p' with
    | nil => exact h
    | cons label labels ih => exact ih (h.follow hg label)
  unfold Chart.promote
  rw [ha.toList_eq]
  exact followAll _ ⟨h, .rfl⟩

/-- Rounds that agree come to an end together. -/
theorem Agree.closeFrom? (hg : grammar.SameRules grammar') {rounds : Nat}
    (ha : agenda.Equiv agenda') (h : Agree chart chart') :
    Option.Rel Agree (closeFrom? grammar span possibleOnly rounds agenda chart)
      (closeFrom? grammar' span possibleOnly rounds agenda' chart') := by
  induction rounds generalizing agenda agenda' chart chart' with
  | zero =>
    rw [Chart.closeFrom?, Chart.closeFrom?, ha.isEmpty_eq]
    cases agenda'.isEmpty with
    | true => exact .some h
    | false => exact .none
  | succ rounds ih =>
    rw [Chart.closeFrom?, Chart.closeFrom?, ha.isEmpty_eq]
    cases agenda'.isEmpty with
    | true => exact .some h
    | false =>
      have hround : (Chart.promote grammar span possibleOnly agenda chart).Agree
          (Chart.promote grammar' span possibleOnly agenda' chart') := h.promote hg ha
      exact ih hround.improved hround.chart

theorem Agree.close (hg : grammar.SameRules grammar') (h : Agree chart chart') (rounds : Nat)
    (span : Span) (possibleOnly : Bool) :
    Alike (FillError.SameKind (π := π)) Agree (chart.close grammar rounds span possibleOnly)
      (chart'.close grammar' rounds span possibleOnly) := by
  have hclosed : Option.Rel Agree
      (Chart.closeFrom? grammar span possibleOnly rounds (chart.seen span) chart)
      (Chart.closeFrom? grammar' span possibleOnly rounds (chart'.seen span) chart') :=
    h.closeFrom? hg (h.seen_equiv span)
  unfold Chart.close
  generalize Chart.closeFrom? grammar span possibleOnly rounds (chart.seen span) chart = closed
    at hclosed ⊢
  generalize Chart.closeFrom? grammar' span possibleOnly rounds (chart'.seen span) chart' = closed'
    at hclosed ⊢
  cases hclosed with
  | none => exact .error (.divergence span rounds)
  | some h => exact .ok h

end Closure

section Fill

variable [Probability π σ] {grammar grammar' : Grammar σ} {lexicon lexicon' : Lexicon π}

theorem tagOffers_alike (hl : lexicon.SameTags lexicon') (word : String) (i : Nat) :
    Alike (fun _ _ => True)
      (fun offers offers' : List (Constituent × Entry σ) => ∀ o, o ∈ offers ↔ o ∈ offers')
      (tagOffers lexicon word i) (tagOffers lexicon' word i) := by
  have hboth : (∃ offers : List (Constituent × Entry σ), tagOffers lexicon word i = .ok offers) ↔
      ∃ offers : List (Constituent × Entry σ), tagOffers lexicon' word i = .ok offers := by
    simp only [exists_tagOffers_iff, hl.tags, hl.score]
  cases h : tagOffers lexicon word i with
  | error e =>
    cases h' : tagOffers lexicon' word i with
    | error e' => exact .error trivial
    | ok offers' => simp [h, h'] at hboth
  | ok offers =>
    cases h' : tagOffers lexicon' word i with
    | error e' => simp [h, h'] at hboth
    | ok offers' =>
      refine .ok fun o => ?_
      rw [mem_tagOffers h, mem_tagOffers h']
      simp only [Lexicon.tagScore?, hl.tags, hl.score]

variable [Score σ]

omit [Probability π σ] in
theorem mem_splitOffers_iff (hg : grammar.SameRules grammar') (h : Agree chart chart')
    (split : Nat) (o : Constituent × Entry σ) : o ∈ splitOffers grammar chart span split ↔
      o ∈ splitOffers grammar' chart' span split := by
  have hleft := h.seen_equiv ⟨span.start, split⟩
  have hright := h.seen_equiv ⟨split, span.stop⟩
  have hjoin : chart.join? span split = chart'.join? span split := by
    funext rule
    simp only [join?, h.score?]
  simp only [splitOffers, hjoin, hleft.size_eq, hright.size_eq, hleft.toList_eq, hright.toList_eq,
    hleft.contains_eq, hright.contains_eq]
  split
  · simp only [List.mem_filterMap, List.mem_flatMap, List.mem_filter, hg.binaryByRight]
  · simp only [List.mem_filterMap, List.mem_flatMap, List.mem_filter, hg.binaryByLeft]

variable [LawfulScore σ]

omit [Probability π σ] in
theorem Agree.combine (hg : grammar.SameRules grammar') (h : Agree chart chart') (span : Span) :
    Agree (chart.combine grammar span) (chart'.combine grammar' span) := by
  rw [combine_eq, combine_eq]
  apply h.offerAll
  intro o
  simp only [mem_combineOffers, mem_splitOffers_iff hg h]

theorem Agree.fillWord (hg : grammar.SameRules grammar') (hl : lexicon.SameTags lexicon')
    (h : Agree chart chart') (rounds : Nat) (word : String) (i : Nat) :
    Alike FillError.SameKind Agree (chart.fillWord grammar lexicon rounds word i)
      (chart'.fillWord grammar' lexicon' rounds word i) := by
  have hoffers : Alike FillError.SameKind _ _ _ := (tagOffers_alike (σ := σ) hl word i).mapError
    fun e e' _ => .invalidProbability e e'
  unfold Chart.fillWord
  apply hoffers.bind
  intro offers offers' ho
  exact (h.offerAll ho).close hg rounds ⟨i, i + 1⟩ true

omit [Probability π σ] in
theorem Agree.fillSpan (hg : grammar.SameRules grammar') (h : Agree chart chart') (rounds : Nat)
    (span : Span) : Alike (FillError.SameKind (π := π)) Agree
      (chart.fillSpan grammar rounds span) (chart'.fillSpan grammar' rounds span) :=
  (h.combine hg span).close hg rounds span false

theorem fill_alike (hg : grammar.SameRules grammar') (hl : lexicon.SameTags lexicon')
    (rounds : Nat) (sentence : List String) : Alike FillError.SameKind Agree
      (fill grammar lexicon rounds sentence) (fill grammar' lexicon' rounds sentence) := by
  unfold fill
  refine Alike.bind (R := Agree) ?_ ?_
  · refine Alike.foldlM ?_ Agree.empty
    intro w _ chart chart' h
    exact h.fillWord hg hl rounds w.1 w.2
  · intro chart chart' h
    refine Alike.foldlM ?_ h
    intro span _ chart chart' h
    exact h.fillSpan hg rounds span

end Fill

end Chart

namespace Parser

/-- Parsers with the same rules and tags, in whatever order, fail alike or fill charts of the same
constituents with the same scores. -/
theorem fillChart_alike [Score σ] [LawfulScore σ] [Probability π σ] {parser parser' : Parser π σ}
    (hg : parser.grammar.SameRules parser'.grammar)
    (hl : parser.lexicon.SameTags parser'.lexicon) (hc : parser.config = parser'.config)
    (sentence : List String) : Alike FillError.SameKind Chart.SameScores
      (parser.fillChart sentence) (parser'.fillChart sentence) := by
  unfold fillChart
  rw [hc]
  apply (Chart.fill_alike hg hl _ sentence).mono
  intro chart chart' h
  exact h.sameScores

section Rivals

/-- The second word of a sentence is an object or a predicate, with the same probability. -/
def rivalRules : Rules Likelihood where
  unary := [⟨"O", "N", .ofRat (1 / 2)⟩, ⟨"P", "N", .ofRat (1 / 2)⟩]
  binary := [⟨"S", "N", "O", .ofRat (1 / 2)⟩, ⟨"S", "N", "P", .ofRat (1 / 2)⟩]

def rivalParser : Parser ℚ Likelihood where
  grammar := rivalRules.toGrammar
  lexicon := { tags := ["N", "O"], score := fun _ tag => if tag = "N" then 1 else 0 }
  config := { root := "S" }

/-- The same parser, but the rules come in the opposite order and a tag comes twice. -/
def reversedParser : Parser ℚ Likelihood :=
  { rivalParser with
    grammar :=
      { unaryByChild := fun label => (rivalParser.grammar.unaryByChild label).reverse
        binaryByLeft := fun label => (rivalParser.grammar.binaryByLeft label).reverse
        binaryByRight := fun label => (rivalParser.grammar.binaryByRight label).reverse }
    lexicon := { rivalParser.lexicon with tags := ["O", "N", "O"] } }

/-- The first of two equally good rules leaves its backpointer, and the score is the same. -/
theorem fillChart_alike_rivals : ∃ chart chart',
    rivalParser.fillChart ["a", "b"] = .ok chart ∧
      reversedParser.fillChart ["a", "b"] = .ok chart' ∧ chart.SameScores chart' ∧
      chart.get? (rivalParser.root ["a", "b"]) ≠ chart'.get? (rivalParser.root ["a", "b"]) := by
  have hg : rivalParser.grammar.SameRules reversedParser.grammar :=
    .of_perm (fun _ => (List.reverse_perm _).symm) (fun _ => (List.reverse_perm _).symm)
      (fun _ => (List.reverse_perm _).symm)
  have hl : rivalParser.lexicon.SameTags reversedParser.lexicon :=
    ⟨by simp [rivalParser, reversedParser], fun _ _ => rfl⟩
  have hroot : (rivalParser.fillChart ["a", "b"]).toOption.bind
      (·.get? (rivalParser.root ["a", "b"])) =
        some ⟨.ofRat (1 / 4), .binary ⟨"N", ⟨0, 1⟩⟩ ⟨"O", ⟨1, 2⟩⟩⟩ := by decide +kernel
  have hroot' : (reversedParser.fillChart ["a", "b"]).toOption.bind
      (·.get? (rivalParser.root ["a", "b"])) =
        some ⟨.ofRat (1 / 4), .binary ⟨"N", ⟨0, 1⟩⟩ ⟨"P", ⟨1, 2⟩⟩⟩ := by decide +kernel
  obtain ⟨chart, hfill, hroot⟩ := toOption_bind_eq_some.mp hroot
  obtain ⟨chart', hfill', hroot'⟩ := toOption_bind_eq_some.mp hroot'
  refine ⟨chart, chart', hfill, hfill', ?_, by simp [hroot, hroot']⟩
  have halike := fillChart_alike hg hl rfl ["a", "b"]
  rw [hfill, hfill'] at halike
  cases halike with
  | ok h => exact h

end Rivals

end Parser

end Constituency

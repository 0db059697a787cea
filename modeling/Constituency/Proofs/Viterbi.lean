import Constituency.Parser
import Constituency.Proofs.Likelihood
import Constituency.Proofs.LogProbability
import Constituency.Proofs.Saturation
import Constituency.Proofs.Success

/-!
# The best derivations

The scores in a filled chart are those of the best derivations. Over a single word rules do not go
up from an impossible score, so that what is derived there through an impossible part alone is not
in the chart.
-/

namespace Constituency

variable {π σ : Type} [Score σ] [Probability π σ] {grammar : Grammar σ} {rules : Rules σ}
  {lexicon : Lexicon π} {rounds : Nat} {sentence : List String} {c : Constituent} {t : Tree}
  {score : σ}

/-- Over a single word, what has a derivation has one that is possible. -/
def PossibleOverWords (rules : Rules σ) (lexicon : Lexicon π) (sentence : List String) : Prop :=
  ∀ label i, (derivationScores rules lexicon sentence ⟨label, ⟨i, i + 1⟩⟩).Nonempty →
    ∃ score ∈ derivationScores rules lexicon sentence ⟨label, ⟨i, i + 1⟩⟩, Score.Possible score

/-- Where sums of possible scores are possible, possible rules and tags are enough. -/
theorem possibleOverWords_of_possible
    (hadd : ∀ a b : σ, Score.Possible a → Score.Possible b → Score.Possible (a + b))
    (hunary : ∀ rule ∈ rules.unary, Score.Possible rule.score)
    (hbinary : ∀ rule ∈ rules.binary, Score.Possible rule.score)
    (htags : ∀ word tag score, lexicon.tagScore? word tag = some score → Score.Possible score) :
    PossibleOverWords rules lexicon sentence := by
  have hpossible {c t score} (h : Derives rules lexicon sentence c t score) :
      Score.Possible score := by
    induction h with
    | tag _ hscore => exact htags _ _ _ hscore
    | unary hrule _ ih => exact hadd _ _ ih (hunary _ hrule)
    | binary hrule _ _ left right => exact hadd _ _ (hadd _ _ left right) (hbinary _ hrule)
  intro label i h
  obtain ⟨score, t, h⟩ := h
  exact ⟨score, ⟨t, h⟩, hpossible h⟩

namespace Chart

variable {chart : Chart σ}

/-- Whatever score a grown chart has, some derivation earns. -/
theorem Grown.mem_derivationScores (h : Grown grammar lexicon sentence chart)
    (hg : grammar.Lists rules) (hs : chart.score? c = some score) :
    score ∈ derivationScores rules lexicon sentence c := by
  induction h generalizing c score with
  | empty => simp [score?] at hs
  | @offer chart d entry _ licensed ih =>
    by_cases hd : d = c ∧ chart.improves d entry.score = true
    · obtain ⟨rfl, hi⟩ := hd
      obtain rfl : entry.score = score := by simpa [score?, get?_offer, hi] using hs
      cases licensed with
      | tag hword hscore => exact ⟨_, .tag hword hscore⟩
      | @unary child _ _ hchild _ hrule =>
        obtain ⟨_, span⟩ := child
        obtain ⟨hmem, rfl⟩ := hg.mem_unaryByChild.mp hrule
        obtain ⟨t, ht⟩ := ih hchild
        exact ⟨_, .unary hmem ht⟩
      | binary hrule _ _ hleft hright =>
        obtain ⟨t, ht⟩ := ih hleft
        obtain ⟨u, hu⟩ := ih hright
        exact ⟨_, .binary (hg.mem_binary hrule) ht hu⟩
    · exact ih (by simpa [score?, get?_offer, hd] using hs)

variable [LawfulScore σ]

/-- A closed chart has what a possible derivation derives: its parts are possible, and what is at
least as good as a part is followed like the part. -/
theorem has_of_possible (hclosed : ∀ span, ClosedOver rules lexicon sentence chart span)
    (h : Derives rules lexicon sentence c t score) (hp : Score.Possible score) :
    chart.Has c score := by
  induction h with
  | tag hword hscore => exact (hclosed _).tag _ _ _ _ rfl hword hscore
  | @unary rule span _ x hrule _ ih =>
    obtain ⟨s, hs, hle⟩ := ih (LawfulScore.possible_left_of_add hp)
    have hfollows : span.Follows s := fun _ =>
      LawfulScore.possible_of_le hle (LawfulScore.possible_left_of_add hp)
    exact ((hclosed span).unary rule hrule s hs hfollows).mono
      (LawfulScore.add_le_add hle (Std.le_refl _))
  | @binary rule i k j _ _ x y hrule left right ihl ihr =>
    have hxy := LawfulScore.possible_left_of_add hp
    obtain ⟨s, hs, hsx⟩ := ihl (LawfulScore.possible_left_of_add hxy)
    obtain ⟨u, hu, huy⟩ := ihr (LawfulScore.possible_of_le (LawfulScore.add_le_right x y) hxy)
    exact ((hclosed ⟨i, j⟩).binary rule hrule k s u left.span_bounds.1 right.span_bounds.1 hs
      hu).mono (LawfulScore.add_le_add (LawfulScore.add_le_add hsx huy) (Std.le_refl _))

/-- If nothing over a single word is derived through impossible parts alone, a closed chart has
what any derivation derives. -/
theorem has_of_derives (hclosed : ∀ span, ClosedOver rules lexicon sentence chart span)
    (hw : PossibleOverWords rules lexicon sentence)
    (h : Derives rules lexicon sentence c t score) : chart.Has c score := by
  have over_word {label i t} {x : σ}
      (h : Derives rules lexicon sentence ⟨label, ⟨i, i + 1⟩⟩ t x) :
      chart.Has ⟨label, ⟨i, i + 1⟩⟩ x := by
    obtain ⟨best, ⟨u, hu⟩, hbest⟩ := hw label i ⟨x, t, h⟩
    cases hx : Score.isImpossible x with
    | false => exact has_of_possible hclosed h hx
    | true => exact (has_of_possible hclosed hu hbest).mono (LawfulScore.le_of_isImpossible _ hx)
  induction h with
  | tag hword hscore => exact (hclosed _).tag _ _ _ _ rfl hword hscore
  | @unary rule span _ x hrule child ih =>
    obtain ⟨i, j⟩ := span
    by_cases hj : j = i + 1
    · subst hj
      exact over_word (child.unary hrule)
    · obtain ⟨s, hs, hle⟩ := ih
      exact ((hclosed ⟨i, j⟩).unary rule hrule s hs fun hj' => absurd hj' hj).mono
        (LawfulScore.add_le_add hle (Std.le_refl _))
  | @binary rule i k j _ _ x y hrule left right ihl ihr =>
    obtain ⟨s, hs, hsx⟩ := ihl
    obtain ⟨u, hu, huy⟩ := ihr
    exact ((hclosed ⟨i, j⟩).binary rule hrule k s u left.span_bounds.1 right.span_bounds.1 hs
      hu).mono (LawfulScore.add_le_add (LawfulScore.add_le_add hsx huy) (Std.le_refl _))

section Filled

variable (hg : grammar.Lists rules) (hfill : fill grammar lexicon rounds sentence = .ok chart)
include hg hfill

/-- No derivation is better than the score in a filled chart. -/
theorem le_of_derives {x : σ} (h : Derives rules lexicon sentence c t x)
    (hs : chart.score? c = some score) : x ≤ score :=
  LawfulScore.le_of_possible_imp_le fun hp =>
    (has_of_possible (closedOver_of_fill hg hfill) h hp).le hs

theorem score?_eq_some_iff_of_possible : chart.score? c = some score ∧ Score.Possible score ↔
    IsGreatest {x | x ∈ derivationScores rules lexicon sentence c ∧ Score.Possible x} score := by
  have hclosed := closedOver_of_fill hg hfill
  have hmem {s} (hs : chart.score? c = some s) :=
    (Grown.of_fill hfill).mem_derivationScores hg hs
  have upper {x} (hx : x ∈ derivationScores rules lexicon sentence c) (hp : Score.Possible x) :
      chart.Has c x := hx.elim fun _ h => has_of_possible hclosed h hp
  constructor
  · intro h
    obtain ⟨hs, hp⟩ := h
    refine ⟨⟨hmem hs, hp⟩, ?_⟩
    intro x hx
    exact (upper hx.1 hx.2).le hs
  · intro h
    obtain ⟨⟨hx, hp⟩, hgreatest⟩ := h
    obtain ⟨s, hs, hle⟩ := upper hx hp
    have hge : s ≤ score := hgreatest ⟨hmem hs, LawfulScore.possible_of_le hle hp⟩
    obtain rfl : score = s := Std.le_antisymm hle hge
    exact ⟨hs, hp⟩

theorem score?_eq_some_iff (hw : PossibleOverWords rules lexicon sentence) :
    chart.score? c = some score ↔
      IsGreatest (derivationScores rules lexicon sentence c) score := by
  have hclosed := closedOver_of_fill hg hfill
  have hmem {s} (hs : chart.score? c = some s) :=
    (Grown.of_fill hfill).mem_derivationScores hg hs
  have upper {x} (hx : x ∈ derivationScores rules lexicon sentence c) : chart.Has c x :=
    hx.elim fun _ h => has_of_derives hclosed hw h
  constructor
  · intro hs
    refine ⟨hmem hs, ?_⟩
    intro x hx
    exact (upper hx).le hs
  · intro h
    obtain ⟨hx, hgreatest⟩ := h
    obtain ⟨s, hs, hle⟩ := upper hx
    rw [hs, Std.le_antisymm hle (hgreatest (hmem hs))]

theorem score?_eq_none_iff (hw : PossibleOverWords rules lexicon sentence) :
    chart.score? c = none ↔ derivationScores rules lexicon sentence c = ∅ := by
  constructor
  · intro hn
    apply Set.eq_empty_of_forall_notMem
    intro x hx
    obtain ⟨t, h⟩ := hx
    obtain ⟨s, hs, _⟩ := has_of_derives (closedOver_of_fill hg hfill) hw h
    simp [hs] at hn
  · intro hempty
    cases hs : chart.score? c with
    | none => rfl
    | some s =>
      have hmem := (Grown.of_fill hfill).mem_derivationScores hg hs
      simp [hempty] at hmem

end Filled

end Chart

namespace Parser

variable {parser : Parser π σ} {chart : Chart σ}

theorem parse?_eq_ok (hfill : parser.fillChart sentence = .ok chart) :
    parser.parse? sentence = .ok ((chart.score? (parser.root sentence)).map fun score =>
      { tree := (chart.tree (parser.root sentence)).plain, score }) := by
  rw [parse?, hfill]
  rfl

/-- Possible scores in a filled chart are the best possible ones. If over the single words nothing
is derived through impossible parts alone, then all scores are the best ones, what has a derivation
is in the chart, and a sentence has a parse if its root has a derivation. -/
theorem viterbi [LawfulScore σ] (hg : parser.grammar.Lists rules)
    (hfill : parser.fillChart sentence = .ok chart) :
    (∀ c score, chart.score? c = some score ∧ Score.Possible score ↔
      IsGreatest {x | x ∈ derivationScores rules parser.lexicon sentence c ∧ Score.Possible x}
        score) ∧
    (PossibleOverWords rules parser.lexicon sentence →
      (∀ c score, chart.score? c = some score ↔
        IsGreatest (derivationScores rules parser.lexicon sentence c) score) ∧
      (∀ c, (chart.get? c).isSome = true ↔
        (derivationScores rules parser.lexicon sentence c).Nonempty) ∧
      ∃ result, parser.parse? sentence = .ok result ∧
        (result = none ↔
          derivationScores rules parser.lexicon sentence (parser.root sentence) = ∅) ∧
        ∀ parse, result = some parse →
          IsGreatest (derivationScores rules parser.lexicon sentence (parser.root sentence))
            parse.score) := by
  refine ⟨fun c score => Chart.score?_eq_some_iff_of_possible hg hfill, ?_⟩
  intro hw
  have hsome (c : Constituent) (score : σ) : chart.score? c = some score ↔
      IsGreatest (derivationScores rules parser.lexicon sentence c) score :=
    Chart.score?_eq_some_iff hg hfill hw
  have hnone (c : Constituent) : chart.score? c = none ↔
      derivationScores rules parser.lexicon sentence c = ∅ :=
    Chart.score?_eq_none_iff hg hfill hw
  refine ⟨hsome, ?_, _, parse?_eq_ok hfill, ?_, ?_⟩
  · intro c
    rw [Set.nonempty_iff_ne_empty, ne_eq, ← hnone c]
    cases h : chart.get? c <;> simp [Chart.score?, h]
  · rw [Option.map_eq_none_iff]
    exact hnone _
  · intro parse hparse
    obtain ⟨score, hs, rfl⟩ := Option.map_eq_some_iff.mp hparse
    exact (hsome _ _).mp hs

section Attachment

/-- Noun phrases that contain each other, and a rule that leads back from them to nouns. -/
def attachmentRules : Rules Likelihood where
  unary := [⟨"NP", "N", .ofRat (1 / 2)⟩, ⟨"N", "NP", .ofRat 1⟩]
  binary := [⟨"S", "NP", "NP", .ofRat (1 / 4)⟩, ⟨"NP", "NP", "NP", .ofRat (1 / 3)⟩]

def attachmentParser : Parser ℚ Likelihood where
  grammar := attachmentRules.toGrammar
  lexicon := { tags := ["N"], score := fun _ _ => 1 / 2 }
  config := { root := "S" }

theorem possibleOverWords_attachment :
    PossibleOverWords attachmentRules attachmentParser.lexicon ["x", "y", "z"] := by
  refine possibleOverWords_of_possible (fun _ _ => Likelihood.possible_add) (by decide +kernel)
    (by decide +kernel) fun word tag score h => ?_
  have hscore : attachmentParser.lexicon.tagScore? word "N" = some (.ofRat (1 / 2)) := by
    change attachmentParser.lexicon.tagScore? "" "N" = _
    decide +kernel
  have htag : tag = "N" := by simpa [attachmentParser] using Lexicon.mem_tags_of_tagScore? h
  rw [htag, hscore] at h
  rw [← Option.some.inj h]
  decide +kernel

/-- Two attachments and no end of detours, and the best of their scores in the chart. -/
theorem viterbi_attachment : ∃ chart,
    attachmentParser.fillChart ["x", "y", "z"] = .ok chart ∧
      chart.score? (attachmentParser.root ["x", "y", "z"]) = some (.ofRat (1 / 768)) ∧
      PossibleOverWords attachmentRules attachmentParser.lexicon ["x", "y", "z"] ∧
      IsGreatest (derivationScores attachmentRules attachmentParser.lexicon ["x", "y", "z"]
        (attachmentParser.root ["x", "y", "z"])) (.ofRat (1 / 768)) := by
  have hscore : (attachmentParser.fillChart ["x", "y", "z"]).toOption.bind
      (·.score? (attachmentParser.root ["x", "y", "z"])) = some (.ofRat (1 / 768)) := by
    decide +kernel
  cases hfill : attachmentParser.fillChart ["x", "y", "z"] with
  | error e => simp [hfill, Except.toOption] at hscore
  | ok chart =>
    have hroot : chart.score? (attachmentParser.root ["x", "y", "z"]) =
        some (.ofRat (1 / 768)) := by simpa [hfill, Except.toOption] using hscore
    obtain ⟨hbest, _⟩ :=
      (viterbi attachmentRules.lists_toGrammar hfill).2 possibleOverWords_attachment
    exact ⟨chart, rfl, hroot, possibleOverWords_attachment, (hbest _ _).mp hroot⟩

end Attachment

end Parser

section Overflow

/-- As steep as two such rules in a row are more than a floating-point number can tell. -/
def steep : LogProbability :=
  ⟨-1.7e308, .inl (by decide +kernel)⟩

def gentle : LogProbability :=
  ⟨-1, .inl (by decide +kernel)⟩

/-- Finite rules: from the tag `T` over the labels `A` and `B` up to the root `C`. -/
def steepRules : Rules LogProbability where
  unary := [⟨"A", "T", steep⟩, ⟨"B", "A", steep⟩, ⟨"C", "B", gentle⟩]

def steepParser : Parser Float LogProbability where
  grammar := steepRules.toGrammar
  lexicon := { tags := ["T"], score := fun word tag => if word = "w" ∧ tag = "T" then 1 else 0 }
  config := { root := "C" }

theorem tagScore?_steepParser :
    steepParser.lexicon.tagScore? "w" "T" = some (Probability.log (1 : Float)) := by
  have htag : "T" ∈ steepParser.lexicon.tags ∧
      Probability.isZero (steepParser.lexicon.score "w" "T") = false := by decide +kernel
  have hvalid : Probability.isValid (steepParser.lexicon.score "w" "T") = true := by
    decide +kernel
  rw [Lexicon.tagScore?, if_pos htag, Probability.score, if_pos hvalid]
  rfl

/-- Whatever derives `B` takes two steep rules. -/
theorem isImpossible_of_derives_B {c : Constituent} {t : Tree} {score : LogProbability}
    (h : Derives steepRules steepParser.lexicon ["w"] c t score) (hc : c.label = "B") :
    Score.isImpossible score = true := by
  have hbounds : (c.label = "A" → score ≤ steep) ∧ (c.label = "B" → score ≤ steep + steep) := by
    clear hc
    induction h with
    | @tag i word tag score _ hscore =>
      have htag := Lexicon.mem_tags_of_tagScore? hscore
      simp_all [steepParser]
    | @unary rule span t score hrule _ ih =>
      simp only [steepRules, List.mem_cons, List.not_mem_nil, or_false] at hrule
      rcases hrule with rfl | rfl | rfl
      · exact ⟨fun _ => LawfulScore.add_le_right _ _, by simp⟩
      · exact ⟨by simp, fun _ => LawfulScore.add_le_add (ih.1 rfl) (Std.le_refl _)⟩
      · simp
    | binary hrule => simp [steepRules] at hrule
  exact LawfulScore.isImpossible_of_le (hbounds.2 hc) (by decide +kernel)

theorem fillChart_steepParser : ∃ chart, steepParser.fillChart ["w"] = .ok chart := by
  have hlabels : steepRules.LabelsIn steepParser.lexicon.tags {"A", "B", "C", "T"} := by
    constructor <;> decide +kernel
  exact Chart.exists_fill steepRules.lists_toGrammar hlabels (by decide) (by decide +kernel)

theorem derives_steepParser : (derivationScores steepRules steepParser.lexicon ["w"]
    (steepParser.root ["w"])).Nonempty := by
  have htag : Derives steepRules steepParser.lexicon ["w"] ⟨"T", ⟨0, 1⟩⟩ _ _ :=
    .tag rfl tagScore?_steepParser
  have hA : Derives steepRules steepParser.lexicon ["w"] ⟨"A", ⟨0, 1⟩⟩ _ _ :=
    .unary (show ⟨"A", "T", steep⟩ ∈ steepRules.unary by simp [steepRules]) htag
  have hB : Derives steepRules steepParser.lexicon ["w"] ⟨"B", ⟨0, 1⟩⟩ _ _ :=
    .unary (show ⟨"B", "A", steep⟩ ∈ steepRules.unary by simp [steepRules]) hA
  exact ⟨_, _, .unary (show ⟨"C", "B", gentle⟩ ∈ steepRules.unary by simp [steepRules]) hB⟩

/-- No rule goes up from `B`, whose score is impossible at all times. -/
theorem score?_root_steepParser {chart : Chart LogProbability}
    (hfill : steepParser.fillChart ["w"] = .ok chart) :
    chart.score? (steepParser.root ["w"]) = none := by
  cases hs : chart.score? (steepParser.root ["w"]) with
  | none => rfl
  | some score =>
    obtain ⟨backpointer, hentry⟩ := Chart.get?_of_score? hs
    obtain ⟨earlier, hgrown, _, hl⟩ := (Chart.Grown.of_fill hfill).licensed hentry
    generalize hc : steepParser.root ["w"] = c at hl
    cases hl with
    | @tag i word tag _ _ hscore =>
      have hlabel : "C" = tag := congrArg Constituent.label hc
      have htag := Lexicon.mem_tags_of_tagScore? hscore
      simp [← hlabel, steepParser] at htag
    | @unary child x rule hchild hfollows hrule =>
      obtain ⟨hmem, hlabel⟩ := steepRules.lists_toGrammar.mem_unaryByChild.mp hrule
      have hparent : rule.parent = "C" := congrArg Constituent.label hc.symm
      have hspan : child.span = ⟨0, 1⟩ := congrArg Constituent.span hc.symm
      simp only [steepRules, List.mem_cons, List.not_mem_nil, or_false] at hmem
      rcases hmem with rfl | rfl | rfl
      · simp at hparent
      · simp at hparent
      · obtain ⟨t, ht⟩ := hgrown.mem_derivationScores steepRules.lists_toGrammar hchild
        have himpossible := isImpossible_of_derives_B ht hlabel.symm
        have hpossible := hfollows (by rw [hspan])
        simp [Score.Possible, himpossible] at hpossible
    | binary hrule =>
      have hmem := steepRules.lists_toGrammar.mem_binary hrule
      simp [steepRules] at hmem

/-- Finite rules are not enough for what has a derivation to be in the chart: `B` has one, whose
score overflows, and so the root has a derivation and no parse. -/
theorem finite_rules_overflow :
    steepParser.grammar.Lists steepRules ∧
      (∀ rule ∈ steepRules.unary, Score.Possible rule.score) ∧ steepRules.binary = [] ∧
      (∃ chart, steepParser.fillChart ["w"] = .ok chart) ∧
      (derivationScores steepRules steepParser.lexicon ["w"]
        (steepParser.root ["w"])).Nonempty ∧
      steepParser.parse? ["w"] = .ok none := by
  obtain ⟨chart, hfill⟩ := fillChart_steepParser
  refine ⟨steepRules.lists_toGrammar, by decide +kernel, rfl, ⟨chart, hfill⟩,
    derives_steepParser, ?_⟩
  rw [Parser.parse?_eq_ok hfill, score?_root_steepParser hfill]
  rfl

end Overflow

end Constituency

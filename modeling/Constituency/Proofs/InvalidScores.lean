import Mathlib.Data.Set.Card
import Constituency.Parser
import Constituency.Proofs.FloatShares
import Constituency.Proofs.Success

/-!
# Scores that are no probabilities

With a round for every label, a floating-point parser fails for the first score of a sentence that
is not a number or lies outside of the unit interval. It never runs out of rounds.
-/

namespace Constituency

section Floats

open Float.Model Float.Model.UnpackedFloat

/-- Numbers are compared alike from either side. -/
theorem exists_compare {u v : UnpackedFloat} (hu : u.isNaN = false) (hv : v.isNaN = false) :
    ∃ o, u.compare v = some o ∧ v.compare u = some o.swap := by
  cases u with
  | notANumber => cases hu
  | infinity s =>
    cases v with
    | notANumber => cases hv
    | infinity t => cases s <;> cases t <;> exact ⟨_, rfl, rfl⟩
    | zero t => cases s <;> exact ⟨_, rfl, rfl⟩
    | finite t n f hn => cases s <;> exact ⟨_, rfl, rfl⟩
  | zero s =>
    cases v with
    | notANumber => cases hv
    | infinity t => cases t <;> exact ⟨_, rfl, rfl⟩
    | zero t => exact ⟨_, rfl, rfl⟩
    | finite t n f hn => cases t <;> exact ⟨_, rfl, rfl⟩
  | finite s m e hm =>
    cases v with
    | notANumber => cases hv
    | infinity t => cases t <;> exact ⟨_, rfl, rfl⟩
    | zero t => cases s <;> exact ⟨_, rfl, rfl⟩
    | finite t n f hn =>
      have hswap : (compare f e).then (compare n m) = ((compare e f).then (compare m n)).swap := by
        rw [Ordering.swap_then, ← Std.OrientedCmp.eq_swap, ← Std.OrientedCmp.eq_swap]
      cases s with
      | negative =>
        cases t with
        | negative => exact ⟨_, rfl, congrArg (fun o : Ordering => some o.swap) hswap⟩
        | positive => exact ⟨_, rfl, rfl⟩
      | positive =>
        cases t with
        | negative => exact ⟨_, rfl, rfl⟩
        | positive => exact ⟨_, rfl, congrArg some hswap⟩

theorem not_le_iff {x y : Float} (hx : x.isNaN = false) (hy : y.isNaN = false) :
    ¬x ≤ y ↔ y < x := by
  obtain ⟨o, hxy, hyx⟩ := exists_compare (u := x.toModel.unpack) (v := y.toModel.unpack) hx hy
  rw [le_iff_unpack, lt_iff_unpack, UnpackedFloat.le, UnpackedFloat.lt, hxy, hyx]
  cases o <;> simp

/-- What is not a number is not compared. -/
theorem not_le_of_isNaN {x : Float} (hx : x.isNaN = true) (y : Float) : ¬x ≤ y ∧ ¬y ≤ x := by
  have hx : x.toModel.unpack.isNaN = true := hx
  rw [le_iff_unpack, le_iff_unpack]
  cases hu : x.toModel.unpack with
  | notANumber =>
    cases hv : y.toModel.unpack <;> simp [UnpackedFloat.le, UnpackedFloat.compare]
  | _ => simp [hu, UnpackedFloat.isNaN] at hx

/-- Zero and negative zero are no greater than one. -/
theorem le_one_of_le_zero_of_zero_le {x : Float} (hle : x ≤ 0) (hge : 0 ≤ x) : x ≤ 1 := by
  have hle : x.toModel.unpack.le (.zero .positive) = true := le_iff_unpack.mp hle
  have hge : UnpackedFloat.le (.zero .positive) x.toModel.unpack = true := le_iff_unpack.mp hge
  have hone : x.toModel.unpack.le (1 : Float).toModel.unpack = true := by
    obtain ⟨q, s, hq, hu, -⟩ := isPositive_one.hasCode
    rw [hu]
    cases hx : x.toModel.unpack with
    | notANumber => simp [hx, UnpackedFloat.le, UnpackedFloat.compare] at hle
    | infinity s => cases s <;> simp_all [UnpackedFloat.le, UnpackedFloat.compare]
    | zero s => rfl
    | finite s m e hm => cases s <;> simp_all [UnpackedFloat.le, UnpackedFloat.compare]
  exact le_iff_unpack.mpr hone

/-- A floating-point number that is no probability. -/
def isImproper (p : Float) : Bool :=
  p.isNaN || p < 0 || 1 < p

/-- What is left out would be valid, so that every score that is no probability is refused. -/
theorem isRefused_eq (p : Float) : Probability.isRefused p = isImproper p := by
  have hzero : Probability.isZero p = (decide (p ≤ 0) && decide (0 ≤ p)) := rfl
  have hvalid : Probability.isValid p = (decide (0 ≤ p) && decide (p ≤ 1)) := rfl
  rw [Probability.isRefused, isImproper, hzero, hvalid]
  cases hnan : p.isNaN with
  | true => simp [not_le_of_isNaN hnan]
  | false =>
    have hlow := not_le_iff (x := 0) (by decide +kernel) hnan
    have hhigh := not_le_iff (y := 1) hnan (by decide +kernel)
    simp only [← hlow, ← hhigh]
    by_cases hge : 0 ≤ p
    · by_cases hle : p ≤ 0
      · simp [hge, hle, le_one_of_le_zero_of_zero_le hle hge]
      · simp [hge, hle]
    · simp [hge]

end Floats

/-- The labels that constituents can have: the tags and the parents of all rules. -/
def Grammar.labels {σ : Type} (grammar : Grammar σ) (tags : List String) : Set String :=
  {label | label ∈ tags} ∪ UnaryRule.parent '' {rule | grammar.HasUnary rule} ∪
    BinaryRule.parent '' {rule | grammar.HasBinary rule}

section Finite

variable {σ : Type} {grammar : Grammar σ} {tags : List String}

theorem Grammar.finite_labels (hunary : {rule | grammar.HasUnary rule}.Finite)
    (hbinary : {rule | grammar.HasBinary rule}.Finite) : (grammar.labels tags).Finite :=
  ((List.finite_toSet tags).union (hunary.image _)).union (hbinary.image _)

theorem Grammar.labelsIn_labels (hfinite : (grammar.labels tags).Finite) :
    grammar.LabelsIn tags hfinite.toFinset where
  tag _ htag := hfinite.mem_toFinset.mpr (.inl (.inl htag))
  unary rule hrule := hfinite.mem_toFinset.mpr (.inl (.inr ⟨rule, hrule, rfl⟩))
  binary rule hrule := hfinite.mem_toFinset.mpr (.inr ⟨rule, hrule, rfl⟩)

theorem Grammar.LabelsIn.ncard_labels_le {labels : Finset String}
    (h : grammar.LabelsIn tags labels) : (grammar.labels tags).ncard ≤ labels.card := by
  have hsubset : grammar.labels tags ⊆ labels := by
    rintro _ ((htag | ⟨rule, hrule, rfl⟩) | ⟨rule, hrule, rfl⟩)
    · exact h.tag _ htag
    · exact h.unary rule hrule
    · exact h.binary rule hrule
  rw [← Set.ncard_coe_finset]
  exact Set.ncard_le_ncard hsubset labels.finite_toSet

end Finite

namespace Parser

section Ends

variable {π σ : Type} [Score σ] [Probability π σ] {parser : Parser π σ} {sentence : List String}
  {error? : Option (FillError π)}

/-- Looking the best parse up never fails. -/
theorem ends_parse? {R : Chart σ → Prop} (h : Ends R error? (parser.fillChart sentence)) :
    Ends (fun _ => True) error? (parser.parse? sentence) := by
  rw [← Option.or_none (o := error?)]
  exact h.bind fun _ _ => .ok trivial

theorem ends_tree? {R : Chart σ → Prop} (h : Ends R error? (parser.fillChart sentence)) :
    Ends (fun _ => True) error? (parser.tree? sentence) :=
  (ends_parse? h).map fun _ _ => trivial

end Ends

/-- With a round for every label, a sentence is parsed unless the lexicon has a score for one of its
words that is no probability. The first such score, by word and then by tag, is the error. -/
theorem fillChart_of_labels_le_maxRounds (parser : Parser Float LogProbability)
    (hunary : {rule | parser.grammar.HasUnary rule}.Finite)
    (hbinary : {rule | parser.grammar.HasBinary rule}.Finite)
    (hrounds : (parser.grammar.labels parser.lexicon.tags).ncard ≤ parser.config.maxRounds)
    (sentence : List String) :
    (∀ word ∈ sentence, ∀ tag ∈ parser.lexicon.tags,
      isImproper (parser.lexicon.score word tag) = true →
        ∃ p, (parser.lexicon.scores sentence).find? isImproper = some p ∧
          parser.fillChart sentence = .error (.invalidProbability ⟨p⟩) ∧
          parser.parse? sentence = .error (.invalidProbability ⟨p⟩) ∧
          parser.tree? sentence = .error (.invalidProbability ⟨p⟩)) ∧
    ((∀ word ∈ sentence, ∀ tag ∈ parser.lexicon.tags,
      isImproper (parser.lexicon.score word tag) = false) →
        (∃ chart, parser.fillChart sentence = .ok chart) ∧
        (∃ parse, parser.parse? sentence = .ok parse) ∧
        ∃ tree, parser.tree? sentence = .ok tree) ∧
    ∀ span rounds, parser.fillChart sentence ≠ .error (.divergence span rounds) ∧
      parser.parse? sentence ≠ .error (.divergence span rounds) ∧
      parser.tree? sentence ≠ .error (.divergence span rounds) := by
  have hfinite : (parser.grammar.labels parser.lexicon.tags).Finite :=
    Grammar.finite_labels hunary hbinary
  have hcard := Set.ncard_eq_toFinset_card _ hfinite
  have hfill : Ends _ (((parser.lexicon.scores sentence).find? Probability.isRefused).map
      fun p => .invalidProbability ⟨p⟩) (parser.fillChart sentence) :=
    Chart.ends_fill (Grammar.labelsIn_labels hfinite) (hcard ▸ hrounds)
  rw [funext isRefused_eq] at hfill
  have hparse := ends_parse? hfill
  have htree := ends_tree? hfill
  refine ⟨fun word hword tag htag himproper => ?_, fun hproper => ?_, fun span rounds => ?_⟩
  · have hsome : ((parser.lexicon.scores sentence).find? isImproper).isSome = true :=
      List.find?_isSome.mpr ⟨_, Lexicon.mem_scores.mpr ⟨word, hword, tag, htag, rfl⟩, himproper⟩
    obtain ⟨p, hp⟩ := Option.isSome_iff_exists.mp hsome
    rw [hp] at hfill hparse htree
    exact ⟨p, hp, hfill.eq_error, hparse.eq_error, htree.eq_error⟩
  · have hnone : (parser.lexicon.scores sentence).find? isImproper = none := by
      simp only [List.find?_eq_none, Lexicon.mem_scores]
      rintro _ ⟨word, hword, tag, htag, rfl⟩
      simp [hproper word hword tag htag]
    rw [hnone] at hfill hparse htree
    exact ⟨hfill.exists_eq_ok.imp fun _ h => h.1, hparse.exists_eq_ok.imp fun _ h => h.1,
      htree.exists_eq_ok.imp fun _ h => h.1⟩
  · have hno (p? : Option Float) : p?.map (fun p => FillError.invalidProbability ⟨p⟩) ≠
        some (.divergence span rounds) := by
      cases p? <;> simp
    exact ⟨fun h => hno _ (hfill.eq_some_of_eq_error h),
      fun h => hno _ (hparse.eq_some_of_eq_error h), fun h => hno _ (htree.eq_some_of_eq_error h)⟩

section Flawed

/-- Unary rules lead from `N` to `S` and back. -/
def flawedRules : Rules LogProbability where
  unary := [⟨"S", "N", .ofFloat (-1)⟩, ⟨"N", "S", .ofFloat (-1)⟩]
  binary := [⟨"S", "N", "V", .ofFloat (-2)⟩]

/-- The score of `barked` as a verb is above one, and those of `loudly` are negative. -/
def flawedParser : Parser Float LogProbability where
  grammar := flawedRules.toGrammar
  lexicon :=
    { tags := ["N", "V"]
      score := fun word tag =>
        if word = "loudly" then -1
        else if word = "barked" ∧ tag = "V" then 2
        else 1 }
  config := { maxRounds := 3 }

/-- A later score that is no probability is not reached. Without any, rounds for the three labels
are enough. -/
theorem fillChart_of_labels_le_maxRounds_flawed :
    {rule | flawedParser.grammar.HasUnary rule}.Finite ∧
    {rule | flawedParser.grammar.HasBinary rule}.Finite ∧
    (flawedParser.grammar.labels flawedParser.lexicon.tags).ncard ≤ 3 ∧
    flawedParser.parse? ["dogs", "barked", "loudly"] = .error (.invalidProbability ⟨2⟩) ∧
    ∃ chart, flawedParser.fillChart ["dogs", "run"] = .ok chart := by
  have hg : flawedParser.grammar.Lists flawedRules := flawedRules.lists_toGrammar
  have hunary : {rule | flawedParser.grammar.HasUnary rule}.Finite :=
    (List.finite_toSet flawedRules.unary).subset fun _ hrule => hg.mem_unary hrule
  have hbinary : {rule | flawedParser.grammar.HasBinary rule}.Finite :=
    (List.finite_toSet flawedRules.binary).subset fun _ hrule => hg.mem_binary hrule
  have hlabels : flawedRules.LabelsIn flawedParser.lexicon.tags {"N", "S", "V"} :=
    ⟨by decide, by decide, by decide⟩
  have hrounds : (flawedParser.grammar.labels flawedParser.lexicon.tags).ncard ≤ 3 :=
    (hg.labelsIn hlabels).ncard_labels_le
  have hfirst : (flawedParser.lexicon.scores ["dogs", "barked", "loudly"]).find? isImproper =
      some 2 := by decide +kernel
  obtain ⟨hbad, -, -⟩ := fillChart_of_labels_le_maxRounds flawedParser hunary hbinary hrounds
    ["dogs", "barked", "loudly"]
  obtain ⟨-, hgood, -⟩ := fillChart_of_labels_le_maxRounds flawedParser hunary hbinary hrounds
    ["dogs", "run"]
  obtain ⟨p, hp, -, hparse, -⟩ := hbad "barked" (by decide) "V" (by decide) (by decide +kernel)
  obtain rfl : p = 2 := Option.some.inj (hp.symm.trans hfirst)
  exact ⟨hunary, hbinary, hrounds, hparse, (hgood (by decide +kernel)).1⟩

end Flawed

end Parser

end Constituency

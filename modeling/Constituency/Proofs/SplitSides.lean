import Constituency.Proofs.Filling
import Constituency.Proofs.Likelihood
import Constituency.Proofs.Offers

/-!
# The sides of a split

At a split the binary rules are looked up under the labels of one side. Whichever side that is, and
it may be another one at every split, the rules make the same of the entries on both sides as if all
pairs of entries were tried. The side only decides which of the best candidates is the first.
-/

namespace Constituency

/-- The side of a split that drives the lookups of rules. -/
inductive Side where
  | left
  | right
deriving DecidableEq, Repr

namespace Side

variable {σ : Type}

def opposite : Side → Side
  | left => right
  | right => left

/-- The part of a span on this side of a split. -/
def part (span : Span) (split : Nat) : Side → Span
  | left => ⟨span.start, split⟩
  | right => ⟨split, span.stop⟩

/-- The child of a rule on this side. -/
def child (rule : BinaryRule σ) : Side → String
  | left => rule.left
  | right => rule.right

/-- The rules that are looked up under a child on this side. -/
def rules (grammar : Grammar σ) : Side → String → List (BinaryRule σ)
  | left => grammar.binaryByLeft
  | right => grammar.binaryByRight

end Side

/-- The lookups of binary rules list the same rules, each under its child on that side. Their order
and how often they come does not matter. -/
structure Grammar.TwoSided {σ : Type} (grammar : Grammar σ) : Prop where
  child : ∀ side label, ∀ rule ∈ Side.rules grammar side label, side.child rule = label
  same : ∀ rule, rule ∈ grammar.binaryByLeft rule.left ↔ rule ∈ grammar.binaryByRight rule.right

theorem Grammar.Lists.twoSided {σ : Type} {grammar : Grammar σ} {rules : Rules σ}
    (hg : grammar.Lists rules) : grammar.TwoSided where
  child side label rule hrule := by
    cases side with
    | left => exact (hg.mem_binaryByLeft.mp hrule).2
    | right => exact (hg.mem_binaryByRight.mp hrule).2
  same rule := by
    rw [hg.mem_binaryByLeft, hg.mem_binaryByRight]
    simp

theorem Grammar.TwoSided.mem_rules_iff {σ : Type} {grammar : Grammar σ} (hg : grammar.TwoSided)
    (side : Side) (rule : BinaryRule σ) :
    rule ∈ side.rules grammar (side.child rule) ↔ rule ∈ grammar.binaryByLeft rule.left := by
  cases side with
  | left => exact .rfl
  | right => exact (hg.same rule).symm

namespace Chart

variable {σ : Type}

theorem pairwise_splits (span : Span) : (splits span).Pairwise (· < ·) :=
  List.pairwise_map.mpr (List.pairwise_lt_range.imp fun h => by omega)

/-- The side with fewer labels, or the left one if there are as many. -/
def smallerSide (chart : Chart σ) (span : Span) (split : Nat) : Side :=
  if (chart.seen (Side.right.part span split)).size < (chart.seen (Side.left.part span split)).size
  then .right else .left

/-- The entries over a span, by label. -/
def entriesOver (chart : Chart σ) (span : Span) : List (Constituent × Entry σ) :=
  chart.toList.filter fun o => o.1.span = span

theorem mem_entriesOver {chart : Chart σ} {span : Span} {o : Constituent × Entry σ} :
    o ∈ chart.entriesOver span ↔ chart.get? o.1 = some o.2 ∧ o.1.span = span := by
  rw [entriesOver, List.mem_filter, decide_eq_true_eq, toList,
    Std.TreeMap.mem_toList_iff_getElem?_eq_some, get?]

variable [Score σ]

/-- What the binary rules offer at a split, looked up under the labels of one side. -/
def offersFrom (side : Side) (grammar : Grammar σ) (chart : Chart σ) (span : Span) (split : Nat) :
    List (Constituent × Entry σ) :=
  let labels := chart.seen (side.part span split)
  let others := chart.seen (side.opposite.part span split)
  let rules := labels.toList.flatMap fun label =>
    (side.rules grammar label).filter fun rule => others.contains (side.opposite.child rule)
  rules.filterMap (chart.join? span split)

/-- Combines the shorter spans within a span, at each split from the side of its own. -/
def combineFrom (side : Nat → Side) (grammar : Grammar σ) (chart : Chart σ) (span : Span) :
    Chart σ :=
  chart.offerAll ((splits span).flatMap fun split =>
    offersFrom (side split) grammar chart span split)

/-- What the binary rules offer if every pair of entries beside every split is tried under every
rule that joins the two. -/
def pairOffers (grammar : Grammar σ) (chart : Chart σ) (span : Span) :
    List (Constituent × Entry σ) :=
  (splits span).flatMap fun split =>
    (chart.entriesOver ⟨span.start, split⟩).flatMap fun left =>
      (chart.entriesOver ⟨split, span.stop⟩).flatMap fun right =>
        ((grammar.binaryByLeft left.1.label).filter (·.right = right.1.label)).map fun rule =>
          (⟨rule.parent, span⟩,
            { score := left.2.score + right.2.score + rule.score
              backpointer := .binary left.1 right.1 })

/-- Combines the shorter spans within a span in the plain way. -/
def combinePairs (grammar : Grammar σ) (chart : Chart σ) (span : Span) : Chart σ :=
  chart.offerAll (pairOffers grammar chart span)

variable {grammar : Grammar σ} {chart : Chart σ} {span : Span} {split : Nat}
  {o : Constituent × Entry σ}

theorem splitOffers_eq (grammar : Grammar σ) (chart : Chart σ) (span : Span) (split : Nat) :
    splitOffers grammar chart span split =
      offersFrom (chart.smallerSide span split) grammar chart span split := by
  by_cases h : (chart.seen ⟨split, span.stop⟩).size < (chart.seen ⟨span.start, split⟩).size
  · simp only [splitOffers, smallerSide, Side.part, h, ↓reduceIte]
    rfl
  · simp only [splitOffers, smallerSide, Side.part, h, ↓reduceIte]
    rfl

theorem combine_eq_combineFrom (grammar : Grammar σ) (chart : Chart σ) (span : Span) :
    chart.combine grammar span = chart.combineFrom (chart.smallerSide span) grammar span :=
  congrArg (fun offers => chart.offerAll ((splits span).flatMap offers))
    (funext (splitOffers_eq grammar chart span))

theorem isSome_score?_of_join? {rule : BinaryRule σ} (h : chart.join? span split rule = some o)
    (side : Side) : (chart.get? ⟨side.child rule, side.part span split⟩).isSome = true := by
  obtain ⟨x, y, hx, hy, -⟩ := join?_eq_some.mp h
  cases side with
  | left => exact isSome_of_score? hx
  | right => exact isSome_of_score? hy

section Candidates

/-- A rule that is tried at a split: the place where it stands in the lookup of a label. -/
structure Candidate where
  split : Nat
  label : String
  position : Nat
deriving DecidableEq, Repr

/-- By split, then by label and then by position. -/
def Candidate.Before (a b : Candidate) : Prop :=
  a.split < b.split ∨ a.split = b.split ∧
    (a.label < b.label ∨ a.label = b.label ∧ a.position < b.position)

theorem Candidate.Before.asymm {a b : Candidate} (h : a.Before b) : ¬b.Before a := by
  rcases h with h | ⟨hsplit, h | ⟨hlabel, h⟩⟩
  · rintro (h' | ⟨hsplit, -⟩) <;> omega
  · rintro (h' | ⟨-, h' | ⟨hlabel, -⟩⟩)
    · omega
    · exact String.lt_asymm h h'
    · exact String.lt_irrefl _ (hlabel ▸ h)
  · rintro (h' | ⟨-, h' | ⟨-, h'⟩⟩)
    · omega
    · exact String.lt_irrefl _ (hlabel ▸ h')
    · omega

/-- What a candidate offers over a span, if it has entries on both sides of its split. -/
def Candidate.Makes (side : Nat → Side) (grammar : Grammar σ) (chart : Chart σ) (span : Span)
    (a : Candidate) (o : Constituent × Entry σ) : Prop :=
  (span.start < a.split ∧ a.split < span.stop) ∧
    ∃ rule, ((side a.split).rules grammar a.label)[a.position]? = some rule ∧
      chart.join? span a.split rule = some o

/-- The first of the best candidates for a constituent over the span. -/
def Candidate.IsFirstBest (side : Nat → Side) (grammar : Grammar σ) (chart : Chart σ)
    (span : Span) (a : Candidate) (c : Constituent) (entry : Entry σ) : Prop :=
  a.Makes side grammar chart span (c, entry) ∧
    ∀ b e, b.Makes side grammar chart span (c, e) →
      e.score ≤ entry.score ∧ (entry.score ≤ e.score → a = b ∨ a.Before b)

/-- The candidates under a label that offer something, in the order in which they are tried. -/
def candidatesUnder (side : Side) (grammar : Grammar σ) (chart : Chart σ) (span : Span)
    (split : Nat) (label : String) : List (Candidate × (Constituent × Entry σ)) :=
  (side.rules grammar label).zipIdx.filterMap fun (rule, position) =>
    if (chart.seen (side.opposite.part span split)).contains (side.opposite.child rule) then
      (chart.join? span split rule).map (⟨split, label, position⟩, ·)
    else none

/-- All candidates that offer something, in the order in which they are tried. -/
def candidates (side : Nat → Side) (grammar : Grammar σ) (chart : Chart σ) (span : Span) :
    List (Candidate × (Constituent × Entry σ)) :=
  (splits span).flatMap fun split =>
    (chart.seen ((side split).part span split)).toList.flatMap
      (candidatesUnder (side split) grammar chart span split)

theorem map_snd_candidates (side : Nat → Side) (grammar : Grammar σ) (chart : Chart σ)
    (span : Span) : (candidates side grammar chart span).map Prod.snd =
      (splits span).flatMap fun split => offersFrom (side split) grammar chart span split := by
  have under (side : Side) (split : Nat) (label : String) :
      (candidatesUnder side grammar chart span split label).map Prod.snd =
        ((side.rules grammar label).filter fun rule =>
          (chart.seen (side.opposite.part span split)).contains
            (side.opposite.child rule)).filterMap (chart.join? span split) := by
    rw [candidatesUnder, List.map_filterMap, List.filterMap_filter]
    generalize side.rules grammar label = rules
    conv_rhs => rw [← List.zipIdx_map_fst 0 rules, List.filterMap_map]
    apply List.filterMap_congr
    rintro ⟨rule, position⟩ -
    simp only [Function.comp_apply]
    split
    · simp [Function.comp_def]
    · rfl
  simp only [candidates, offersFrom, List.map_flatMap, List.filterMap_flatMap, under]

theorem mem_candidatesUnder {side : Side} {label : String} {a : Candidate} :
    (a, o) ∈ candidatesUnder side grammar chart span split label ↔
      (a.split = split ∧ a.label = label) ∧
        ∃ rule, (side.rules grammar label)[a.position]? = some rule ∧
          side.opposite.child rule ∈ chart.seen (side.opposite.part span split) ∧
          chart.join? span split rule = some o := by
  constructor
  · intro h
    obtain ⟨⟨rule, position⟩, hrule, hmade⟩ := List.mem_filterMap.mp h
    simp only [Option.ite_none_right_eq_some, Option.map_eq_some_iff] at hmade
    obtain ⟨hother, _, hjoin, heq⟩ := hmade
    cases heq
    exact ⟨⟨rfl, rfl⟩, rule, List.mk_mem_zipIdx_iff_getElem?.mp hrule, by simpa using hother, hjoin⟩
  · rintro ⟨⟨rfl, rfl⟩, rule, hrule, hother, hjoin⟩
    refine List.mem_filterMap.mpr ⟨_, List.mk_mem_zipIdx_iff_getElem?.mpr hrule, ?_⟩
    simp [hother, hjoin]

theorem pairwise_candidates (side : Nat → Side) (grammar : Grammar σ) (chart : Chart σ)
    (span : Span) :
    (candidates side grammar chart span).Pairwise fun x y => x.1.Before y.1 := by
  refine List.pairwise_flatMap.mpr ⟨fun split _ => List.pairwise_flatMap.mpr ⟨?_, ?_⟩, ?_⟩
  · intro label _
    -- Under one label the positions are those of the lookup.
    have hpositions : ((side split).rules grammar label).zipIdx.Pairwise (·.2 < ·.2) := by
      rw [← List.pairwise_map (f := Prod.snd), List.zipIdx_map_snd]
      exact List.pairwise_lt_range' 1
    refine List.pairwise_filterMap.mpr (hpositions.imp ?_)
    intro place place' hlt x hx y hy
    simp only [Option.ite_none_right_eq_some, Option.map_eq_some_iff] at hx hy
    obtain ⟨-, _, -, rfl⟩ := hx
    obtain ⟨-, _, -, rfl⟩ := hy
    exact .inr ⟨rfl, .inr ⟨rfl, hlt⟩⟩
  · refine Std.TreeSet.ordered_toList.imp ?_
    intro label label' hlt x hx y hy
    obtain ⟨⟨hsplit, hlabel⟩, -⟩ := mem_candidatesUnder.mp hx
    obtain ⟨⟨hsplit', hlabel'⟩, -⟩ := mem_candidatesUnder.mp hy
    have hlt : label < label' := compareOfLessAndEq_eq_lt.mp hlt
    exact .inr ⟨hsplit.trans hsplit'.symm, .inl (hlabel ▸ hlabel' ▸ hlt)⟩
  · refine (pairwise_splits span).imp ?_
    intro split split' hlt x hx y hy
    obtain ⟨_, -, hx⟩ := List.mem_flatMap.mp hx
    obtain ⟨_, -, hy⟩ := List.mem_flatMap.mp hy
    obtain ⟨⟨hsplit, -⟩, -⟩ := mem_candidatesUnder.mp hx
    obtain ⟨⟨hsplit', -⟩, -⟩ := mem_candidatesUnder.mp hy
    exact .inl (hsplit ▸ hsplit' ▸ hlt)

theorem mem_candidates (hg : grammar.TwoSided) (hc : chart.Coherent) {side : Nat → Side}
    {a : Candidate} :
    (a, o) ∈ candidates side grammar chart span ↔ a.Makes side grammar chart span o := by
  simp only [candidates, List.mem_flatMap, mem_splits, Std.TreeSet.mem_toList]
  constructor
  · rintro ⟨split, hsplit, label, -, ha⟩
    obtain ⟨⟨rfl, rfl⟩, rule, hrule, -, hjoin⟩ := mem_candidatesUnder.mp ha
    exact ⟨hsplit, rule, hrule, hjoin⟩
  · rintro ⟨hsplit, rule, hrule, hjoin⟩
    have hchild := hg.child _ _ rule (List.mem_of_getElem? hrule)
    refine ⟨a.split, hsplit, a.label, ?_,
      mem_candidatesUnder.mpr ⟨⟨rfl, rfl⟩, rule, hrule, ?_, hjoin⟩⟩
    · rw [← hchild, hc]
      exact isSome_score?_of_join? hjoin _
    · rw [hc]
      exact isSome_score?_of_join? hjoin _

end Candidates

section Pairs

/-- From whichever side they are looked up, the rules offer all that they make of a split. -/
theorem mem_offersFrom (hg : grammar.TwoSided) (hc : chart.Coherent) (side : Side) :
    o ∈ offersFrom side grammar chart span split ↔
      ∃ rule, rule ∈ grammar.binaryByLeft rule.left ∧ chart.join? span split rule = some o := by
  constructor
  · intro h
    obtain ⟨rule, hrule, hjoin⟩ := List.mem_filterMap.mp h
    obtain ⟨label, -, hrule⟩ := List.mem_flatMap.mp hrule
    have hmem := (List.mem_filter.mp hrule).1
    rw [← hg.child _ _ rule hmem, hg.mem_rules_iff] at hmem
    exact ⟨rule, hmem, hjoin⟩
  · rintro ⟨rule, hrule, hjoin⟩
    refine List.mem_filterMap.mpr ⟨rule, List.mem_flatMap.mpr ⟨side.child rule, ?_,
      List.mem_filter.mpr ⟨(hg.mem_rules_iff side rule).mpr hrule, ?_⟩⟩, hjoin⟩
    · rw [Std.TreeSet.mem_toList, hc]
      exact isSome_score?_of_join? hjoin side
    · rw [Std.TreeSet.contains_iff_mem, hc]
      exact isSome_score?_of_join? hjoin side.opposite

/-- What a rule makes of two neighbouring entries, at some split strictly within the span. -/
def Joins (grammar : Grammar σ) (chart : Chart σ) (span : Span) (o : Constituent × Entry σ) :
    Prop :=
  ∃ split rule, (span.start < split ∧ split < span.stop) ∧
    rule ∈ grammar.binaryByLeft rule.left ∧ chart.join? span split rule = some o

theorem mem_pairOffers (hg : grammar.TwoSided) :
    o ∈ pairOffers grammar chart span ↔ Joins grammar chart span o := by
  simp only [pairOffers, List.mem_flatMap, List.mem_map, List.mem_filter, mem_splits,
    mem_entriesOver, decide_eq_true_eq]
  constructor
  · rintro ⟨split, hsplit, ⟨⟨_, _⟩, x⟩, ⟨hx, rfl⟩, ⟨⟨_, _⟩, y⟩, ⟨hy, rfl⟩, rule, ⟨hrule, rfl⟩, rfl⟩
    obtain rfl := hg.child .left _ rule hrule
    exact ⟨split, rule, hsplit, hrule,
      join?_eq_some.mpr ⟨_, _, score?_of_get? hx, score?_of_get? hy, rfl⟩⟩
  · rintro ⟨split, rule, hsplit, hrule, hjoin⟩
    obtain ⟨x, y, hx, hy, rfl⟩ := join?_eq_some.mp hjoin
    obtain ⟨_, hx⟩ := get?_of_score? hx
    obtain ⟨_, hy⟩ := get?_of_score? hy
    exact ⟨split, hsplit, (_, _), ⟨hx, rfl⟩, (_, _), ⟨hy, rfl⟩, rule, ⟨hrule, rfl⟩, rfl⟩

end Pairs

section Combined

variable [LawfulScore σ]

/-- The chart after combining the shorter spans within a span. It has the labels and the scores of
the plain way over the span, and is as before over all others. A new constituent comes from the
first of its best candidates. -/
structure CombinedFrom (side : Nat → Side) (grammar : Grammar σ) (span : Span)
    (chart combined : Chart σ) : Prop where
  get?_eq : ∀ c : Constituent, c.span ≠ span → combined.get? c = chart.get? c
  seen?_eq : ∀ other, other ≠ span → combined.seen? other = chart.seen? other
  score?_eq : ∀ label, combined.score? ⟨label, span⟩ =
    (chart.combinePairs grammar span).score? ⟨label, span⟩
  mem_seen_iff : ∀ label,
    label ∈ combined.seen span ↔ label ∈ (chart.combinePairs grammar span).seen span
  get?_eq_some_iff : ∀ label entry, chart.get? ⟨label, span⟩ = none →
    (combined.get? ⟨label, span⟩ = some entry ↔
      ∃ a, Candidate.IsFirstBest side grammar chart span a ⟨label, span⟩ entry)

theorem combinedFrom_combineFrom (hg : grammar.TwoSided) (hc : chart.Coherent) (span : Span)
    (side : Nat → Side) :
    CombinedFrom side grammar span chart (chart.combineFrom side grammar span) := by
  have hjoins (o : Constituent × Entry σ) :
      o ∈ (candidates side grammar chart span).map Prod.snd ↔ Joins grammar chart span o := by
    rw [map_snd_candidates]
    simp only [List.mem_flatMap, mem_splits, mem_offersFrom hg hc, Joins, exists_and_left]
  have hspan : ∀ o ∈ (candidates side grammar chart span).map Prod.snd, o.1.span = span := by
    intro o ho
    obtain ⟨split, rule, -, -, hjoin⟩ := (hjoins o).mp ho
    obtain ⟨x, y, -, -, rfl⟩ := join?_eq_some.mp hjoin
    rfl
  have hscore (label : String) :
      (chart.combineFrom side grammar span).score? ⟨label, span⟩ =
        (chart.combinePairs grammar span).score? ⟨label, span⟩ := by
    rw [combineFrom, ← map_snd_candidates]
    exact score?_offerAll_congr rfl fun o => (hjoins o).trans (mem_pairOffers hg).symm
  constructor
  case score?_eq => exact hscore
  case mem_seen_iff =>
    intro label
    rw [combineFrom, hc.offerAll label span, combinePairs, hc.offerAll label span,
      isSome_get?_iff, isSome_get?_iff]
    exact iff_of_eq (congrArg (Option.isSome · = true) (hscore label))
  all_goals rw [combineFrom, ← map_snd_candidates]
  case get?_eq =>
    intro c hc
    refine offerAll_keeps (fun later => later.get? c = chart.get? c) ?_ hspan rfl
    intro later d entry hd hlater
    rw [get?_offer_of_span_ne (hd ▸ hc), hlater]
  case seen?_eq =>
    intro other hother
    refine offerAll_keeps (fun later => later.seen? other = chart.seen? other) ?_ hspan rfl
    intro later d entry hd hlater
    rw [seen?_offer_of_ne (hd ▸ hother), hlater]
  case get?_eq_some_iff =>
    intro label entry hnone
    rw [get?_offerAll_eq_some_iff hnone,
      firstBest_map_snd_iff (R := Candidate.Before) (fun _ _ h => h.asymm)
        (pairwise_candidates _ _ _ _)]
    simp only [mem_candidates hg hc, Candidate.IsFirstBest]

/-- Combining looks rules up from the smaller side of each split. From whichever sides it did, there
would be the same labels and scores, those of the plain way; only the order in which equally good
candidates come would be another one. -/
theorem combine_from_smaller_sides (hg : grammar.TwoSided) (hc : chart.Coherent) (span : Span) :
    CombinedFrom (chart.smallerSide span) grammar span chart (chart.combine grammar span) ∧
      ∀ side, CombinedFrom side grammar span chart (chart.combineFrom side grammar span) := by
  rw [combine_eq_combineFrom]
  exact ⟨combinedFrom_combineFrom hg hc span _, combinedFrom_combineFrom hg hc span⟩

section Crossed

/-- Two rules up to a sentence, and the one for the later label comes first. -/
def crossedRules : Rules Likelihood where
  binary := [⟨"S", "B", "D", .ofRat (1 / 2)⟩, ⟨"S", "A", "D", .ofRat (1 / 2)⟩]

/-- More labels to the left of the split than to the right of it. -/
def crossedChart : Chart Likelihood :=
  ({} : Chart Likelihood).offerAll
    [(⟨"A", ⟨0, 1⟩⟩, ⟨.ofRat (1 / 2), .terminal (.word "x" 0)⟩),
      (⟨"B", ⟨0, 1⟩⟩, ⟨.ofRat (1 / 2), .terminal (.word "x" 0)⟩),
      (⟨"D", ⟨1, 2⟩⟩, ⟨.ofRat 1, .terminal (.word "y" 1)⟩)]

/-- From the right, where there are fewer labels, the first rule is the first candidate, and from
the left it is the first label. Both earn the same. -/
theorem combine_from_smaller_sides_crossed :
    crossedChart.smallerSide ⟨0, 2⟩ 1 = .right ∧
      CombinedFrom (crossedChart.smallerSide ⟨0, 2⟩) crossedRules.toGrammar ⟨0, 2⟩ crossedChart
        (crossedChart.combine crossedRules.toGrammar ⟨0, 2⟩) ∧
      (crossedChart.combine crossedRules.toGrammar ⟨0, 2⟩).get? ⟨"S", ⟨0, 2⟩⟩ =
        some ⟨.ofRat (1 / 4), .binary ⟨"B", ⟨0, 1⟩⟩ ⟨"D", ⟨1, 2⟩⟩⟩ ∧
      CombinedFrom (fun _ => .left) crossedRules.toGrammar ⟨0, 2⟩ crossedChart
        (crossedChart.combineFrom (fun _ => .left) crossedRules.toGrammar ⟨0, 2⟩) ∧
      (crossedChart.combineFrom (fun _ => .left) crossedRules.toGrammar ⟨0, 2⟩).get?
        ⟨"S", ⟨0, 2⟩⟩ = some ⟨.ofRat (1 / 4), .binary ⟨"A", ⟨0, 1⟩⟩ ⟨"D", ⟨1, 2⟩⟩⟩ := by
  have hcoherent : crossedChart.Coherent := indexed_empty.coherent.offerAll
  obtain ⟨hsmaller, hany⟩ := combine_from_smaller_sides
    crossedRules.lists_toGrammar.twoSided hcoherent ⟨0, 2⟩
  exact ⟨by decide +kernel, hsmaller, by decide +kernel, hany _, by decide +kernel⟩

end Crossed

end Combined

end Chart

end Constituency

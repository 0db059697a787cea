import Mathlib.Data.Set.Card
import Constituency.Proofs.Likelihood
import Constituency.Proofs.Rounds

/-!
# The best unary chains

Closing a span takes a number of rounds that only depends on the chart, and no more of them than
there are labels to reach. Whenever it comes to an end, the span has its best chains of unary rules,
and nothing else has changed.
-/

namespace Constituency

variable {π σ : Type}

namespace Chart

variable [Score σ] {grammar : Grammar σ} {span : Span} {possibleOnly : Bool}
  {start chart closed : Chart σ} {label : String} {path : List String} {score : σ}
  {agenda : Std.TreeSet String} {n rounds : Nat}

section Rounds

/-- Rounds of unary rules until one improves nothing, and how many it takes. -/
inductive ClosesIn (grammar : Grammar σ) (span : Span) (possibleOnly : Bool) :
    Nat → Std.TreeSet String → Chart σ → Chart σ → Prop where
  | done {agenda : Std.TreeSet String} {chart : Chart σ} (hempty : agenda.isEmpty = true) :
      ClosesIn grammar span possibleOnly 0 agenda chart chart
  | round {n : Nat} {agenda : Std.TreeSet String} {chart closed : Chart σ}
      (hagenda : agenda.isEmpty = false)
      (rest : ClosesIn grammar span possibleOnly n
        (promote grammar span possibleOnly agenda chart).improved
        (promote grammar span possibleOnly agenda chart).chart closed) :
      ClosesIn grammar span possibleOnly (n + 1) agenda chart closed

/-- The rounds that there are either suffice, or they do not. -/
theorem ClosesIn.closeFrom?_eq (h : ClosesIn grammar span possibleOnly n agenda chart closed)
    (rounds : Nat) : closeFrom? grammar span possibleOnly rounds agenda chart =
      if n ≤ rounds then some closed else none := by
  induction h generalizing rounds with
  | done hempty => cases rounds <;> simp [closeFrom?, hempty]
  | round hagenda _ ih =>
    cases rounds with
    | zero => simp [closeFrom?, hagenda]
    | succ rounds => simp [closeFrom?, hagenda, ih]

theorem exists_closesIn
    (h : closeFrom? grammar span possibleOnly rounds agenda chart = some closed) :
    ∃ n ≤ rounds, ClosesIn grammar span possibleOnly n agenda chart closed := by
  induction rounds generalizing agenda chart with
  | zero =>
    rw [closeFrom?] at h
    split at h
    case isTrue hempty =>
      cases h
      exact ⟨0, Nat.le_refl 0, .done hempty⟩
    case isFalse => cases h
  | succ rounds ih =>
    rw [closeFrom?] at h
    split at h
    case isTrue hempty =>
      cases h
      exact ⟨0, Nat.zero_le _, .done hempty⟩
    case isFalse hagenda =>
      obtain ⟨n, hn, hrest⟩ := ih h
      exact ⟨n + 1, Nat.succ_le_succ hn, .round (Bool.not_eq_true _ ▸ hagenda) hrest⟩

theorem ClosesIn.close_eq
    (h : ClosesIn grammar span possibleOnly n (start.seen span) start closed) (rounds : Nat) :
    start.close (π := π) grammar rounds span possibleOnly =
      if n ≤ rounds then .ok closed else .error (.divergence span rounds) := by
  rw [close, h.closeFrom?_eq rounds]
  split <;> simp_all

end Rounds

section Reach

omit [Score σ]

/-- The labels that unary rules lead to, from the entries that a span has at the start. -/
inductive Reaches (grammar : Grammar σ) (span : Span) (start : Chart σ) : String → Prop where
  | entry {label : String} (hentry : (start.get? ⟨label, span⟩).isSome = true) :
      Reaches grammar span start label
  | rule {label : String} {rule : UnaryRule σ} (below : Reaches grammar span start label)
      (hrule : rule ∈ grammar.unaryByChild label) : Reaches grammar span start rule.parent

theorem finite_reaches (hcoherent : start.Coherent) (hfinite : {r | grammar.HasUnary r}.Finite) :
    {label | Reaches grammar span start label}.Finite := by
  -- Whatever is reached was seen at the start or is the parent of a rule.
  apply ((List.finite_toSet (start.seen span).toList).union
    (hfinite.image UnaryRule.parent)).subset
  rintro label hlabel
  cases hlabel with
  | entry hentry =>
    exact .inl (Std.TreeSet.mem_toList.mpr ((hcoherent label span).mpr hentry))
  | rule below hrule => exact .inr ⟨_, ⟨_, hrule⟩, rfl⟩

theorem encloses_reaches (hfinite : {label | Reaches grammar span start label}.Finite) :
    Encloses grammar span start hfinite.toFinset where
  entry _ hentry := hfinite.mem_toFinset.mpr (.entry hentry)
  rule _ hlabel _ hrule :=
    hfinite.mem_toFinset.mpr (.rule (hfinite.mem_toFinset.mp hlabel) hrule)

end Reach

/-- Over the span the later chart has the best chains of unary rules up from the entries of the
start, and no other entries. Elsewhere it is the chart of the start. -/
structure BestChains (grammar : Grammar σ) (span : Span) (possibleOnly : Bool)
    (start closed : Chart σ) : Prop where
  get?_eq : ∀ c : Constituent, c.span ≠ span → closed.get? c = start.get? c
  seen?_eq : ∀ other, other ≠ span → closed.seen? other = start.seen? other
  score?_eq_some_iff : ∀ label score, closed.score? ⟨label, span⟩ = some score ↔
    IsGreatest {s | ∃ path, Climbs grammar span possibleOnly start path label s} score
  get?_eq_none_iff : ∀ label, closed.get? ⟨label, span⟩ = none ↔
    ∀ path score, ¬Climbs grammar span possibleOnly start path label score
  coherent : closed.Coherent

variable [LawfulScore σ]

section Best

variable (hclimbed : Climbed grammar span possibleOnly start closed)
  (hhas : ∀ path label score, Climbs grammar span possibleOnly start path label score →
    closed.Has ⟨label, span⟩ score)
include hclimbed hhas

omit [LawfulScore σ] in
theorem get?_eq_none_iff_climbs (label : String) : closed.get? ⟨label, span⟩ = none ↔
    ∀ path score, ¬Climbs grammar span possibleOnly start path label score := by
  constructor
  · intro hnone path score hclimbs
    obtain ⟨now, hnow, -⟩ := hhas path label score hclimbs
    simp [score?, hnone] at hnow
  · intro hno
    cases hentry : closed.get? ⟨label, span⟩ with
    | none => rfl
    | some entry =>
      obtain ⟨path, hclimbs⟩ := hclimbed label entry.score (score?_of_get? hentry)
      exact absurd hclimbs (hno path entry.score)

theorem score?_eq_some_iff_climbs (label : String) (score : σ) :
    closed.score? ⟨label, span⟩ = some score ↔
      IsGreatest {s | ∃ path, Climbs grammar span possibleOnly start path label s} score := by
  constructor
  · intro hscore
    refine ⟨hclimbed label score hscore, ?_⟩
    rintro s ⟨path, hclimbs⟩
    exact (hhas path label s hclimbs).le hscore
  · rintro ⟨⟨path, hclimbs⟩, hbest⟩
    obtain ⟨now, hnow, hle⟩ := hhas path label score hclimbs
    rw [hnow, Std.le_antisymm hle (hbest (hclimbed label now hnow))]

end Best

/-- Where all labels are spent, the chart has what the chains earn. -/
theorem Climbs.has (hextends : closed.Extends start)
    (hspent : ∀ label, Spent grammar span possibleOnly closed label)
    (h : Climbs grammar span possibleOnly start path label score) :
    closed.Has ⟨label, span⟩ score := by
  induction h with
  | entry hscore => exact hextends _ _ (.of_score? hscore)
  | rule _ hfollowed hrule ih =>
    obtain ⟨now, hnow, hle⟩ := ih
    have hparent := hspent _ now hnow (followed_of_le hle hfollowed) _ hrule
    exact hparent.mono (LawfulScore.add_le_add hle (Std.le_refl _))

theorem bestChains_of_closeFrom? (hcoherent : start.Coherent)
    (h : closeFrom? grammar span possibleOnly rounds (start.seen span) start = some closed) :
    BestChains grammar span possibleOnly start closed := by
  have hclimbed : Climbed grammar span possibleOnly start closed :=
    closeFrom?_keeps _ (fun _ label hp => hp.follow label)
      (afterRounds_zero hcoherent).climbed h
  have hspent : ∀ label, Spent grammar span possibleOnly closed label :=
    spent_of_closeFrom? (afterRounds_zero hcoherent).spent h
  have hhas (path : List String) (label : String) (score : σ)
      (hclimbs : Climbs grammar span possibleOnly start path label score) :
      closed.Has ⟨label, span⟩ score :=
    hclimbs.has (extends_of_closeFrom? h) hspent
  constructor
  case get?_eq =>
    intro c hc
    refine closeFrom?_keeps_offers (fun later => later.get? c = start.get? c) ?_ rfl h
    intro later d entry hd hlater
    rw [get?_offer_of_span_ne (hd ▸ hc), hlater]
  case seen?_eq =>
    intro other hother
    refine closeFrom?_keeps_offers (fun later => later.seen? other = start.seen? other) ?_ rfl h
    intro later d entry hd hlater
    rw [seen?_offer_of_ne (hd ▸ hother), hlater]
  case score?_eq_some_iff => exact score?_eq_some_iff_climbs hclimbed hhas
  case get?_eq_none_iff => exact get?_eq_none_iff_climbs hclimbed hhas
  case coherent =>
    refine closeFrom?_keeps_offers Coherent ?_ hcoherent h
    intro later c entry _ hlater
    exact hlater.offer c entry

/-- Closing a span takes no more rounds than there are labels to reach, and leaves it with its best
chains. With fewer rounds than it takes, there is an error. -/
theorem exists_closesIn_of_finite (hcoherent : start.Coherent)
    (hfinite : {r | grammar.HasUnary r}.Finite) (span : Span) (possibleOnly : Bool) :
    {label | Reaches grammar span start label}.Finite ∧
      ∃ n closed, n ≤ {label | Reaches grammar span start label}.ncard ∧
        ClosesIn grammar span possibleOnly n (start.seen span) start closed ∧
        BestChains grammar span possibleOnly start closed ∧
        ∀ rounds, start.close (π := π) grammar rounds span possibleOnly =
          if n ≤ rounds then .ok closed else .error (.divergence span rounds) := by
  have hreaches : {label | Reaches grammar span start label}.Finite :=
    finite_reaches hcoherent hfinite
  have hcard := Set.ncard_eq_toFinset_card _ hreaches
  -- That many rounds are enough; how many it takes is then read off the run.
  obtain ⟨closed, hclosed⟩ : ∃ closed, closeFrom? grammar span possibleOnly
      {label | Reaches grammar span start label}.ncard (start.seen span) start = some closed :=
    exists_closeFrom?_of_card_le hcoherent (encloses_reaches hreaches) hcard.ge
  obtain ⟨n, hn, hcloses⟩ := exists_closesIn hclosed
  exact ⟨hreaches, n, closed, hn, hcloses, bestChains_of_closeFrom? hcoherent hclosed,
    hcloses.close_eq⟩

section Chain

/-- A chain of three rules, and one back from its middle that is certain. -/
def chainRules : List (UnaryRule Likelihood) :=
  [⟨"NP", "NN", .ofRat (1 / 2)⟩, ⟨"S", "NP", .ofRat (1 / 2)⟩, ⟨"ROOT", "S", .ofRat (1 / 2)⟩,
    ⟨"NP", "S", .ofRat 1⟩]

def chainGrammar : Grammar Likelihood where
  unaryByChild label := chainRules.filter (·.child == label)
  binaryByLeft _ := []
  binaryByRight _ := []

def chainChart : Chart Likelihood :=
  ({} : Chart Likelihood).offer ⟨"NN", ⟨0, 1⟩⟩ ⟨.ofRat 1, .terminal (.word "dogs" 0)⟩

/-- Four labels can be reached, and three rounds are not enough. -/
theorem exists_closesIn_of_finite_chain :
    ∃ n closed, n ≤ {label | Reaches chainGrammar ⟨0, 1⟩ chainChart label}.ncard ∧ 3 < n ∧
      ClosesIn chainGrammar ⟨0, 1⟩ true n (chainChart.seen ⟨0, 1⟩) chainChart closed ∧
      BestChains chainGrammar ⟨0, 1⟩ true chainChart closed ∧
      chainChart.close (π := ℚ) chainGrammar n ⟨0, 1⟩ true = .ok closed := by
  have hcoherent : chainChart.Coherent := by
    apply Coherent.offer
    intro label span
    simp [seen]
  have hfinite : {r | chainGrammar.HasUnary r}.Finite := by
    apply (List.finite_toSet chainRules).subset
    rintro rule ⟨label, hrule⟩
    exact (List.mem_filter.mp hrule).1
  have hthree : (chainChart.close (π := ℚ) chainGrammar 3 ⟨0, 1⟩ true).isOk = false := by
    decide +kernel
  obtain ⟨-, n, closed, hn, hcloses, hbest, hclose⟩ :=
    exists_closesIn_of_finite (π := ℚ) hcoherent hfinite ⟨0, 1⟩ true
  refine ⟨n, closed, hn, ?_, hcloses, hbest, by rw [hclose, if_pos (Nat.le_refl n)]⟩
  by_contra hle
  rw [hclose, if_pos (Nat.le_of_not_lt hle)] at hthree
  cases hthree

end Chain

end Chart

end Constituency

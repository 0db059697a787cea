import Constituency.Chart.Fill
import Constituency.Proofs.Derivation

/-!
# Growing charts

A chart grows by one offer after another. A licensed offer puts a constituent together from parts
that the chart has, with the scores that they have at the time.
-/

namespace Constituency

variable {π σ : Type}

/-- Whether unary rules go up from a constituent over the span. Over a single word it must be
possible. -/
def Span.Follows [Score σ] (span : Span) (score : σ) : Prop :=
  span.stop = span.start + 1 → Score.Possible score

/-- Whether some label goes up by the rule. -/
def Grammar.HasUnary (grammar : Grammar σ) (rule : UnaryRule σ) : Prop :=
  ∃ label, rule ∈ grammar.unaryByChild label

/-- Whether one of the lookups knows the rule. -/
def Grammar.HasBinary (grammar : Grammar σ) (rule : BinaryRule σ) : Prop :=
  ∃ label, rule ∈ grammar.binaryByLeft label ∨ rule ∈ grammar.binaryByRight label

theorem Grammar.Lists.mem_unary {grammar : Grammar σ} {rules : Rules σ} {rule : UnaryRule σ}
    (hg : grammar.Lists rules) (h : grammar.HasUnary rule) : rule ∈ rules.unary := by
  obtain ⟨label, h⟩ := h
  exact (hg.mem_unaryByChild.mp h).1

theorem Grammar.Lists.mem_binary {grammar : Grammar σ} {rules : Rules σ} {rule : BinaryRule σ}
    (hg : grammar.Lists rules) (h : grammar.HasBinary rule) : rule ∈ rules.binary := by
  obtain ⟨label, h | h⟩ := h
  · exact (hg.mem_binaryByLeft.mp h).1
  · exact (hg.mem_binaryByRight.mp h).1

namespace Chart

variable {chart earlier later : Chart σ} {c d : Constituent} {entry : Entry σ}

theorem score?_of_get? (h : chart.get? c = some entry) : chart.score? c = some entry.score := by
  simp [score?, h]

theorem get?_of_score? {score : σ} (h : chart.score? c = some score) :
    ∃ backpointer, chart.get? c = some ⟨score, backpointer⟩ := by
  obtain ⟨entry, he, rfl⟩ := Option.map_eq_some_iff.mp h
  exact ⟨entry.backpointer, he⟩

theorem isSome_of_score? {score : σ} (h : chart.score? c = some score) :
    (chart.get? c).isSome = true := by
  obtain ⟨_, hb⟩ := get?_of_score? h
  simp [hb]

theorem mem_keys : c ∈ chart.entries.keys ↔ (chart.get? c).isSome = true := by
  simp [get?]

variable [Score σ]

/-- The chart has the constituent, with a score that is no worse. -/
def Has (chart : Chart σ) (c : Constituent) (score : σ) : Prop :=
  ∃ s, chart.score? c = some s ∧ score ≤ s

/-- Whatever the earlier chart has, the later one has. -/
def Extends (later earlier : Chart σ) : Prop :=
  ∀ c score, earlier.Has c score → later.Has c score

theorem Has.of_score? [LawfulScore σ] {score : σ} (h : chart.score? c = some score) :
    chart.Has c score :=
  ⟨score, h, Std.le_refl score⟩

theorem Has.le {a b : σ} (h : chart.Has c a) (hb : chart.score? c = some b) : a ≤ b := by
  obtain ⟨s, hs, hle⟩ := h
  rwa [Option.some.inj (hb.symm.trans hs)]

theorem Has.mono [LawfulScore σ] {a b : σ} (h : chart.Has c b) (hab : a ≤ b) : chart.Has c a := by
  obtain ⟨s, hs, hb⟩ := h
  exact ⟨s, hs, Std.le_trans hab hb⟩

theorem Extends.refl (chart : Chart σ) : chart.Extends chart :=
  fun _ _ h => h

theorem Extends.trans {middle : Chart σ} (h : later.Extends middle)
    (h' : middle.Extends earlier) : later.Extends earlier :=
  fun c score hs => h c score (h' c score hs)

theorem get?_offer : (chart.offer c entry).get? d =
    if c = d ∧ chart.improves c entry.score = true then some entry else chart.get? d := by
  unfold offer
  by_cases hi : chart.improves c entry.score = true
  · simp [hi, get?_insert]
  · simp [hi]

theorem get?_offer_of_ne (h : c ≠ d) : (chart.offer c entry).get? d = chart.get? d := by
  simp [get?_offer, h]

theorem get?_offer_of_span_ne (h : d.span ≠ c.span) : (chart.offer c entry).get? d = chart.get? d :=
  get?_offer_of_ne fun heq => h (congrArg Constituent.span heq.symm)

theorem seen?_offer_of_ne {span : Span} (h : span ≠ c.span) :
    (chart.offer c entry).seen? span = chart.seen? span := by
  unfold offer
  split
  · rw [seen?_insert, if_neg h.symm]
  · rfl

theorem score?_offer_of_ne (h : c ≠ d) : (chart.offer c entry).score? d = chart.score? d := by
  simp [score?, get?_offer_of_ne h]

/-- What does not improve the chart is no better than what it has. -/
theorem not_improves_iff {score : σ} :
    chart.improves c score = false ↔ chart.Has c score := by
  unfold improves Has
  split <;> simp [*]

theorem le_of_improves [LawfulScore σ] {score old : σ} (hi : chart.improves c score = true)
    (ho : chart.score? c = some old) : old ≤ score ∧ ¬score ≤ old := by
  have hn : ¬score ≤ old := by simpa [improves, ho] using hi
  exact ⟨LawfulScore.le_of_not_le hn, hn⟩

theorem has_offer [LawfulScore σ] (chart : Chart σ) (c : Constituent) (entry : Entry σ) :
    (chart.offer c entry).Has c entry.score := by
  cases hi : chart.improves c entry.score with
  | true => exact Has.of_score? (by simp [score?, get?_offer, hi])
  | false =>
    rw [offer_of_not_improves hi]
    exact not_improves_iff.mp hi

theorem extends_offer [LawfulScore σ] (chart : Chart σ) (c : Constituent) (entry : Entry σ) :
    (chart.offer c entry).Extends chart := by
  intro d score hd
  obtain ⟨s, hs, hle⟩ := hd
  by_cases hc : c = d ∧ chart.improves c entry.score = true
  · obtain ⟨rfl, hi⟩ := hc
    exact ⟨entry.score, by simp [score?, get?_offer, hi],
      Std.le_trans hle (le_of_improves hi hs).1⟩
  · exact ⟨s, by simpa [score?, get?_offer, hc] using hs, hle⟩

theorem extends_offerAll [LawfulScore σ] (chart : Chart σ)
    (offers : List (Constituent × Entry σ)) : (chart.offerAll offers).Extends chart := by
  induction offers generalizing chart with
  | nil => exact .refl chart
  | cons o offers ih => exact (ih (chart.offer o.1 o.2)).trans (extends_offer chart o.1 o.2)

theorem has_offerAll [LawfulScore σ] {offers : List (Constituent × Entry σ)}
    (h : (c, entry) ∈ offers) (chart : Chart σ) : (chart.offerAll offers).Has c entry.score := by
  induction offers generalizing chart with
  | nil => simp at h
  | cons o offers ih =>
    rcases List.mem_cons.mp h with rfl | h
    · exact extends_offerAll _ offers c entry.score (has_offer chart c entry)
    · exact ih h (chart.offer o.1 o.2)

/-- What an offer over the span keeps, a list of them keeps. -/
theorem offerAll_keeps {offers : List (Constituent × Entry σ)} {span : Span}
    (inv : Chart σ → Prop)
    (step : ∀ (chart : Chart σ) c entry, c.span = span → inv chart → inv (chart.offer c entry))
    (hspan : ∀ o ∈ offers, o.1.span = span) (h : inv chart) : inv (chart.offerAll offers) := by
  induction offers generalizing chart with
  | nil => exact h
  | cons o offers ih =>
    obtain ⟨ho, hoffers⟩ := List.forall_mem_cons.mp hspan
    exact ih hoffers (step chart o.1 o.2 ho h)

/-- An offer that the grammar, the lexicon and the chart account for. -/
inductive Licensed [Probability π σ] (grammar : Grammar σ) (lexicon : Lexicon π)
    (sentence : List String) (chart : Chart σ) : Constituent → Entry σ → Prop where
  | tag {i : Nat} {word tag : String} {score : σ}
      (hword : sentence[i]? = some word) (hscore : lexicon.tagScore? word tag = some score) :
      Licensed grammar lexicon sentence chart ⟨tag, ⟨i, i + 1⟩⟩
        ⟨score, .terminal (.word word i)⟩
  | unary {child : Constituent} {score : σ} {rule : UnaryRule σ}
      (hchild : chart.score? child = some score) (hfollows : child.span.Follows score)
      (hrule : rule ∈ grammar.unaryByChild child.label) :
      Licensed grammar lexicon sentence chart ⟨rule.parent, child.span⟩
        ⟨score + rule.score, .unary child⟩
  | binary {i k j : Nat} {rule : BinaryRule σ} {x y : σ}
      (hrule : grammar.HasBinary rule) (hik : i < k) (hkj : k < j)
      (hleft : chart.score? ⟨rule.left, ⟨i, k⟩⟩ = some x)
      (hright : chart.score? ⟨rule.right, ⟨k, j⟩⟩ = some y) :
      Licensed grammar lexicon sentence chart ⟨rule.parent, ⟨i, j⟩⟩
        ⟨x + y + rule.score, .binary ⟨rule.left, ⟨i, k⟩⟩ ⟨rule.right, ⟨k, j⟩⟩⟩

/-- The charts that licensed offers lead to, in any order. -/
inductive Grown [Probability π σ] (grammar : Grammar σ) (lexicon : Lexicon π)
    (sentence : List String) : Chart σ → Prop where
  | empty : Grown grammar lexicon sentence {}
  | offer {chart : Chart σ} {c : Constituent} {entry : Entry σ}
      (grown : Grown grammar lexicon sentence chart)
      (licensed : Licensed grammar lexicon sentence chart c entry) :
      Grown grammar lexicon sentence (chart.offer c entry)

/-- The labels seen over a span are those of its entries. -/
def Coherent (chart : Chart σ) : Prop :=
  ∀ label span, label ∈ chart.seen span ↔ (chart.get? ⟨label, span⟩).isSome = true

theorem Coherent.offer (h : chart.Coherent) (c : Constituent) (entry : Entry σ) :
    (chart.offer c entry).Coherent := by
  intro label span
  cases hi : chart.improves c entry.score with
  | false =>
    rw [offer_of_not_improves hi]
    exact h label span
  | true =>
    rw [offer_of_improves hi, mem_seen_insert, get?_insert, h label span]
    split <;> simp_all

section Grown

variable [Probability π σ] {grammar : Grammar σ} {lexicon : Lexicon π} {sentence : List String}

theorem Grown.coherent (h : Grown grammar lexicon sentence chart) : chart.Coherent := by
  induction h with
  | empty => intro label span; simp [seen]
  | offer _ _ ih => exact ih.offer _ _

/-- What is in a grown chart was offered with licence, at a time when the chart had no more than
it has now. -/
theorem Grown.licensed [LawfulScore σ] (h : Grown grammar lexicon sentence chart)
    (hc : chart.get? c = some entry) :
    ∃ earlier, Grown grammar lexicon sentence earlier ∧ chart.Extends earlier ∧
      Licensed grammar lexicon sentence earlier c entry := by
  induction h generalizing c entry with
  | empty => simp at hc
  | @offer chart d other grown licensed ih =>
    rw [get?_offer] at hc
    split at hc
    · rename_i hd
      obtain ⟨rfl, _⟩ := hd
      obtain rfl := Option.some.inj hc
      exact ⟨chart, grown, extends_offer chart d other, licensed⟩
    · obtain ⟨earlier, hg, he, hl⟩ := ih hc
      exact ⟨earlier, hg, (extends_offer chart d other).trans he, hl⟩

theorem Grown.span_bounds [LawfulScore σ] (h : Grown grammar lexicon sentence chart)
    (hc : (chart.get? c).isSome = true) :
    c.span.start < c.span.stop ∧ c.span.stop ≤ sentence.length := by
  induction h generalizing c with
  | empty => simp at hc
  | @offer chart d other _ licensed ih =>
    rw [get?_offer] at hc
    split at hc
    · rename_i hd
      obtain ⟨rfl, _⟩ := hd
      cases licensed with
      | tag hword _ =>
        obtain ⟨hi, _⟩ := List.getElem?_eq_some_iff.mp hword
        exact ⟨Nat.lt_succ_self _, hi⟩
      | unary hchild _ _ =>
        have hb := ih (isSome_of_score? hchild)
        exact hb
      | binary _ hik hkj _ hright =>
        exact ⟨Nat.lt_trans hik hkj, (ih (isSome_of_score? hright)).2⟩
    · exact ih hc

end Grown

end Chart

end Constituency

import Mathlib.Data.Finset.Card
import Mathlib.Data.Finset.Dedup
import Constituency.Proofs.Closure

/-!
# Rounds of unary rules

A chain of unary rules goes up from an entry that a span has at the start. After some rounds the
span has what the chains of as many rules earn. A chain that comes back to a label is no better than
the one without the detour, so that a span needs no more rounds than it can have labels.
-/

namespace Constituency.Chart

variable {σ : Type} [Score σ] {grammar : Grammar σ} {span : Span} {possibleOnly : Bool}
  {start chart : Chart σ} {label : String} {path : List String} {score : σ} {n : Nat}
  {agenda : Std.TreeSet String}

/-- A chain of unary rules up to a label and what it earns: from an entry of the start over the
labels of the path, of which the last one comes first. -/
inductive Climbs (grammar : Grammar σ) (span : Span) (possibleOnly : Bool) (start : Chart σ) :
    List String → String → σ → Prop where
  | entry {label : String} {score : σ} (hscore : start.score? ⟨label, span⟩ = some score) :
      Climbs grammar span possibleOnly start [label] label score
  | rule {path : List String} {label : String} {score : σ} {rule : UnaryRule σ}
      (below : Climbs grammar span possibleOnly start path label score)
      (hfollowed : (possibleOnly && Score.isImpossible score) = false)
      (hrule : rule ∈ grammar.unaryByChild label) :
      Climbs grammar span possibleOnly start (rule.parent :: path) rule.parent
        (score + rule.score)

theorem Climbs.mem_path (h : Climbs grammar span possibleOnly start path label score) :
    label ∈ path := by
  cases h <;> simp

section Detours

variable [LawfulScore σ]

/-- What is better than a label that is followed is followed, too. -/
theorem followed_of_le {a b : σ} (h : a ≤ b) (ha : (possibleOnly && Score.isImpossible a) = false) :
    (possibleOnly && Score.isImpossible b) = false := by
  cases possibleOnly with
  | false => rfl
  | true => exact LawfulScore.possible_of_le h ha

/-- Up to a label on the way a chain has earned no less. -/
theorem Climbs.exists_below (h : Climbs grammar span possibleOnly start path label score)
    {stop : String} (hstop : stop ∈ path) :
    ∃ path' score', Climbs grammar span possibleOnly start path' stop score' ∧
      path' <:+ path ∧ score ≤ score' := by
  induction h with
  | @entry label score hscore =>
    obtain rfl : stop = label := by simpa using hstop
    exact ⟨[stop], score, .entry hscore, List.suffix_rfl, Std.le_refl score⟩
  | @rule path label score rule below hfollowed hrule ih =>
    rcases List.mem_cons.mp hstop with rfl | hstop
    · exact ⟨_, _, .rule below hfollowed hrule, List.suffix_rfl, Std.le_refl _⟩
    · obtain ⟨path', score', hclimbs, hsuffix, hle⟩ := ih hstop
      exact ⟨path', score', hclimbs, hsuffix.trans (List.suffix_cons _ _),
        Std.le_trans (LawfulScore.add_le_left _ _) hle⟩

/-- A detour does not pay. -/
theorem Climbs.exists_nodup (h : Climbs grammar span possibleOnly start path label score) :
    ∃ path' score', Climbs grammar span possibleOnly start path' label score' ∧
      path'.Nodup ∧ score ≤ score' := by
  induction h with
  | @entry label score hscore =>
    exact ⟨[label], score, .entry hscore, List.nodup_singleton label, Std.le_refl score⟩
  | @rule path label score rule _ hfollowed hrule ih =>
    obtain ⟨path', score', hclimbs, hnodup, hle⟩ := ih
    by_cases hmem : rule.parent ∈ path'
    · obtain ⟨path'', score'', hclimbs', hsuffix, hle'⟩ := hclimbs.exists_below hmem
      refine ⟨path'', score'', hclimbs', hnodup.sublist hsuffix.sublist, ?_⟩
      exact Std.le_trans (LawfulScore.add_le_left _ _) (Std.le_trans hle hle')
    · refine ⟨rule.parent :: path', score' + rule.score,
        .rule hclimbs (followed_of_le hle hfollowed) hrule,
        List.nodup_cons.mpr ⟨hmem, hnodup⟩, ?_⟩
      exact LawfulScore.add_le_add hle (Std.le_refl _)

end Detours

/-- The labels that entries over a span have at the start, and whatever unary rules make of them. -/
structure Encloses (grammar : Grammar σ) (span : Span) (start : Chart σ)
    (labels : Finset String) : Prop where
  entry : ∀ label, (start.get? ⟨label, span⟩).isSome = true → label ∈ labels
  rule : ∀ label ∈ labels, ∀ rule ∈ grammar.unaryByChild label, rule.parent ∈ labels

section Enclosed

variable {labels : Finset String}

theorem Encloses.subset (h : Encloses grammar span start labels)
    (hc : Climbs grammar span possibleOnly start path label score) : ∀ l ∈ path, l ∈ labels := by
  induction hc with
  | entry hscore => simpa using h.entry _ (isSome_of_score? hscore)
  | rule below _ hrule ih =>
    exact List.forall_mem_cons.mpr ⟨h.rule _ (ih _ below.mem_path) _ hrule, ih⟩

/-- A best chain takes no more labels than there are. -/
theorem Encloses.exists_short [LawfulScore σ] (h : Encloses grammar span start labels)
    (hc : Climbs grammar span possibleOnly start path label score) :
    ∃ path' score', Climbs grammar span possibleOnly start path' label score' ∧
      path'.length ≤ labels.card ∧ score ≤ score' := by
  obtain ⟨path', score', hclimbs, hnodup, hle⟩ := hc.exists_nodup
  refine ⟨path', score', hclimbs, ?_, hle⟩
  rw [← List.toFinset_card_of_nodup hnodup]
  exact Finset.card_le_card fun l hl => h.subset hclimbs l (List.mem_toFinset.mp hl)

end Enclosed

/-- Every score over the span is that of a chain. -/
def Climbed (grammar : Grammar σ) (span : Span) (possibleOnly : Bool) (start chart : Chart σ) :
    Prop :=
  ∀ label score, chart.score? ⟨label, span⟩ = some score →
    ∃ path, Climbs grammar span possibleOnly start path label score

theorem Climbed.offer (h : Climbed grammar span possibleOnly start chart) {entry : Entry σ}
    (hc : Climbs grammar span possibleOnly start path label entry.score) :
    Climbed grammar span possibleOnly start (chart.offer ⟨label, span⟩ entry) := by
  intro other score hs
  by_cases hother : (⟨label, span⟩ : Constituent) = ⟨other, span⟩ ∧
      chart.improves ⟨label, span⟩ entry.score = true
  · obtain ⟨hlabel, himproves⟩ := hother
    cases hlabel
    obtain rfl : entry.score = score := by simpa [score?, get?_offer, himproves] using hs
    exact ⟨path, hc⟩
  · rw [score?, get?_offer, if_neg hother] at hs
    exact h other score hs

theorem Climbed.follow {p : Promotion σ} (h : Climbed grammar span possibleOnly start p.chart)
    (label : String) :
    Climbed grammar span possibleOnly start (p.follow grammar span possibleOnly label).chart := by
  rcases follow_cases grammar span possibleOnly p label with he | ⟨score, hs, hfollowed, he⟩
  · rw [he]
    exact h
  · obtain ⟨path, hc⟩ := h label score hs
    have applyAll (rules : List (UnaryRule σ))
        (hrules : ∀ rule ∈ rules, rule ∈ grammar.unaryByChild label) {p : Promotion σ}
        (hp : Climbed grammar span possibleOnly start p.chart) :
        Climbed grammar span possibleOnly start
          (rules.foldl (Promotion.apply ⟨label, span⟩ score) p).chart := by
      induction rules generalizing p with
      | nil => exact hp
      | cons rule rules ih =>
        obtain ⟨hrule, hrules⟩ := List.forall_mem_cons.mp hrules
        refine ih hrules ?_
        rw [chart_apply]
        exact hp.offer (.rule hc hfollowed hrule)
    rw [he]
    exact applyAll _ (fun _ hrule => hrule) h

section Rounds

variable [LawfulScore σ]

/-- A round goes up from every label of its agenda, with what the label has when its turn comes. -/
theorem has_followAll {labels : List String} {p : Promotion σ} {rule : UnaryRule σ}
    (hlabel : label ∈ labels) (hs : p.chart.Has ⟨label, span⟩ score)
    (hfollowed : (possibleOnly && Score.isImpossible score) = false)
    (hrule : rule ∈ grammar.unaryByChild label) :
    (labels.foldl (Promotion.follow grammar span possibleOnly) p).chart.Has ⟨rule.parent, span⟩
      (score + rule.score) := by
  induction labels generalizing p with
  | nil => simp at hlabel
  | cons first labels ih =>
    rcases List.mem_cons.mp hlabel with rfl | hlabel
    · obtain ⟨now, hnow, hle⟩ := hs
      refine followAll_keeps (p := p.follow grammar span possibleOnly label)
        (·.Has ⟨rule.parent, span⟩ (score + rule.score)) ?_ ?_
      · intro p other hp
        exact (Promotion.leads_follow p other).grows _ _ hp
      · rw [follow_of_score? hnow (followed_of_le hle hfollowed), chart_applyAll]
        have hmem := List.mem_map_of_mem (f := fun rule : UnaryRule σ =>
          ((⟨rule.parent, span⟩, ⟨now + rule.score, .unary ⟨label, span⟩⟩) :
            Constituent × Entry σ)) hrule
        exact (has_offerAll hmem p.chart).mono (LawfulScore.add_le_add hle (Std.le_refl _))
    · exact ih hlabel ((Promotion.leads_follow p first).grows _ _ hs)

omit [LawfulScore σ] in
/-- Where all labels are spent, a round changes nothing. -/
theorem promote_of_spent (h : ∀ label, Spent grammar span possibleOnly chart label)
    (agenda : Std.TreeSet String) :
    promote grammar span possibleOnly agenda chart = { chart } := by
  have applyAll (label : String) (score : σ) (rules : List (UnaryRule σ))
      (hrules : ∀ rule ∈ rules, chart.Has ⟨rule.parent, span⟩ (score + rule.score)) :
      rules.foldl (Promotion.apply ⟨label, span⟩ score) { chart } = { chart } := by
    induction rules with
    | nil => rfl
    | cons rule rules ih =>
      obtain ⟨hrule, hrules⟩ := List.forall_mem_cons.mp hrules
      rw [List.foldl_cons, Promotion.apply, if_neg (by simpa using not_improves_iff.mpr hrule)]
      exact ih hrules
  have follow (label : String) :
      Promotion.follow grammar span possibleOnly { chart } label = { chart } := by
    rcases follow_cases grammar span possibleOnly { chart } label with he | ⟨score, hs, hf, he⟩
    · exact he
    · rw [he]
      exact applyAll label score _ (h label score hs hf)
  unfold promote
  induction agenda.toList with
  | nil => rfl
  | cons label labels ih => rw [List.foldl_cons, follow, ih]

/-- A chart after some rounds has what the chains of as many rules earn. -/
structure AfterRounds (grammar : Grammar σ) (span : Span) (possibleOnly : Bool) (start : Chart σ)
    (n : Nat) (agenda : Std.TreeSet String) (chart : Chart σ) : Prop where
  spent : ∀ label, label ∈ agenda ∨ Spent grammar span possibleOnly chart label
  climbed : Climbed grammar span possibleOnly start chart
  has : ∀ path label score, Climbs grammar span possibleOnly start path label score →
    path.length ≤ n + 1 → chart.Has ⟨label, span⟩ score

theorem afterRounds_zero (hc : start.Coherent) :
    AfterRounds grammar span possibleOnly start 0 (start.seen span) start where
  spent label := by
    by_cases hl : label ∈ start.seen span
    · exact .inl hl
    · exact .inr (spent_of_get?_eq_none (by simpa [hc label span] using hl))
  climbed label score hs := ⟨[label], .entry hs⟩
  has path label score hclimbs hlength := by
    cases hclimbs with
    | entry hscore => exact .of_score? hscore
    | rule below =>
      have hpos := List.length_pos_of_mem below.mem_path
      simp only [List.length_cons] at hlength
      omega

theorem AfterRounds.promote (h : AfterRounds grammar span possibleOnly start n agenda chart) :
    AfterRounds grammar span possibleOnly start (n + 1)
      (promote grammar span possibleOnly agenda chart).improved
      (promote grammar span possibleOnly agenda chart).chart where
  spent := spent_promote h.spent
  climbed := followAll_keeps (Climbed grammar span possibleOnly start) (p := { chart })
    (fun _ label hp => hp.follow label) h.climbed
  has path label score hclimbs hlength := by
    have grows : (Chart.promote grammar span possibleOnly agenda chart).chart.Extends chart :=
      followAll_keeps (·.Extends chart) (p := { chart })
        (fun p label hp => (Promotion.leads_follow p label).grows.trans hp) (.refl chart)
    cases hclimbs with
    | entry hscore => exact grows _ _ (h.has _ _ _ (.entry hscore) (by simp))
    | @rule path label score rule below hfollowed hrule =>
      have hbelow := h.has _ _ _ below (by simpa using hlength)
      rcases h.spent label with hl | hspent
      · exact has_followAll (Std.TreeSet.mem_toList.mpr hl) hbelow hfollowed hrule
      · obtain ⟨now, hnow, hle⟩ := hbelow
        have hhas := hspent now hnow (followed_of_le hle hfollowed) rule hrule
        exact grows _ _ (hhas.mono (LawfulScore.add_le_add hle (Std.le_refl _)))

variable {labels : Finset String}

/-- After one round less than there are labels, no rule improves the span any more. -/
theorem AfterRounds.all_spent (h : AfterRounds grammar span possibleOnly start n agenda chart)
    (henclosed : Encloses grammar span start labels) (hn : labels.card ≤ n + 1) (label : String) :
    Spent grammar span possibleOnly chart label := by
  intro score hs hfollowed rule hrule
  obtain ⟨path, hclimbs⟩ := h.climbed label score hs
  obtain ⟨path', score', hclimbs', hlength, hle⟩ :=
    henclosed.exists_short (.rule hclimbs hfollowed hrule)
  exact (h.has path' _ score' hclimbs' (hlength.trans hn)).mono hle

theorem AfterRounds.exists_closeFrom? {rounds : Nat}
    (h : AfterRounds grammar span possibleOnly start n agenda chart)
    (henclosed : Encloses grammar span start labels) (hn : labels.card ≤ n + rounds + 1) :
    ∃ closed, closeFrom? grammar span possibleOnly (rounds + 1) agenda chart = some closed := by
  induction rounds generalizing n agenda chart with
  | zero =>
    simp only [closeFrom?, promote_of_spent (h.all_spent henclosed hn)]
    split <;> exact ⟨chart, by simp⟩
  | succ rounds ih =>
    rw [closeFrom?]
    split
    · exact ⟨chart, rfl⟩
    · exact ih h.promote (by omega)

/-- As many rounds as labels are enough. -/
theorem exists_closeFrom?_of_card_le {rounds : Nat} (hc : start.Coherent)
    (henclosed : Encloses grammar span start labels) (hrounds : labels.card ≤ rounds) :
    ∃ closed,
      closeFrom? grammar span possibleOnly rounds (start.seen span) start = some closed := by
  cases rounds with
  | zero =>
    have hempty : (start.seen span).isEmpty = true := by
      rw [Std.TreeSet.isEmpty_iff_forall_not_mem]
      intro label hl
      have hmem := henclosed.entry label ((hc label span).mp hl)
      simp [Finset.card_eq_zero.mp (Nat.le_zero.mp hrounds)] at hmem
    exact ⟨start, by simp [closeFrom?, hempty]⟩
  | succ rounds => exact (afterRounds_zero hc).exists_closeFrom? henclosed (by omega)

end Rounds

end Constituency.Chart

import Constituency.Proofs.Filling

/-!
# Closing a span under unary rules

While a label waits on the agenda, its parents may lack what the rules make of its present score.
Once no label waits, the rules have nothing more to offer over the span.
-/

namespace Constituency.Chart

variable {σ : Type} [Score σ] [LawfulScore σ] {grammar : Grammar σ} {chart : Chart σ} {span : Span}
  {possibleOnly : Bool} {label : String}

/-- The rules up from a label have nothing more to offer over the span. -/
def Settled (grammar : Grammar σ) (span : Span) (chart : Chart σ) (label : String) : Prop :=
  ∀ score, chart.score? ⟨label, span⟩ = some score → span.Follows score →
    ∀ rule ∈ grammar.unaryByChild label, chart.Has ⟨rule.parent, span⟩ (score + rule.score)

/-- The rules up from a label have nothing more to offer over the span, if the label is followed. -/
def Spent (grammar : Grammar σ) (span : Span) (possibleOnly : Bool) (chart : Chart σ)
    (label : String) : Prop :=
  ∀ score, chart.score? ⟨label, span⟩ = some score →
    (possibleOnly && Score.isImpossible score) = false →
      ∀ rule ∈ grammar.unaryByChild label, chart.Has ⟨rule.parent, span⟩ (score + rule.score)

omit [LawfulScore σ] in
theorem FlagFits.spent_iff (hf : FlagFits span possibleOnly) :
    Spent grammar span possibleOnly chart label ↔ Settled grammar span chart label := by
  simp only [Spent, Settled, hf.follows_iff]

omit [LawfulScore σ] in
theorem spent_of_get?_eq_none (h : chart.get? ⟨label, span⟩ = none) :
    Spent grammar span possibleOnly chart label := by
  intro score hs
  simp [score?, h] at hs

omit [LawfulScore σ] in
/-- Following a label is a list of offers. -/
theorem chart_applyAll (rules : List (UnaryRule σ)) (child : Constituent) (score : σ)
    (p : Promotion σ) : (rules.foldl (Promotion.apply child score) p).chart =
      p.chart.offerAll (rules.map fun rule =>
        (⟨rule.parent, child.span⟩, ⟨score + rule.score, .unary child⟩)) := by
  induction rules generalizing p with
  | nil => rfl
  | cons rule rules ih =>
    rw [List.foldl_cons, ih, chart_apply]
    rfl

section Frames

variable {π : Type} {rounds : Nat} {filled : Chart σ} (inv : Chart σ → Prop)

omit [LawfulScore σ] in
theorem follow_keeps
    (step : ∀ (chart : Chart σ) c entry, c.span = span → inv chart → inv (chart.offer c entry))
    (p : Promotion σ) (label : String) (h : inv p.chart) :
    inv (p.follow grammar span possibleOnly label).chart := by
  rcases follow_cases grammar span possibleOnly p label with he | ⟨score, _, _, he⟩
  · rwa [he]
  · rw [he, chart_applyAll]
    exact offerAll_keeps inv step (by simp) h

omit [LawfulScore σ] in
/-- Closing a span makes offers over that span only. -/
theorem closeFrom?_keeps_offers {agenda : Std.TreeSet String} {closed : Chart σ}
    (step : ∀ (chart : Chart σ) c entry, c.span = span → inv chart → inv (chart.offer c entry))
    (h : inv chart)
    (hclose : closeFrom? grammar span possibleOnly rounds agenda chart = some closed) :
    inv closed :=
  closeFrom?_keeps inv (follow_keeps inv step) h hclose

omit [LawfulScore σ] in
/-- Filling the span of a word makes offers over that span only. -/
theorem fillWord_keeps [Probability π σ] {lexicon : Lexicon π} {word : String} {i : Nat}
    (step : ∀ (chart : Chart σ) c entry, c.span = ⟨i, i + 1⟩ → inv chart →
      inv (chart.offer c entry))
    (h : inv chart) (hfill : chart.fillWord grammar lexicon rounds word i = .ok filled) :
    inv filled := by
  obtain ⟨offers, hoffers, hclose⟩ := fillWord_eq_ok.mp hfill
  refine closeFrom?_keeps_offers inv step ?_ hclose
  apply offerAll_keeps inv step _ h
  intro o ho
  obtain ⟨tag, score, _, rfl⟩ := (mem_tagOffers hoffers).mp ho
  rfl

omit [LawfulScore σ] in
/-- Filling a longer span makes offers over that span only. -/
theorem fillSpan_keeps
    (step : ∀ (chart : Chart σ) c entry, c.span = span → inv chart → inv (chart.offer c entry))
    (h : inv chart) (hfill : chart.fillSpan (π := π) grammar rounds span = .ok filled) :
    inv filled := by
  refine closeFrom?_keeps_offers inv step ?_ (fillSpan_eq_ok.mp hfill)
  rw [combine_eq]
  exact offerAll_keeps inv step (fun _ => span_of_mem_combineOffers) h

end Frames

omit [LawfulScore σ] in
theorem get?_of_fillWord {π : Type} [Probability π σ] {lexicon : Lexicon π} {rounds : Nat}
    {word : String} {i : Nat} {filled : Chart σ}
    (h : chart.fillWord grammar lexicon rounds word i = .ok filled) {d : Constituent}
    (hd : d.span ≠ ⟨i, i + 1⟩) : filled.get? d = chart.get? d := by
  refine fillWord_keeps (fun later => later.get? d = chart.get? d) ?_ rfl h
  intro later c entry hc hlater
  rw [get?_offer_of_span_ne (hc ▸ hd), hlater]

omit [LawfulScore σ] in
theorem get?_of_fillSpan {π : Type} {rounds : Nat} {filled : Chart σ}
    (h : chart.fillSpan (π := π) grammar rounds span = .ok filled) {d : Constituent}
    (hd : d.span ≠ span) : filled.get? d = chart.get? d := by
  refine fillSpan_keeps (fun later => later.get? d = chart.get? d) ?_ rfl h
  intro later c entry hc hlater
  rw [get?_offer_of_span_ne (hc ▸ hd), hlater]

namespace Promotion

variable {p later : Promotion σ}

/-- From a chart within a round to a later one: a label with another score has been noted. -/
structure Leads (span : Span) (p later : Promotion σ) : Prop where
  grows : later.chart.Extends p.chart
  improved : ∀ label ∈ p.improved, label ∈ later.improved
  unchanged : ∀ label, label ∉ later.improved →
    later.chart.score? ⟨label, span⟩ = p.chart.score? ⟨label, span⟩

omit [LawfulScore σ] in
theorem Leads.refl (span : Span) (p : Promotion σ) : Leads span p p :=
  ⟨.refl p.chart, fun _ h => h, fun _ _ => rfl⟩

omit [LawfulScore σ] in
theorem Leads.trans {middle : Promotion σ} (h : Leads span p middle)
    (h' : Leads span middle later) : Leads span p later where
  grows := h'.grows.trans h.grows
  improved label hl := h'.improved label (h.improved label hl)
  unchanged label hl := by
    rw [h'.unchanged label hl]
    exact h.unchanged label fun hm => hl (h'.improved label hm)

theorem leads_apply (child : Constituent) (score : σ) (p : Promotion σ) (rule : UnaryRule σ) :
    Leads child.span p (p.apply child score rule) where
  grows := by
    rw [chart_apply]
    exact extends_offer _ _ _
  improved label hl := by
    simp only [apply]
    split
    · exact Std.TreeSet.mem_insert.mpr (.inr hl)
    · exact hl
  unchanged label hl := by
    rw [chart_apply]
    cases hi : p.chart.improves ⟨rule.parent, child.span⟩ (score + rule.score) with
    | false => rw [offer_of_not_improves hi]
    | true =>
      apply score?_offer_of_ne
      intro he
      obtain rfl : rule.parent = label := congrArg Constituent.label he
      exact hl (by simp [apply, hi])

theorem leads_applyAll (rules : List (UnaryRule σ)) (child : Constituent) (score : σ)
    (p : Promotion σ) : Leads child.span p (rules.foldl (apply child score) p) := by
  induction rules generalizing p with
  | nil => exact .refl _ p
  | cons rule rules ih => exact (leads_apply child score p rule).trans (ih _)

theorem leads_follow (p : Promotion σ) (label : String) :
    Leads span p (p.follow grammar span possibleOnly label) := by
  rcases follow_cases grammar span possibleOnly p label with he | ⟨score, _, _, he⟩
  · rw [he]
    exact .refl span p
  · rw [he]
    exact leads_applyAll _ ⟨label, span⟩ score p

omit [LawfulScore σ] in
/-- A spent label stays spent until its own score improves. -/
theorem Leads.spent (h : Leads span p later) (hp : Spent grammar span possibleOnly p.chart label) :
    label ∈ later.improved ∨ Spent grammar span possibleOnly later.chart label := by
  by_cases hl : label ∈ later.improved
  · exact .inl hl
  · right
    intro score hs hfollowed rule hrule
    apply h.grows
    exact hp score (h.unchanged label hl ▸ hs) hfollowed rule hrule

/-- Following a label spends it, unless one of its own rules improves it. -/
theorem spent_follow (p : Promotion σ) (label : String) :
    label ∈ (p.follow grammar span possibleOnly label).improved ∨
      Spent grammar span possibleOnly (p.follow grammar span possibleOnly label).chart label := by
  by_cases hl : label ∈ (p.follow grammar span possibleOnly label).improved
  · exact .inl hl
  · right
    intro score hs hfollowed rule hrule
    rw [(leads_follow p label).unchanged label hl] at hs
    rw [follow_of_score? hs hfollowed, chart_applyAll]
    have hmem := List.mem_map_of_mem (f := fun rule : UnaryRule σ =>
      ((⟨rule.parent, span⟩, ⟨score + rule.score, .unary ⟨label, span⟩⟩) :
        Constituent × Entry σ)) hrule
    exact has_offerAll hmem p.chart

theorem spent_followAll {labels : List String}
    (h : ∀ label, label ∈ labels ∨ label ∈ p.improved ∨
      Spent grammar span possibleOnly p.chart label) (label : String) :
    label ∈ (labels.foldl (follow grammar span possibleOnly) p).improved ∨
      Spent grammar span possibleOnly (labels.foldl (follow grammar span possibleOnly) p).chart
        label := by
  induction labels generalizing p with
  | nil => simpa using h label
  | cons first labels ih =>
    apply ih
    intro label
    have hleads : Leads span p (p.follow grammar span possibleOnly first) := leads_follow p first
    rcases h label with hl | hl | hl
    · rcases List.mem_cons.mp hl with rfl | hl
      · exact .inr (spent_follow p label)
      · exact .inl hl
    · exact .inr (.inl (hleads.improved label hl))
    · exact .inr (hleads.spent hl)

end Promotion

/-- After a round every label either is on the next agenda or spent. -/
theorem spent_promote {agenda : Std.TreeSet String}
    (h : ∀ label, label ∈ agenda ∨ Spent grammar span possibleOnly chart label) (label : String) :
    label ∈ (promote grammar span possibleOnly agenda chart).improved ∨
      Spent grammar span possibleOnly (promote grammar span possibleOnly agenda chart).chart
        label :=
  Promotion.spent_followAll (p := { chart })
    (fun label => (h label).imp Std.TreeSet.mem_toList.mpr .inr) label

/-- A closure that comes to an end has spent every label that was not spent before. -/
theorem spent_of_closeFrom? {rounds : Nat} {agenda : Std.TreeSet String} {closed : Chart σ}
    (h : ∀ label, label ∈ agenda ∨ Spent grammar span possibleOnly chart label)
    (hc : closeFrom? grammar span possibleOnly rounds agenda chart = some closed)
    (label : String) : Spent grammar span possibleOnly closed label := by
  have done (hempty : agenda.isEmpty = true) : Spent grammar span possibleOnly chart label :=
    (h label).resolve_left (Std.TreeSet.not_mem_of_isEmpty hempty)
  induction rounds generalizing agenda chart with
  | zero =>
    simp only [closeFrom?] at hc
    split at hc
    · obtain rfl := Option.some.inj hc
      exact done ‹_›
    · simp at hc
  | succ rounds ih =>
    simp only [closeFrom?] at hc
    split at hc
    · obtain rfl := Option.some.inj hc
      exact done ‹_›
    · have hround := spent_promote h
      exact ih hround hc fun hempty =>
        (hround label).resolve_left (Std.TreeSet.not_mem_of_isEmpty hempty)

theorem settled_of_closeFrom? (hf : FlagFits span possibleOnly) {rounds : Nat}
    {agenda : Std.TreeSet String} {closed : Chart σ}
    (h : ∀ label, label ∈ agenda ∨ Settled grammar span chart label)
    (hc : closeFrom? grammar span possibleOnly rounds agenda chart = some closed)
    (label : String) : Settled grammar span closed label :=
  hf.spent_iff.mp (spent_of_closeFrom? (fun label => (h label).imp_right hf.spent_iff.mpr) hc label)

theorem extends_of_closeFrom? {rounds : Nat} {agenda : Std.TreeSet String} {closed : Chart σ}
    (h : closeFrom? grammar span possibleOnly rounds agenda chart = some closed) :
    closed.Extends chart :=
  closeFrom?_keeps (fun later => later.Extends chart)
    (fun p label hp => (Promotion.leads_follow p label).grows.trans hp) (.refl chart) h

end Constituency.Chart

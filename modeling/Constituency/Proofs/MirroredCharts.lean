import Constituency.Parser
import Constituency.Proofs.Closure

/-!
# Mirrored charts

A chart of a part of a sentence and the chart of the whole sentence, side by side. What is offered
over a span of the part is offered over the same span further on in the sentence, so that each step
of a fill does the same in both charts; a step outside the part leaves it alone.
-/

namespace Constituency

variable {π σ : Type}

/-- The span that many positions further on. -/
def Span.moved (offset : Nat) (span : Span) : Span :=
  ⟨offset + span.start, offset + span.stop⟩

def Constituent.moved (offset : Nat) (c : Constituent) : Constituent :=
  ⟨c.label, c.span.moved offset⟩

@[simp] theorem Span.moved_inj {offset : Nat} {a b : Span} :
    a.moved offset = b.moved offset ↔ a = b := by
  cases a
  cases b
  simp [moved]

@[simp] theorem Constituent.moved_inj {offset : Nat} {c d : Constituent} :
    c.moved offset = d.moved offset ↔ c = d := by
  cases c
  cases d
  simp [moved]

@[simp] theorem Constituent.label_moved (offset : Nat) (c : Constituent) :
    (c.moved offset).label = c.label := rfl

@[simp] theorem Constituent.span_moved (offset : Nat) (c : Constituent) :
    (c.moved offset).span = c.span.moved offset := rfl

/-- Under every tag the words of `part` have the scores of those that stand in the sentence from a
position on. -/
structure Lexicon.ReadsAlike (lexicon : Lexicon π) (offset : Nat) (part sentence : List String) :
    Prop where
  bound : offset + part.length ≤ sentence.length
  score : ∀ (d : Nat) word word', part[d]? = some word → sentence[offset + d]? = some word' →
    ∀ tag ∈ lexicon.tags, lexicon.score word tag = lexicon.score word' tag

namespace Lexicon.ReadsAlike

variable {offset : Nat} {sentence : List String}

/-- A window reads as itself. -/
theorem window (lexicon : Lexicon π) {size : Nat} (h : offset + size ≤ sentence.length) :
    lexicon.ReadsAlike offset ((sentence.drop offset).take size) sentence where
  bound := by
    simp only [List.length_take, List.length_drop]
    omega
  score d word word' hword hword' tag _ := by
    rw [List.getElem?_take] at hword
    split at hword
    · rw [List.getElem?_drop, hword'] at hword
      rw [Option.some.inj hword]
    · cases hword

/-- No unknown word is told from another. -/
theorem of_unknown [Probability π σ] {counts : TagCounts} {part : List String}
    (hbound : offset + part.length ≤ sentence.length)
    (h : ∀ (d : Nat) word word', part[d]? = some word → sentence[offset + d]? = some word' →
      word = word' ∨ counts.isKnown word = false ∧ counts.isKnown word' = false) :
    (counts.toLexicon π).ReadsAlike offset part sentence where
  bound := hbound
  score d word word' hword hword' tag _ := by
    rcases h d word word' hword hword' with rfl | ⟨hunknown, hunknown'⟩
    · rfl
    · simp [TagCounts.toLexicon, TagCounts.score, TagCounts.estimate, hunknown, hunknown']

end Lexicon.ReadsAlike

/-- The backpointer that stands in the chart of the sentence for one in the chart of its part. -/
inductive Backpointer.Moved (offset : Nat) (part sentence : List String) :
    Backpointer → Backpointer → Prop where
  | terminal {i : Nat} {word word' : String} (hword : part[i]? = some word)
      (hword' : sentence[offset + i]? = some word') :
      Moved offset part sentence (.terminal (.word word i)) (.terminal (.word word' (offset + i)))
  | unary (child : Constituent) : Moved offset part sentence (.unary child)
      (.unary (child.moved offset))
  | binary (left right : Constituent) : Moved offset part sentence (.binary left right)
      (.binary (left.moved offset) (right.moved offset))

structure Entry.Moved (offset : Nat) (part sentence : List String) (entry entry' : Entry σ) :
    Prop where
  score : entry.score = entry'.score
  backpointer : entry.backpointer.Moved offset part sentence entry'.backpointer

namespace Chart

variable {offset : Nat} {part sentence : List String} {chart whole : Chart σ} {c : Constituent}
  {span : Span}

/-- What the chart of the sentence has inside the window, the chart of the part has, too, and
nothing else over the same spans. -/
structure Mirrors (offset : Nat) (part sentence : List String) (chart whole : Chart σ) : Prop where
  get? : ∀ c : Constituent, c.span.stop ≤ part.length →
    Option.Rel (Entry.Moved offset part sentence) (chart.get? c) (whole.get? (c.moved offset))
  seen? : ∀ span : Span, span.stop ≤ part.length →
    chart.seen? span = whole.seen? (span.moved offset)

/-- The chart of the part is that of the sentence inside the window, and nothing besides. -/
structure IsWindow (offset : Nat) (part sentence : List String) (chart whole : Chart σ) : Prop
    extends Mirrors offset part sentence chart whole where
  beyond : ∀ c : Constituent, part.length < c.span.stop →
    chart.get? c = none ∧ chart.seen? c.span = none

theorem mirrors_empty : Mirrors offset part sentence ({} : Chart σ) {} where
  get? c _ := by simp
  seen? span _ := by simp

theorem Mirrors.seen_eq (h : Mirrors offset part sentence chart whole) (span : Span)
    (hspan : span.stop ≤ part.length) : chart.seen span = whole.seen (span.moved offset) := by
  rw [seen, seen, h.seen? span hspan]

theorem Mirrors.score?_eq (h : Mirrors offset part sentence chart whole)
    (hc : c.span.stop ≤ part.length) : chart.score? c = whole.score? (c.moved offset) := by
  have hrel := h.get? c hc
  unfold score?
  generalize chart.get? c = entry at hrel ⊢
  generalize whole.get? (c.moved offset) = entry' at hrel ⊢
  cases hrel with
  | none => rfl
  | some he => simp [he.score]

/-- A constituent of the part and its entry, as they stand in the chart of the sentence. -/
structure Moves (offset : Nat) (part sentence : List String) (o o' : Constituent × Entry σ) :
    Prop where
  inside : o.1.span.stop ≤ part.length
  constituent : o'.1 = o.1.moved offset
  entry : o.2.Moved offset part sentence o'.2

section Steps

theorem Mirrors.insert (h : Mirrors offset part sentence chart whole) {entry entry' : Entry σ}
    (he : entry.Moved offset part sentence entry') : Mirrors offset part sentence
      (chart.insert c entry) (whole.insert (c.moved offset) entry') where
  get? d hd := by
    rw [get?_insert, get?_insert]
    by_cases hcd : c = d
    · simpa [hcd] using Option.Rel.some he
    · simpa [hcd] using h.get? d hd
  seen? span hspan := by
    rw [seen?_insert, seen?_insert]
    by_cases hcs : c.span = span
    · simp [hcs, ← h.seen_eq span hspan]
    · simpa [hcs] using h.seen? span hspan

variable [Score σ]

theorem Mirrors.improves_eq (h : Mirrors offset part sentence chart whole)
    (hc : c.span.stop ≤ part.length) (score : σ) :
    chart.improves c score = whole.improves (c.moved offset) score := by
  rw [improves, improves, h.score?_eq hc]

theorem Mirrors.offer (h : Mirrors offset part sentence chart whole) {entry entry' : Entry σ}
    (hc : c.span.stop ≤ part.length) (he : entry.Moved offset part sentence entry') :
    Mirrors offset part sentence (chart.offer c entry) (whole.offer (c.moved offset) entry') := by
  have hi := h.improves_eq hc entry.score
  rw [he.score] at hi
  unfold Chart.offer
  rw [he.score, hi]
  split
  · exact h.insert he
  · exact h

theorem Mirrors.offerAll (h : Mirrors offset part sentence chart whole)
    {offers offers' : List (Constituent × Entry σ)}
    (ho : List.Forall₂ (Moves offset part sentence) offers offers') :
    Mirrors offset part sentence (chart.offerAll offers) (whole.offerAll offers') := by
  induction ho generalizing chart whole with
  | nil => exact h
  | @cons o o' offers offers' hfirst _ ih =>
    have hstep := h.offer hfirst.inside hfirst.entry
    rw [← hfirst.constituent] at hstep
    exact ih hstep

/-- Over a span that is not within the window, the chart of the sentence may change. -/
theorem Mirrors.offer_outside (h : Mirrors offset part sentence chart whole) {entry : Entry σ}
    (hc : ¬c.span.Within ⟨offset, offset + part.length⟩) :
    Mirrors offset part sentence chart (whole.offer c entry) := by
  have hne (span : Span) (hspan : span.stop ≤ part.length) : span.moved offset ≠ c.span := by
    intro heq
    rw [← heq] at hc
    simp only [Span.Within, Span.moved] at hc
    omega
  constructor
  · intro d hd
    rw [get?_offer_of_span_ne (hne d.span hd)]
    exact h.get? d hd
  · intro span hspan
    rw [seen?_offer_of_ne (hne span hspan)]
    exact h.seen? span hspan

end Steps

section Closure

variable [Score σ] {grammar : Grammar σ} {possibleOnly : Bool} {p p' : Promotion σ}

/-- A round in the chart of the part and the same round in that of the sentence. -/
structure Promotion.Mirrors (offset : Nat) (part sentence : List String) (p p' : Promotion σ) :
    Prop where
  chart : Chart.Mirrors offset part sentence p.chart p'.chart
  improved : p.improved = p'.improved

theorem Promotion.Mirrors.apply (h : Mirrors offset part sentence p p')
    (hc : c.span.stop ≤ part.length) (score : σ) (rule : UnaryRule σ) :
    Mirrors offset part sentence (p.apply c score rule)
      (p'.apply (c.moved offset) score rule) := by
  have hi := h.chart.improves_eq (c := ⟨rule.parent, c.span⟩) hc (score + rule.score)
  simp only [Promotion.apply]
  change Mirrors offset part sentence _ (if p'.chart.improves (Constituent.moved offset
    ⟨rule.parent, c.span⟩) (score + rule.score) = true then _ else p')
  rw [← hi]
  split
  · exact ⟨h.chart.insert ⟨rfl, .unary c⟩, by rw [h.improved]⟩
  · exact h

theorem Promotion.Mirrors.follow (h : Mirrors offset part sentence p p')
    (hspan : span.stop ≤ part.length) (label : String) :
    Mirrors offset part sentence (p.follow grammar span possibleOnly label)
      (p'.follow grammar (span.moved offset) possibleOnly label) := by
  have applyAll (rules : List (UnaryRule σ)) (score : σ) {p p' : Promotion σ}
      (h : Mirrors offset part sentence p p') :
      Mirrors offset part sentence (rules.foldl (Promotion.apply ⟨label, span⟩ score) p)
        (rules.foldl (Promotion.apply ⟨label, span.moved offset⟩ score) p') := by
    induction rules generalizing p p' with
    | nil => exact h
    | cons rule rules ih => exact ih (h.apply (c := ⟨label, span⟩) hspan score rule)
  have hscore : p.chart.score? ⟨label, span⟩ = p'.chart.score? ⟨label, span.moved offset⟩ :=
    h.chart.score?_eq (c := ⟨label, span⟩) hspan
  unfold Promotion.follow
  simp only [hscore]
  cases p'.chart.score? ⟨label, span.moved offset⟩ with
  | none => exact h
  | some score =>
    simp only
    split
    · exact h
    · exact applyAll _ score h

theorem Mirrors.promote (h : Mirrors offset part sentence chart whole)
    (hspan : span.stop ≤ part.length) (agenda : Std.TreeSet String) :
    Promotion.Mirrors offset part sentence (promote grammar span possibleOnly agenda chart)
      (promote grammar (span.moved offset) possibleOnly agenda whole) := by
  have followAll (labels : List String) {p p' : Promotion σ}
      (h : Promotion.Mirrors offset part sentence p p') : Promotion.Mirrors offset part sentence
        (labels.foldl (Promotion.follow grammar span possibleOnly) p)
        (labels.foldl (Promotion.follow grammar (span.moved offset) possibleOnly) p') := by
    induction labels generalizing p p' with
    | nil => exact h
    | cons label labels ih => exact ih (h.follow hspan label)
  exact followAll agenda.toList ⟨h, rfl⟩

theorem Mirrors.closeFrom? (h : Mirrors offset part sentence chart whole)
    (hspan : span.stop ≤ part.length) (rounds : Nat) (agenda : Std.TreeSet String) :
    Option.Rel (Mirrors offset part sentence)
      (closeFrom? grammar span possibleOnly rounds agenda chart)
      (closeFrom? grammar (span.moved offset) possibleOnly rounds agenda whole) := by
  induction rounds generalizing agenda chart whole with
  | zero =>
    rw [Chart.closeFrom?, Chart.closeFrom?]
    split
    · exact .some h
    · exact .none
  | succ rounds ih =>
    rw [Chart.closeFrom?, Chart.closeFrom?]
    split
    · exact .some h
    · have hround : Promotion.Mirrors offset part sentence
          (Chart.promote grammar span possibleOnly agenda chart)
          (Chart.promote grammar (span.moved offset) possibleOnly agenda whole) :=
        h.promote hspan agenda
      simp only [← hround.improved]
      exact ih hround.chart _

/-- Both spans are closed, or both of them take too many rounds. -/
theorem Mirrors.close (h : Mirrors offset part sentence chart whole)
    (hspan : span.stop ≤ part.length) (rounds : Nat) (possibleOnly : Bool) :
    Alike (fun _ _ => True) (Mirrors offset part sentence)
      (chart.close (π := π) grammar rounds span possibleOnly)
      (whole.close (π := π) grammar rounds (span.moved offset) possibleOnly) := by
  have hclosed : Option.Rel (Mirrors offset part sentence)
      (Chart.closeFrom? grammar span possibleOnly rounds (chart.seen span) chart)
      (Chart.closeFrom? grammar (span.moved offset) possibleOnly rounds (chart.seen span) whole) :=
    h.closeFrom? hspan rounds _
  unfold Chart.close
  rw [← h.seen_eq span hspan]
  generalize Chart.closeFrom? grammar span possibleOnly rounds (chart.seen span) chart = closed
    at hclosed ⊢
  generalize Chart.closeFrom? grammar (span.moved offset) possibleOnly rounds (chart.seen span)
    whole = closed' at hclosed ⊢
  cases hclosed with
  | none => exact .error trivial
  | some h => exact .ok h

end Closure

section Fill

variable [Score σ] [Probability π σ] {grammar : Grammar σ} {lexicon : Lexicon π} {rounds : Nat}

omit [Score σ] in
theorem tagOffers_moves (hr : lexicon.ReadsAlike offset part sentence) {i : Nat}
    {word word' : String} (hword : part[i]? = some word)
    (hword' : sentence[offset + i]? = some word') :
    Alike Eq (List.Forall₂ (Moves (σ := σ) offset part sentence)) (tagOffers lexicon word i)
      (tagOffers lexicon word' (offset + i)) := by
  have hscored : lexicon.tags.map (fun tag => (tag, lexicon.score word tag)) =
      lexicon.tags.map (fun tag => (tag, lexicon.score word' tag)) := by
    apply List.map_congr_left
    intro tag htag
    rw [hr.score i word word' hword hword' tag htag]
  unfold tagOffers
  rw [hscored]
  apply Alike.mapM
  intro (tag, p) _
  dsimp only
  cases Probability.score p with
  | error e => exact .error rfl
  | ok score =>
    have hi : i + 1 ≤ part.length := (List.getElem?_eq_some_iff.mp hword).1
    exact .ok ⟨hi, rfl, rfl, .terminal hword hword'⟩

omit [Probability π σ] in
theorem Mirrors.join? (h : Mirrors offset part sentence chart whole) {split : Nat}
    (hspan : span.stop ≤ part.length) (hsplit : split < span.stop) (rule : BinaryRule σ) :
    Option.Rel (Moves offset part sentence) (chart.join? span split rule)
      (whole.join? (span.moved offset) (offset + split) rule) := by
  have hleft := h.score?_eq (c := ⟨rule.left, ⟨span.start, split⟩⟩) (by dsimp; omega)
  have hright := h.score?_eq (c := ⟨rule.right, ⟨split, span.stop⟩⟩) hspan
  simp only [Constituent.moved, Span.moved] at hleft hright
  simp only [Chart.join?, Span.moved, hleft, hright]
  cases whole.score? ⟨rule.left, ⟨offset + span.start, offset + split⟩⟩ with
  | none => exact .none
  | some x =>
    cases whole.score? ⟨rule.right, ⟨offset + split, offset + span.stop⟩⟩ with
    | none => exact .none
    | some y => exact .some ⟨hspan, rfl, rfl, .binary _ _⟩

omit [Probability π σ] in
theorem Mirrors.splitOffers (h : Mirrors offset part sentence chart whole) {split : Nat}
    (hspan : span.stop ≤ part.length) (hsplit : split < span.stop) :
    List.Forall₂ (Moves offset part sentence) (splitOffers grammar chart span split)
      (splitOffers grammar whole (span.moved offset) (offset + split)) := by
  have hleft := h.seen_eq ⟨span.start, split⟩ (by dsimp; omega)
  have hright := h.seen_eq ⟨split, span.stop⟩ hspan
  simp only [Span.moved] at hleft hright
  simp only [Chart.splitOffers, Span.moved, hleft, hright]
  refine List.rel_filterMap (R := Eq) ?_ (List.forall₂_refl _)
  rintro rule _ rfl
  exact h.join? hspan hsplit rule

omit [Probability π σ] in
theorem Mirrors.combine (h : Mirrors offset part sentence chart whole)
    (hspan : span.stop ≤ part.length) : Mirrors offset part sentence
      (chart.combine grammar span) (whole.combine grammar (span.moved offset)) := by
  apply h.offerAll
  let inside (split split' : Nat) : Prop := split < span.stop ∧ split' = offset + split
  refine List.rel_flatMap (R := inside) ?_ ?_
  · have hwidth : (span.moved offset).stop - (span.moved offset).start =
        span.stop - span.start := by
      simp only [Span.moved]
      omega
    rw [hwidth, List.forall₂_map_left_iff, List.forall₂_map_right_iff, List.forall₂_same]
    intro n hn
    have hn := List.mem_range.mp hn
    constructor
    · omega
    · simp only [Span.moved]
      omega
  · rintro split _ ⟨hsplit, rfl⟩
    exact h.splitOffers hspan hsplit

theorem Mirrors.fillWord (hr : lexicon.ReadsAlike offset part sentence)
    (h : Mirrors offset part sentence chart whole) {i : Nat} {word word' : String}
    (hword : part[i]? = some word) (hword' : sentence[offset + i]? = some word') :
    Alike (fun _ _ => True) (Mirrors offset part sentence)
      (chart.fillWord grammar lexicon rounds word i)
      (whole.fillWord grammar lexicon rounds word' (offset + i)) := by
  have hoffers := (tagOffers_moves (σ := σ) hr hword hword').mapError
    (F := fun _ _ => True) (f := FillError.invalidProbability) (g := FillError.invalidProbability)
    fun _ _ _ => trivial
  unfold Chart.fillWord
  apply hoffers.bind
  intro offers offers' ho
  have hi : i + 1 ≤ part.length := (List.getElem?_eq_some_iff.mp hword).1
  exact (h.offerAll ho).close hi rounds true

omit [Probability π σ] in
theorem Mirrors.fillSpan (h : Mirrors offset part sentence chart whole)
    (hspan : span.stop ≤ part.length) : Alike (fun _ _ => True) (Mirrors offset part sentence)
      (chart.fillSpan (π := π) grammar rounds span)
      (whole.fillSpan (π := π) grammar rounds (span.moved offset)) :=
  (h.combine hspan).close hspan rounds false

theorem Mirrors.fillWord_outside (h : Mirrors offset part sentence chart whole) {word : String}
    {i : Nat} {later : Chart σ} (hout : ¬Span.Within ⟨i, i + 1⟩ ⟨offset, offset + part.length⟩)
    (hfill : whole.fillWord grammar lexicon rounds word i = .ok later) :
    Mirrors offset part sentence chart later := by
  refine fillWord_keeps (Mirrors offset part sentence chart) ?_ h hfill
  intro whole c entry hc h
  exact h.offer_outside (hc ▸ hout)

omit [Probability π σ] in
theorem Mirrors.fillSpan_outside (h : Mirrors offset part sentence chart whole) {later : Chart σ}
    (hout : ¬span.Within ⟨offset, offset + part.length⟩)
    (hfill : whole.fillSpan (π := π) grammar rounds span = .ok later) :
    Mirrors offset part sentence chart later := by
  refine fillSpan_keeps (Mirrors offset part sentence chart) ?_ h hfill
  intro whole c entry hc h
  exact h.offer_outside (hc ▸ hout)

end Fill

end Chart

end Constituency

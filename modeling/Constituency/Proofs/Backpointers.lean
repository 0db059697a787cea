import Mathlib.Data.Finset.Card
import Mathlib.Data.List.Dedup
import Constituency.Chart.Derivation
import Constituency.Proofs.Likelihood
import Constituency.Proofs.Points

/-!
# Backpointers

At every point of a fill, the way down along backpointers ends at the words. Within one span it may
go from constituent to constituent with the same score; what comes to an end there is the time at
which their entries were written.
-/

namespace Constituency

def Span.width (span : Span) : Nat :=
  span.stop - span.start

/-- A word at its place in the sentence. -/
def Constituent.IsWordOf (sentence : List String) (c : Constituent) : Prop :=
  ∃ i word, sentence[i]? = some word ∧ c = .word word i

namespace Chart

variable {π σ : Type} {chart : Chart σ} {c d : Constituent}

/-- A part of a constituent, according to its backpointer. -/
def Child (chart : Chart σ) (child parent : Constituent) : Prop :=
  ∃ entry, chart.get? parent = some entry ∧ child ∈ entry.backpointer.children

section Depth

variable {rank : Constituent → Nat}

/-- Further depth adds nothing to a tree that is down at the words. -/
theorem treeTo_succ
    (hrank : ∀ d c, chart.Child d c → (chart.get? d).isSome = true → rank d < rank c) (n : Nat)
    (c : Constituent) (hc : (chart.get? c).isSome = true → rank c < n) :
    chart.treeTo (n + 1) c = chart.treeTo n c := by
  induction n generalizing c with
  | zero =>
    have hn : chart.get? c = none := by
      cases he : chart.get? c with
      | none => rfl
      | some entry => exact absurd (hc (by simp [he])) (Nat.not_lt_zero _)
    simp [treeTo, hn]
  | succ n ih =>
    cases he : chart.get? c with
    | none => simp [treeTo, he]
    | some entry =>
      rw [treeTo, treeTo]
      simp only [he]
      congr 1
      apply List.map_congr_left
      intro d hd
      apply ih
      intro hs
      have hlt := hrank d c ⟨entry, he, hd⟩ hs
      have hle := hc (by simp [he])
      omega

theorem wellFounded_of_rank
    (hrank : ∀ d c, chart.Child d c → (chart.get? d).isSome = true → rank d < rank c) :
    WellFounded chart.Child := by
  let depth (c : Constituent) : Nat := if (chart.get? c).isSome then rank c + 1 else 0
  refine Subrelation.wf ?_ (measure depth).wf
  intro d c h
  obtain ⟨entry, he, _⟩ := id h
  change depth d < depth c
  cases hs : (chart.get? d).isSome with
  | false => simp [depth, hs, he]
  | true =>
    have := hrank d c h hs
    simp [depth, hs, he]
    omega

end Depth

variable [Score σ]

/-- What an entry comes after: an entry over a narrower span, or one over a span of the same width
with a better score, or with the same score if it was written earlier. -/
def Precedes (chart : Chart σ) (time : Constituent → Nat) (d c : Constituent) : Prop :=
  ∃ x y, chart.score? d = some x ∧ chart.score? c = some y ∧
    (d.span.width < c.span.width ∨
      d.span.width = c.span.width ∧ y ≤ x ∧ (x ≤ y → time d < time c))

section Precedes

variable [LawfulScore σ] {time : Constituent → Nat}

theorem Precedes.irrefl (c : Constituent) : ¬chart.Precedes time c c := by
  intro hself
  obtain ⟨x, y, hx, hy, h⟩ := hself
  obtain rfl : x = y := Option.some.inj (hx.symm.trans hy)
  rcases h with h | ⟨_, _, h⟩
  · omega
  · exact Nat.lt_irrefl _ (h (Std.le_refl x))

theorem Precedes.trans {b : Constituent} (h : chart.Precedes time b d)
    (h' : chart.Precedes time d c) : chart.Precedes time b c := by
  obtain ⟨x, y, hx, hy, h⟩ := h
  obtain ⟨y', z, hy', hz, h'⟩ := h'
  obtain rfl : y = y' := Option.some.inj (hy.symm.trans hy')
  refine ⟨x, z, hx, hz, ?_⟩
  rcases h with h | ⟨hw, hyx, ht⟩ <;> rcases h' with h' | ⟨hw', hzy, ht'⟩
  · exact .inl (by omega)
  · exact .inl (by omega)
  · exact .inl (by omega)
  · refine .inr ⟨by omega, Std.le_trans hzy hyx, ?_⟩
    intro hxz
    exact Nat.lt_trans (ht (Std.le_trans hxz hzy)) (ht' (Std.le_trans hyx hxz))

open Classical in
/-- How many entries an entry comes after. -/
noncomputable def rank (chart : Chart σ) (time : Constituent → Nat) (c : Constituent) : Nat :=
  (chart.entries.keys.toFinset.filter (chart.Precedes time · c)).card

theorem rank_lt_rank (h : chart.Precedes time d c) : chart.rank time d < chart.rank time c := by
  classical
  obtain ⟨x, _, hx, _⟩ := id h
  have hd : d ∈ chart.entries.keys.toFinset :=
    List.mem_toFinset.mpr (mem_keys.mpr (isSome_of_score? hx))
  apply Finset.card_lt_card
  constructor
  · intro b hb
    simp only [Finset.mem_filter] at hb ⊢
    exact ⟨hb.1, hb.2.trans h⟩
  · intro hsub
    have hself := hsub (Finset.mem_filter.mpr ⟨hd, h⟩)
    exact Precedes.irrefl d (Finset.mem_filter.mp hself).2

theorem rank_lt_size (hc : (chart.get? c).isSome = true) : chart.rank time c < chart.size := by
  classical
  have hlt : chart.rank time c < chart.entries.keys.toFinset.card := by
    apply Finset.card_lt_card
    refine ⟨Finset.filter_subset _ _, ?_⟩
    intro hsub
    have hkey : c ∈ chart.entries.keys.toFinset := List.mem_toFinset.mpr (mem_keys.mpr hc)
    exact Precedes.irrefl c (Finset.mem_filter.mp (hsub hkey)).2
  have hle := List.toFinset_card_le chart.entries.keys
  rw [Std.TreeMap.length_keys] at hle
  exact Nat.lt_of_lt_of_le hlt hle

end Precedes

/-- Every part of an entry is a word of the sentence or precedes it, where `time` says when an
entry was last written, and all of that was before `now`. -/
structure Timed (sentence : List String) (chart : Chart σ) (time : Constituent → Nat)
    (now : Nat) : Prop where
  before_now : ∀ c, time c < now
  child : ∀ d c, chart.Child d c → d.IsWordOf sentence ∨ chart.Precedes time d c

section Timed

variable [Probability π σ] [LawfulScore σ] {grammar : Grammar σ} {lexicon : Lexicon π}
  {rounds : Nat} {sentence : List String} {time : Constituent → Nat} {now : Nat} {entry : Entry σ}

/-- The parts of a licensed offer that improves the chart are in it, and stay as they are. -/
theorem Licensed.precedes (h : Licensed grammar lexicon sentence chart c entry)
    (hi : chart.improves c entry.score = true) (hd : d ∈ entry.backpointer.children) :
    d.IsWordOf sentence ∨ d ≠ c ∧ ∃ x, chart.score? d = some x ∧
      (d.span.width < c.span.width ∨ d.span.width = c.span.width ∧ entry.score ≤ x) := by
  cases h with
  | @tag i word _ _ hword _ =>
    obtain rfl : d = .word word i := by simpa [Backpointer.children] using hd
    exact .inl ⟨i, word, hword, rfl⟩
  | @unary child score rule hchild _ _ =>
    obtain rfl : d = child := by simpa [Backpointer.children] using hd
    refine .inr ⟨?_, score, hchild, .inr ⟨rfl, LawfulScore.add_le_left _ _⟩⟩
    intro he
    have hc : chart.score? ⟨rule.parent, d.span⟩ = some score := he ▸ hchild
    exact (le_of_improves hi hc).2 (LawfulScore.add_le_left _ _)
  | @binary i k j rule x y _ hik hkj hleft hright =>
    rcases List.mem_pair.mp hd with rfl | rfl
    · refine .inr ⟨?_, x, hleft, .inl (by simp only [Span.width]; omega)⟩
      simp only [ne_eq, Constituent.mk.injEq, Span.mk.injEq]
      omega
    · refine .inr ⟨?_, y, hright, .inl (by simp only [Span.width]; omega)⟩
      simp only [ne_eq, Constituent.mk.injEq, Span.mk.injEq]
      omega

/-- Writing an entry now keeps the parts of all others before them: what points to the constituent
had no better score than it had, and so has a worse one than it gets. -/
theorem Timed.offer (h : Timed sentence chart time now)
    (hl : Licensed grammar lexicon sentence chart c entry) :
    ∃ time now, Timed sentence (chart.offer c entry) time now := by
  cases hi : chart.improves c entry.score with
  | false => exact ⟨time, now, (offer_of_not_improves hi).symm ▸ h⟩
  | true =>
    let time' (d : Constituent) : Nat := if d = c then now else time d
    have htime (d : Constituent) (hd : d ≠ c) : time' d = time d := if_neg hd
    have hnew : (chart.offer c entry).score? c = some entry.score := by
      simp [score?, get?_offer, hi]
    refine ⟨time', now + 1, ?_, ?_⟩
    · intro d
      have := h.before_now d
      by_cases hd : d = c
      · simp [time', hd]
      · simp only [htime d hd]
        omega
    · intro d b hchild
      obtain ⟨e, hb, hd⟩ := hchild
      by_cases hbc : b = c
      · subst hbc
        obtain rfl : entry = e := by simpa [get?_offer, hi] using hb
        rcases hl.precedes hi hd with hword | ⟨hne, x, hx, hlow⟩
        · exact .inl hword
        · refine .inr ⟨x, entry.score, (score?_offer_of_ne hne.symm).trans hx, hnew, ?_⟩
          rcases hlow with hw | ⟨hw, hle⟩
          · exact .inl hw
          · refine .inr ⟨hw, hle, ?_⟩
            intro _
            simpa [time', hne] using h.before_now d
      · rw [get?_offer_of_ne (Ne.symm hbc)] at hb
        have hold := score?_of_get? hb
        have hb' : (chart.offer c entry).score? b = some e.score :=
          (score?_offer_of_ne (Ne.symm hbc)).trans hold
        rcases h.child d b ⟨e, hb, hd⟩ with hword | ⟨x, y, hx, hy, hlow⟩
        · exact .inl hword
        · obtain rfl : y = e.score := Option.some.inj (hy.symm.trans hold)
          right
          by_cases hdc : d = c
          · subst hdc
            obtain ⟨hle, hlt⟩ := le_of_improves hi hx
            refine ⟨entry.score, e.score, hnew, hb', ?_⟩
            rcases hlow with hw | ⟨hw, hyx, _⟩
            · exact .inl hw
            · exact .inr ⟨hw, Std.le_trans hyx hle,
                fun hback => absurd (Std.le_trans hback hyx) hlt⟩
          · refine ⟨x, e.score, (score?_offer_of_ne (Ne.symm hdc)).trans hx, hb', ?_⟩
            rwa [htime d hdc, htime b hbc]

theorem Grown.timed (h : Grown grammar lexicon sentence chart) :
    ∃ time now, Timed sentence chart time now := by
  induction h with
  | empty => exact ⟨fun _ => 0, 1, fun _ => Nat.one_pos, fun d c ⟨_, he, _⟩ => by simp at he⟩
  | offer _ hl ih =>
    obtain ⟨time, now, ht⟩ := ih
    exact ht.offer hl

theorem Grown.word_has_no_entry (h : Grown grammar lexicon sentence chart)
    (hc : c.IsWordOf sentence) : (chart.get? c).isSome = false := by
  obtain ⟨i, word, _, rfl⟩ := hc
  cases hs : (chart.get? (.word word i)).isSome with
  | false => rfl
  | true => exact absurd (h.span_bounds hs).1 (Nat.lt_irrefl i)

theorem Timed.rank_lt_rank (ht : Timed sentence chart time now)
    (h : Grown grammar lexicon sentence chart) (hd : chart.Child d c)
    (hs : (chart.get? d).isSome = true) : chart.rank time d < chart.rank time c := by
  rcases ht.child d c hd with hword | hp
  · simp [h.word_has_no_entry hword] at hs
  · exact Chart.rank_lt_rank hp

theorem Grown.wellFounded_child (h : Grown grammar lexicon sentence chart) :
    WellFounded chart.Child := by
  obtain ⟨time, now, ht⟩ := h.timed
  exact wellFounded_of_rank fun d c hd => ht.rank_lt_rank h hd

theorem Grown.child (h : Grown grammar lexicon sentence chart) (hd : chart.Child d c) :
    (chart.get? d).isSome = true ∨ d.IsWordOf sentence := by
  obtain ⟨time, now, ht⟩ := h.timed
  rcases ht.child d c hd with hword | ⟨x, _, hx, _⟩
  · exact .inr hword
  · exact .inl (isSome_of_score? hx)

/-- The tree over a constituent has the trees over its parts below it: the number of entries is
depth enough for all of them. -/
theorem Grown.tree_eq (h : Grown grammar lexicon sentence chart) (c : Constituent) :
    chart.tree c = match chart.get? c with
      | none => .leaf c.label
      | some entry => .node c.label (entry.backpointer.children.map chart.tree) := by
  obtain ⟨time, now, ht⟩ := h.timed
  rw [tree, ← treeTo_succ (fun d c hd => ht.rank_lt_rank h hd) _ c rank_lt_size, treeTo]
  rfl

/-- What a backpointer leads to is a word of the sentence or has an entry of its own, backpointers
do not lead on for ever, and the tree over a constituent is put together from those over its
parts. -/
structure Founded (sentence : List String) (chart : Chart σ) : Prop where
  child : ∀ d c, chart.Child d c → (chart.get? d).isSome = true ∨ d.IsWordOf sentence
  wellFounded : WellFounded chart.Child
  tree_eq : ∀ c, chart.tree c = match chart.get? c with
    | none => .leaf c.label
    | some entry => .node c.label (entry.backpointer.children.map chart.tree)

/-- Backpointers come to an end at every point of a fill, also of one that fails later on. -/
theorem FillPoint.founded (h : FillPoint grammar lexicon rounds sentence chart) :
    chart.Founded sentence where
  child _ _ hd := h.grown.child hd
  wellFounded := h.grown.wellFounded_child
  tree_eq c := h.grown.tree_eq c

end Timed

section Roundabout

/-- Unary rules of probability one: nothing is lost on the way from `A` back to `A`. -/
def roundabout : Grammar Likelihood where
  unaryByChild label :=
    match label with
    | "T" => [⟨"A", "T", .ofRat 1⟩]
    | "A" => [⟨"A", "A", .ofRat 1⟩, ⟨"B", "A", .ofRat 1⟩]
    | "B" => [⟨"A", "B", .ofRat 1⟩]
    | _ => []
  binaryByLeft _ := []
  binaryByRight _ := []

def oneTag : Lexicon ℚ where
  tags := ["T"]
  score _ _ := 1 / 2

/-- After two rounds there is an entry that leads back, and no round is left to find that it does
not pay. -/
theorem FillPoint.founded_roundabout : ∃ chart,
    FillPoint roundabout oneTag 2 ["w"] chart ∧
      chart.get? ⟨"B", ⟨0, 1⟩⟩ = some ⟨.ofRat (1 / 2), .unary ⟨"A", ⟨0, 1⟩⟩⟩ ∧
      (fill roundabout oneTag 2 ["w"]).isOk = false ∧ chart.Founded ["w"] := by
  have hoffers : tagOffers oneTag "w" 0 =
      .ok [(⟨"T", ⟨0, 1⟩⟩, ⟨.ofRat (1 / 2), .terminal (.word "w" 0)⟩)] := by decide +kernel
  have h : FillPoint roundabout oneTag 2 ["w"] _ :=
    .overWord (show [] ++ [("w", 0)] <+: ["w"].zipIdx by decide) rfl hoffers rfl
      (.later (by decide +kernel) rfl (.now (by decide +kernel) (.label List.prefix_rfl)))
  exact ⟨_, h, by decide +kernel, by decide +kernel, FillPoint.founded h⟩

end Roundabout

end Chart

end Constituency

import Mathlib.Data.Finset.Card
import Mathlib.Data.Finset.Dedup
import Constituency.Proofs.Growth
import Constituency.Proofs.Likelihood

/-!
# Offers to a chart

A chart remembers of every constituent the first of its best offers, and its index of labels stays
in step with its entries. What it remembers thus depends on the offers and on their order, and on
nothing else.
-/

namespace Constituency.Chart

variable {σ : Type} {chart : Chart σ} {c : Constituent} {span : Span} {label : String}

section Index

theorem isSome_get?_iff : (chart.get? c).isSome = true ↔ (chart.score? c).isSome = true := by
  cases h : chart.get? c <;> simp [Chart.score?, h]

/-- The labels seen over a span are those of its entries, and none of the spans is without any. -/
structure Indexed (chart : Chart σ) : Prop where
  coherent : chart.Coherent
  nonempty : ∀ span labels, chart.seen? span = some labels → ∃ label, label ∈ labels

theorem indexed_empty : ({} : Chart σ).Indexed where
  coherent label span := by simp [seen]
  nonempty span labels h := by simp at h

theorem Indexed.mem_seen_iff (h : chart.Indexed) :
    label ∈ chart.seen span ↔ (chart.score? ⟨label, span⟩).isSome = true :=
  (h.coherent label span).trans isSome_get?_iff

theorem Indexed.seen?_eq_none_iff (h : chart.Indexed) :
    chart.seen? span = none ↔ ∀ label, chart.get? ⟨label, span⟩ = none := by
  simp only [← Option.not_isSome_iff_eq_none (o := chart.get? _), ← h.coherent _ span, seen]
  cases hs : chart.seen? span with
  | none => simp
  | some labels =>
    obtain ⟨label, hl⟩ := h.nonempty span labels hs
    simp only [reduceCtorEq, Option.getD_some, false_iff, not_forall, not_not]
    exact ⟨label, hl⟩

/-- All labels seen, as constituents. -/
def indexed (chart : Chart σ) : List Constituent :=
  chart.labels.toList.flatMap fun seen => seen.2.toList.map (⟨·, seen.1⟩)

theorem mem_indexed : c ∈ chart.indexed ↔ c.label ∈ chart.seen c.span := by
  obtain ⟨label, span⟩ := c
  simp only [indexed, List.mem_flatMap, List.mem_map, Std.TreeSet.mem_toList, Prod.exists,
    Std.TreeMap.mem_toList_iff_getElem?_eq_some, Constituent.mk.injEq, seen, seen?]
  constructor
  · rintro ⟨_, labels, hlabels, _, hl, rfl, rfl⟩
    simpa [hlabels] using hl
  · intro hl
    cases hlabels : chart.labels[span]? with
    | none => simp [hlabels] at hl
    | some labels => exact ⟨span, labels, hlabels, label, by simpa [hlabels] using hl, rfl, rfl⟩

theorem nodup_indexed : chart.indexed.Nodup := by
  refine List.nodup_flatMap.mpr ⟨?_, ?_⟩
  · intro seen _
    refine List.Nodup.map (fun a b h => congrArg Constituent.label h) ?_
    exact Std.TreeSet.distinct_toList.imp fun h heq => h (Std.compare_eq_iff_eq.mpr heq)
  · refine Std.TreeMap.distinct_keys_toList.imp fun hspan => ?_
    intro c hc hc'
    obtain ⟨_, -, rfl⟩ := List.mem_map.mp hc
    obtain ⟨_, -, heq⟩ := List.mem_map.mp hc'
    exact hspan (Std.compare_eq_iff_eq.mpr (congrArg Constituent.span heq).symm)

theorem length_indexed :
    chart.labels.foldl (fun n _ labels => n + labels.size) 0 = chart.indexed.length := by
  have count (l : List (Span × Std.TreeSet String)) (n : Nat) :
      l.foldl (fun n seen => n + seen.2.size) n =
        n + (l.flatMap fun seen => seen.2.toList.map (Constituent.mk · seen.1)).length := by
    induction l generalizing n with
    | nil => rfl
    | cons seen l ih =>
      simp only [List.foldl_cons, ih, List.flatMap_cons, List.length_append, List.length_map,
        Std.TreeSet.length_toList]
      omega
  rw [Std.TreeMap.foldl_eq_foldl_toList, count, indexed, Nat.zero_add]

/-- What the check compares: there are as many labels as entries, and every entry is indexed. -/
theorem isCoherent_eq_true_iff : chart.isCoherent = true ↔
    chart.indexed.length = chart.entries.keys.length ∧ chart.entries.keys ⊆ chart.indexed := by
  rw [Chart.isCoherent, Bool.and_eq_true, beq_iff_eq, List.all_eq_true, length_indexed,
    ← Std.TreeMap.length_keys]
  refine and_congr_right fun _ => forall_congr' fun c => imp_congr_right fun _ => ?_
  rw [mem_indexed, seen]
  cases chart.seen? c.span <;> simp

/-- The check of a chart passes if the index is in step: then there are as many labels as entries,
since both list the same constituents. -/
theorem Coherent.isCoherent (h : chart.Coherent) : chart.isCoherent = true := by
  have hmem (c : Constituent) : c ∈ chart.indexed ↔ c ∈ chart.entries.keys := by
    rw [mem_indexed, h, mem_keys]
  have hperm : chart.indexed.Perm chart.entries.keys :=
    (List.perm_ext_iff_of_nodup nodup_indexed Std.TreeMap.nodup_keys).mpr hmem
  exact isCoherent_eq_true_iff.mpr ⟨hperm.length_eq, hperm.symm.subset⟩

/-- Neither list repeats a constituent, so the entries leave none of the labels over. -/
theorem coherent_of_isCoherent (h : chart.isCoherent = true) : chart.Coherent := by
  obtain ⟨hlength, hsubset⟩ := isCoherent_eq_true_iff.mp h
  have hsubperm : chart.entries.keys.Subperm chart.indexed :=
    List.subperm_of_subset Std.TreeMap.nodup_keys hsubset
  have hperm : chart.entries.keys.Perm chart.indexed := hsubperm.perm_of_length_le hlength.le
  intro label span
  rw [← mem_keys, hperm.mem_iff, mem_indexed]

/-- The check decides whether two maps agree, whatever they are: a label is in the set of a span
exactly if the constituent has an entry. -/
theorem isCoherent_iff (entries : Std.TreeMap Constituent (Entry σ))
    (labels : Std.TreeMap Span (Std.TreeSet String)) :
    ({ entries, labels } : Chart σ).isCoherent = true ↔
      ∀ (label : String) (span : Span), (∃ seen, labels[span]? = some seen ∧ label ∈ seen) ↔
        (⟨label, span⟩ : Constituent) ∈ entries := by
  have hseen (label : String) (span : Span) :
      label ∈ ({ entries, labels } : Chart σ).seen span ↔
        ∃ seen, labels[span]? = some seen ∧ label ∈ seen := by
    rw [seen, seen?]
    cases labels[span]? <;> simp
  have hentry (c : Constituent) :
      (({ entries, labels } : Chart σ).get? c).isSome = true ↔ c ∈ entries := by
    rw [get?, Std.TreeMap.isSome_getElem?_iff_mem]
  calc ({ entries, labels } : Chart σ).isCoherent = true
    _ ↔ Coherent { entries, labels } := ⟨coherent_of_isCoherent, Coherent.isCoherent⟩
    _ ↔ _ := forall_congr' fun label => forall_congr' fun span =>
        iff_congr (hseen label span) (hentry ⟨label, span⟩)

end Index

variable [Score σ] {offers : List (Constituent × Entry σ)} {entry : Entry σ}

theorem Indexed.offer (h : chart.Indexed) (c : Constituent) (entry : Entry σ) :
    (chart.offer c entry).Indexed where
  coherent := h.coherent.offer c entry
  nonempty span labels hs := by
    cases hi : chart.improves c entry.score with
    | false =>
      rw [offer_of_not_improves hi] at hs
      exact h.nonempty span labels hs
    | true =>
      rw [offer_of_improves hi, seen?_insert] at hs
      split at hs
      · obtain rfl := Option.some.inj hs
        exact ⟨c.label, Std.TreeSet.mem_insert_self⟩
      · exact h.nonempty span labels hs

theorem Coherent.offerAll (h : chart.Coherent) : (chart.offerAll offers).Coherent := by
  induction offers generalizing chart with
  | nil => exact h
  | cons o offers ih => exact ih (h.offer o.1 o.2)

theorem Indexed.offerAll (h : chart.Indexed) : (chart.offerAll offers).Indexed := by
  induction offers generalizing chart with
  | nil => exact h
  | cons o offers ih => exact ih (h.offer o.1 o.2)

theorem offerAll_concat (chart : Chart σ) (offers : List (Constituent × Entry σ))
    (o : Constituent × Entry σ) :
    chart.offerAll (offers ++ [o]) = (chart.offerAll offers).offer o.1 o.2 := by
  simp [Chart.offerAll]

variable [LawfulScore σ]

/-- After some offers a constituent has the best score that it had or was offered. -/
theorem score?_offerAll_eq_some_iff {score : σ} :
    (chart.offerAll offers).score? c = some score ↔
      IsGreatest {s | chart.score? c = some s ∨ ∃ entry, (c, entry) ∈ offers ∧ entry.score = s}
        score := by
  have hbound (s : σ) (hs : chart.score? c = some s ∨
      ∃ entry, (c, entry) ∈ offers ∧ entry.score = s) : (chart.offerAll offers).Has c s := by
    rcases hs with hs | ⟨entry, hentry, rfl⟩
    · exact extends_offerAll chart offers c s (.of_score? hs)
    · exact has_offerAll hentry chart
  have hmem (s : σ) (hs : (chart.offerAll offers).score? c = some s) :
      chart.score? c = some s ∨ ∃ entry, (c, entry) ∈ offers ∧ entry.score = s := by
    clear hbound
    induction offers generalizing chart with
    | nil => exact .inl hs
    | cons o offers ih =>
      rcases ih hs with hs | ⟨entry, hentry, rfl⟩
      · by_cases ho : o.1 = c ∧ chart.improves o.1 o.2.score = true
        · obtain ⟨rfl, hi⟩ := ho
          have hs : o.2.score = s := by simpa [Chart.score?, get?_offer, hi] using hs
          exact .inr ⟨o.2, List.mem_cons_self, hs⟩
        · rw [Chart.score?, get?_offer, if_neg ho] at hs
          exact .inl hs
      · exact .inr ⟨entry, List.mem_cons_of_mem o hentry, rfl⟩
  constructor
  · intro hs
    refine ⟨hmem score hs, ?_⟩
    intro s h
    exact (hbound s h).le hs
  · intro h
    obtain ⟨s, hs, hle⟩ := hbound score h.1
    rw [hs, Std.le_antisymm hle (h.2 (hmem s hs))]

/-- The same offers in any order make the same scores. -/
theorem score?_offerAll_congr {chart' : Chart σ} {offers' : List (Constituent × Entry σ)}
    (hscore : chart.score? c = chart'.score? c) (ho : ∀ o, o ∈ offers ↔ o ∈ offers') :
    (chart.offerAll offers).score? c = (chart'.offerAll offers').score? c := by
  apply Option.ext
  intro score
  rw [score?_offerAll_eq_some_iff, score?_offerAll_eq_some_iff]
  simp only [hscore, ho]

section FirstBest

/-- The first of the best offers of a constituent: those before it are worse, and those after it
are no better. -/
def FirstBest (offers : List (Constituent × Entry σ)) (c : Constituent) (entry : Entry σ) : Prop :=
  ∃ before after, offers = before ++ (c, entry) :: after ∧
    (∀ e, (c, e) ∈ before → ¬entry.score ≤ e.score) ∧ ∀ e, (c, e) ∈ after → e.score ≤ entry.score

omit [LawfulScore σ] in
theorem FirstBest.mem (h : FirstBest offers c entry) : (c, entry) ∈ offers := by
  obtain ⟨before, after, rfl, -, -⟩ := h
  simp

theorem FirstBest.le (h : FirstBest offers c entry) {e : Entry σ} (he : (c, e) ∈ offers) :
    e.score ≤ entry.score := by
  obtain ⟨before, after, rfl, hbefore, hafter⟩ := h
  rcases List.mem_append.mp he with he | he
  · exact LawfulScore.le_of_not_le (hbefore e he)
  · rcases List.mem_cons.mp he with he | he
    · obtain ⟨-, rfl⟩ := Prod.mk.inj he
      exact Std.le_refl _
    · exact hafter e he

omit [LawfulScore σ] in
/-- One more offer comes last: it is the first best if it beats all others, and otherwise it must
not beat the one that is. -/
theorem firstBest_concat {o : Constituent × Entry σ} : FirstBest (offers ++ [o]) c entry ↔
    o = (c, entry) ∧ (∀ e, (c, e) ∈ offers → ¬entry.score ≤ e.score) ∨
      FirstBest offers c entry ∧ (o.1 = c → o.2.score ≤ entry.score) := by
  constructor
  · rintro ⟨before, after, heq, hbefore, hafter⟩
    rcases List.eq_nil_or_concat after with rfl | ⟨rest, last, rfl⟩
    · obtain ⟨rfl, hlast⟩ := List.append_inj' heq rfl
      obtain rfl : o = (c, entry) := by simpa using hlast
      exact .inl ⟨rfl, hbefore⟩
    · rw [List.concat_eq_append] at heq hafter
      obtain ⟨rfl, hlast⟩ := List.append_inj' (heq.trans (List.append_assoc _ (_ :: _) _).symm) rfl
      obtain rfl : o = last := by simpa using hlast
      refine .inr ⟨⟨before, rest, rfl, hbefore, ?_⟩, ?_⟩
      · intro e he
        exact hafter e (List.mem_append_left _ he)
      · rintro rfl
        exact hafter o.2 (by simp)
  · rintro (⟨rfl, hbest⟩ | ⟨⟨before, after, rfl, hbefore, hafter⟩, ho⟩)
    · exact ⟨offers, [], rfl, hbest, by simp⟩
    · refine ⟨before, after ++ [o], by simp, hbefore, ?_⟩
      intro e he
      rcases List.mem_append.mp he with he | he
      · exact hafter e he
      · obtain rfl : (c, e) = o := by simpa using he
        exact ho rfl

/-- A new constituent improves until an offer of it is no worse. -/
theorem improves_offerAll_iff (h : chart.get? c = none) {score : σ} :
    (chart.offerAll offers).improves c score = true ↔
      ∀ e, (c, e) ∈ offers → ¬score ≤ e.score := by
  have hhas : (chart.offerAll offers).Has c score ↔ ∃ e, (c, e) ∈ offers ∧ score ≤ e.score := by
    constructor
    · rintro ⟨s, hs, hle⟩
      rcases (score?_offerAll_eq_some_iff.mp hs).1 with hs | ⟨e, he, rfl⟩
      · simp [Chart.score?, h] at hs
      · exact ⟨e, he, hle⟩
    · rintro ⟨e, he, hle⟩
      exact (has_offerAll he chart).mono hle
  rw [← Bool.not_eq_false, not_improves_iff, hhas]
  simp only [not_exists, not_and]

/-- A new constituent gets the first of its best offers. -/
theorem get?_offerAll_eq_some_iff (h : chart.get? c = none) :
    (chart.offerAll offers).get? c = some entry ↔ FirstBest offers c entry := by
  induction offers using List.reverseRecOn generalizing entry with
  | nil => simp [Chart.offerAll, h, FirstBest]
  | append_singleton offers o ih =>
    obtain ⟨d, last⟩ := o
    rw [offerAll_concat, get?_offer, firstBest_concat, Prod.mk.injEq]
    by_cases hd : c = d
    · subst hd
      have himproves : (chart.offerAll offers).improves c last.score = true ↔
          ∀ e, (c, e) ∈ offers → ¬last.score ≤ e.score := improves_offerAll_iff h
      by_cases hi : (chart.offerAll offers).improves c last.score = true
      · rw [if_pos ⟨rfl, hi⟩, Option.some.injEq]
        constructor
        · rintro rfl
          exact .inl ⟨⟨rfl, rfl⟩, himproves.mp hi⟩
        · rintro (⟨⟨-, rfl⟩, -⟩ | ⟨hbest, hle⟩)
          · rfl
          · exact absurd (hle rfl) (himproves.mp hi entry hbest.mem)
      · rw [if_neg fun hoffer => hi hoffer.2, ih]
        constructor
        · intro hbest
          obtain ⟨e, he, hle⟩ : ∃ e, (c, e) ∈ offers ∧ last.score ≤ e.score := by
            simpa [himproves] using hi
          exact .inr ⟨hbest, fun _ => Std.le_trans hle (hbest.le he)⟩
        · rintro (⟨⟨-, rfl⟩, hbest⟩ | ⟨hbest, -⟩)
          · exact absurd (himproves.mpr hbest) hi
          · exact hbest
    · rw [if_neg fun hoffer => hd hoffer.1.symm, ih]
      simp [Ne.symm hd]

/-- Among offers with sources in ascending order, the first of the best ones comes from the least
of the sources that offer the best. -/
theorem firstBest_map_snd_iff {α : Type} {R : α → α → Prop}
    {sourced : List (α × (Constituent × Entry σ))} (asymm : ∀ a b, R a b → ¬R b a)
    (hsourced : sourced.Pairwise fun x y => R x.1 y.1) :
    FirstBest (sourced.map Prod.snd) c entry ↔ ∃ a, (a, (c, entry)) ∈ sourced ∧
      ∀ b e, (b, (c, e)) ∈ sourced →
        e.score ≤ entry.score ∧ (entry.score ≤ e.score → a = b ∨ R a b) := by
  constructor
  · intro hbest
    obtain ⟨before, after, heq, hbefore, -⟩ := id hbest
    obtain ⟨first, _, rfl, rfl, hrest⟩ := List.map_eq_append_iff.mp heq
    obtain ⟨⟨a, _⟩, rest, rfl, rfl, rfl⟩ := List.map_eq_cons_iff.mp hrest
    refine ⟨a, by simp, fun b e hb => ⟨hbest.le (List.mem_map_of_mem hb), fun hle => ?_⟩⟩
    rcases List.mem_append.mp hb with hb | hb
    · exact absurd hle (hbefore e (List.mem_map_of_mem hb))
    · rcases List.mem_cons.mp hb with hb | hb
      · exact .inl (congrArg Prod.fst hb).symm
      · have hrest := (List.pairwise_append.mp hsourced).2.1
        exact .inr ((List.pairwise_cons.mp hrest).1 _ hb)
  · rintro ⟨a, ha, hbest⟩
    obtain ⟨first, rest, rfl⟩ := List.append_of_mem ha
    refine ⟨first.map Prod.snd, rest.map Prod.snd, by simp, ?_, ?_⟩
    · intro e he hle
      obtain ⟨⟨b, _⟩, hb, rfl⟩ := List.mem_map.mp he
      have hba : R b a := (List.pairwise_append.mp hsourced).2.2 _ hb _ List.mem_cons_self
      rcases (hbest b e (List.mem_append_left _ hb)).2 hle with rfl | hab
      · exact asymm a a hba hba
      · exact asymm a b hab hba
    · intro e he
      obtain ⟨⟨b, _⟩, hb, rfl⟩ := List.mem_map.mp he
      exact (hbest b e (List.mem_append_right _ (List.mem_cons_of_mem _ hb))).1

end FirstBest

section Remembered

/-- Exactly the offered constituents have entries. -/
theorem isSome_get?_offerAll_iff :
    ((({} : Chart σ).offerAll offers).get? c).isSome = true ↔ c ∈ offers.map Prod.fst := by
  rw [List.mem_map]
  constructor
  · intro hsome
    obtain ⟨entry, hentry⟩ := Option.isSome_iff_exists.mp hsome
    exact ⟨(c, entry), ((get?_offerAll_eq_some_iff get?_empty).mp hentry).mem, rfl⟩
  · rintro ⟨⟨d, entry⟩, ho, rfl⟩
    obtain ⟨score, hscore, -⟩ := has_offerAll ho ({} : Chart σ)
    exact isSome_of_score? hscore

omit [LawfulScore σ] in
theorem indexed_offerAll : (({} : Chart σ).offerAll offers).Indexed :=
  indexed_empty.offerAll

theorem mem_of_seen?_offerAll {labels : Std.TreeSet String}
    (h : (({} : Chart σ).offerAll offers).seen? span = some labels) :
    label ∈ labels.toList ↔ ⟨label, span⟩ ∈ offers.map Prod.fst := by
  have hcoherent : label ∈ (({} : Chart σ).offerAll offers).seen span ↔
      ((({} : Chart σ).offerAll offers).get? ⟨label, span⟩).isSome = true :=
    indexed_offerAll.coherent label span
  rw [seen, h, Option.getD_some] at hcoherent
  rw [Std.TreeSet.mem_toList, hcoherent, isSome_get?_offerAll_iff]

theorem size_offerAll :
    (({} : Chart σ).offerAll offers).size = (offers.map Prod.fst).toFinset.card := by
  have hkeys : (({} : Chart σ).offerAll offers).entries.keys.toFinset =
      (offers.map Prod.fst).toFinset := by
    ext c
    rw [List.mem_toFinset, List.mem_toFinset, mem_keys, isSome_get?_offerAll_iff]
  rw [← hkeys, List.toFinset_card_of_nodup Std.TreeMap.nodup_keys, Std.TreeMap.length_keys, size]

/-- What a chart remembers of any offers that it had. An offer improved the chart if no earlier one
of the same constituent was as good. Of every offered constituent, and of no other, the chart has
the first of its best offers. The labels seen over a span are those offered over it, in ascending
order, and a span without offers has none. There are as many entries as constituents were offered,
and the check of the chart passes after every offer. -/
theorem offerAll_remembers (offers : List (Constituent × Entry σ)) :
    (∀ before c entry after, offers = before ++ (c, entry) :: after →
      ((({} : Chart σ).offerAll before).improves c entry.score = true ↔
        ∀ e, (c, e) ∈ before → ¬entry.score ≤ e.score)) ∧
    (∀ c, ((({} : Chart σ).offerAll offers).get? c).isSome = true ↔ c ∈ offers.map Prod.fst) ∧
    (∀ c entry, (({} : Chart σ).offerAll offers).get? c = some entry ↔
      FirstBest offers c entry) ∧
    (∀ span, (({} : Chart σ).offerAll offers).seen? span = none ↔
      ∀ c ∈ offers.map Prod.fst, c.span ≠ span) ∧
    (∀ span labels, (({} : Chart σ).offerAll offers).seen? span = some labels →
      labels.toList.Pairwise (· < ·) ∧
        ∀ label, label ∈ labels.toList ↔ ⟨label, span⟩ ∈ offers.map Prod.fst) ∧
    (({} : Chart σ).offerAll offers).size = (offers.map Prod.fst).toFinset.card ∧
    ∀ before, before <+: offers → (({} : Chart σ).offerAll before).isCoherent = true := by
  refine ⟨?improves, fun c => isSome_get?_offerAll_iff,
    fun c entry => get?_offerAll_eq_some_iff get?_empty, ?unseen, ?seen, size_offerAll, ?check⟩
  case improves =>
    intro before c entry after _
    exact improves_offerAll_iff get?_empty
  case unseen =>
    intro span
    simp only [indexed_offerAll.seen?_eq_none_iff, ← Option.not_isSome_iff_eq_none,
      isSome_get?_offerAll_iff]
    constructor
    · rintro hnone ⟨label, other⟩ hc rfl
      exact hnone label hc
    · intro hne label hc
      exact hne _ hc rfl
  case seen =>
    intro span labels hlabels
    refine ⟨?_, fun label => mem_of_seen?_offerAll hlabels⟩
    have hordered : labels.toList.Pairwise (compare · · = .lt) := Std.TreeSet.ordered_toList
    exact hordered.imp fun h => compareOfLessAndEq_eq_lt.mp h
  case check =>
    intro before _
    exact indexed_offerAll.coherent.isCoherent

end Remembered

section Tied

/-- Over a word, a noun phrase is offered four times, and twice it is as good as it gets. -/
def tiedOffers : List (Constituent × Entry Likelihood) :=
  [(⟨"NP", ⟨0, 1⟩⟩, ⟨.ofRat (1 / 4), .unary ⟨"NN", ⟨0, 1⟩⟩⟩),
    (⟨"NP", ⟨0, 1⟩⟩, ⟨.ofRat (1 / 2), .terminal (.word "dogs" 0)⟩),
    (⟨"S", ⟨0, 1⟩⟩, ⟨.ofRat (1 / 8), .unary ⟨"NP", ⟨0, 1⟩⟩⟩),
    (⟨"NP", ⟨0, 1⟩⟩, ⟨.ofRat (1 / 2), .unary ⟨"NNS", ⟨0, 1⟩⟩⟩),
    (⟨"NP", ⟨0, 1⟩⟩, ⟨.ofRat (1 / 8), .unary ⟨"S", ⟨0, 1⟩⟩⟩)]

theorem offerAll_remembers_tied :
    (({} : Chart Likelihood).offerAll tiedOffers).get? ⟨"NP", ⟨0, 1⟩⟩ =
      some ⟨.ofRat (1 / 2), .terminal (.word "dogs" 0)⟩ ∧
    (({} : Chart Likelihood).offerAll tiedOffers).size = 2 ∧
    (({} : Chart Likelihood).offerAll tiedOffers).isCoherent = true := by
  obtain ⟨-, -, hbest, -, -, hsize, hcheck⟩ := offerAll_remembers tiedOffers
  have hbefore : ∀ o ∈ tiedOffers.take 1, ¬Likelihood.ofRat (1 / 2) ≤ o.2.score := by
    decide +kernel
  have hafter : ∀ o ∈ tiedOffers.drop 2, o.2.score ≤ Likelihood.ofRat (1 / 2) := by
    decide +kernel
  have hfirst : FirstBest tiedOffers ⟨"NP", ⟨0, 1⟩⟩
      ⟨.ofRat (1 / 2), .terminal (.word "dogs" 0)⟩ :=
    ⟨tiedOffers.take 1, tiedOffers.drop 2, rfl, fun _ he => hbefore _ he, fun _ he => hafter _ he⟩
  have hcard : (tiedOffers.map Prod.fst).toFinset.card = 2 := by decide +kernel
  exact ⟨(hbest _ _).mpr hfirst, hsize.trans hcard, hcheck tiedOffers List.prefix_rfl⟩

end Tied

end Constituency.Chart

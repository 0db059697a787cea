import Mathlib.Algebra.BigOperators.Group.List.Lemmas
import Constituency.Model
import Constituency.Proofs.Shares

/-!
# Tables in any order

A hash table lists its entries in an order of its own. Here a model is trained from tables that
list them in any order. That makes no difference: rules are sorted before they are added, and what
is counted, summed or collected again does not depend on the order.
-/

namespace Constituency

section Tables

variable {α β : Type}

/-- An order in which lists are gone through. -/
structure Shuffle (α : Type) where
  apply : List α → List α
  perm (l : List α) : (apply l).Perm l

/-- The table that the entries of a table are collected in. -/
def Shuffle.collect [Ord α] (order : Shuffle (α × β)) (table : Std.TreeMap α β) :
    Std.TreeMap α β :=
  .ofList (order.apply table.toList)

/-- The counts of a table together. -/
def Shuffle.total [Ord α] (order : Shuffle (α × Nat)) (table : Std.TreeMap α Nat) : Nat :=
  ((order.apply table.toList).map Prod.snd).sum

/-- Entries are sorted by key and then by count. -/
def comesFirst [Ord α] (a b : α × Nat) : Bool :=
  (compareLex (compareOn Prod.fst) (compareOn Prod.snd) a b).isLE

/-- The entries of a table in ascending order. -/
def Shuffle.sorted [Ord α] (order : Shuffle (α × Nat)) (table : Std.TreeMap α Nat) :
    List (α × Nat) :=
  (order.apply table.toList).mergeSort comesFirst

variable [Ord α] [Std.TransOrd α]

theorem comesFirst_trans (a b c : α × Nat) (h : comesFirst a b = true)
    (h' : comesFirst b c = true) : comesFirst a c = true :=
  Std.TransCmp.isLE_trans h h'

theorem comesFirst_total (a b : α × Nat) : (comesFirst a b || comesFirst b a) = true := by
  unfold comesFirst
  cases h : compareLex (compareOn Prod.fst) (compareOn Prod.snd) a b with
  | lt => rfl
  | eq => rfl
  | gt =>
    rw [Std.OrientedCmp.lt_of_gt h]
    rfl

variable [Std.LawfulEqOrd α] [DecidableEq α]

omit [DecidableEq α] in
theorem comesFirst_antisymm {a b : α × Nat} (h : comesFirst a b = true)
    (h' : comesFirst b a = true) : a = b := by
  have heq := compareLex_eq_eq.mp (Std.OrientedCmp.isLE_antisymm h h')
  exact Prod.ext (Std.LawfulEqOrd.eq_of_compare heq.1) (Std.LawfulEqOrd.eq_of_compare heq.2)

omit [DecidableEq α] in
/-- Sorting brings the entries into the order of the keys. -/
theorem Shuffle.sorted_eq (order : Shuffle (α × Nat)) (table : Std.TreeMap α Nat) :
    order.sorted table = table.toList := by
  have hkeys : table.toList.Pairwise fun a b => comesFirst a b = true := by
    apply Std.TreeMap.ordered_keys_toList.imp
    intro a b h
    simp [comesFirst, compareLex, compareOn, h]
  exact ((List.mergeSort_perm _ _).trans (order.perm _)).eq_of_pairwise
    (fun a b _ _ => comesFirst_antisymm)
    (List.pairwise_mergeSort comesFirst_trans comesFirst_total _) hkeys

theorem Shuffle.collect_equiv (order : Shuffle (α × β)) (table : Std.TreeMap α β) :
    (order.collect table).Equiv table := by
  have hperm := order.perm table.toList
  have hdistinct : (order.apply table.toList).Pairwise fun a b => ¬compare a.1 b.1 = .eq :=
    hperm.symm.pairwise Std.TreeMap.distinct_keys_toList
      fun h heq => h (Std.OrientedCmp.eq_symm heq)
  apply Std.TreeMap.Equiv.of_forall_constGet?_eq
  intro a
  cases hentry : table[a]? with
  | some b =>
    have hmem := hperm.mem_iff.mpr (Std.TreeMap.mem_toList_iff_getElem?_eq_some.mpr hentry)
    exact Std.TreeMap.getElem?_ofList_of_mem Std.ReflCmp.compare_self hdistinct hmem
  | none =>
    have hkeys : ((order.apply table.toList).map Prod.fst).Perm table.keys :=
      Std.TreeMap.map_fst_toList_eq_keys ▸ hperm.map Prod.fst
    apply Std.TreeMap.getElem?_ofList_of_contains_eq_false
    rw [List.contains_eq_mem, decide_eq_false_iff_not, hkeys.mem_iff, Std.TreeMap.mem_keys,
      Std.TreeMap.mem_iff_isSome_getElem?, hentry]
    exact Bool.false_ne_true

theorem tally_equiv {l l' : List α} (h : l.Perm l') : (tally l).Equiv (tally l') := by
  apply Std.TreeMap.Equiv.of_forall_constGet?_eq
  intro a
  rw [getElem?_tally, getElem?_tally, h.count_eq]
  simp only [h.mem_iff]

/-- The counts of what has a property, taken together, count all that has it. -/
theorem sum_filter_tally {l : List α} {entries : List (α × Nat)}
    (h : entries.Perm (tally l).toList) (p : α → Bool) :
    ((entries.filter fun entry => p entry.1).map Prod.snd).sum = l.countP p := by
  have hkeys : (tally l).keys.Perm l.dedup := by
    apply (List.perm_ext_iff_of_nodup Std.TreeMap.nodup_keys l.nodup_dedup).mpr
    intro a
    rw [Std.TreeMap.mem_keys, mem_tally, List.mem_dedup]
  have htable : entries.Perm (l.dedup.map fun a => (a, l.count a)) :=
    (toList_tally l ▸ h).trans (hkeys.map _)
  rw [((htable.filter _).map Prod.snd).sum_eq, List.filter_map, List.map_map,
    ← List.sum_map_count_dedup_filter_eq_countP]
  rfl

theorem Shuffle.total_tally (order : Shuffle (α × Nat)) (l : List α) :
    order.total (tally l) = l.length := by
  have hsum := sum_filter_tally (order.perm (tally l).toList) fun _ => true
  rw [List.filter_true, List.countP_true] at hsum
  exact hsum

omit [DecidableEq α] in
theorem isEmpty_tally (l : List α) : (tally l).isEmpty = l.isEmpty := by
  rw [Bool.eq_iff_iff, Std.TreeMap.isEmpty_iff_forall_not_mem, List.isEmpty_iff,
    List.eq_nil_iff_forall_not_mem]
  simp only [mem_tally]

end Tables

variable {π σ : Type}

/-- How the tables of a training list their entries. -/
structure TableOrders where
  productions : Shuffle (Production × Nat)
  taggings : Shuffle (Tagging × Nat)
  tags : Shuffle (String × Nat)
  reference : Shuffle (String × Nat)

/-- The rules of the trees, from a table of productions in any order. -/
def RuleIndex.ofTables (π : Type) [Probability π σ] (orders : TableOrders) (trees : List Tree) :
    Except (InvalidProbability π) (RuleIndex σ) :=
  let parents := tally ((countedProductions trees).map Production.parent)
  (orders.productions.sorted (tally (countedProductions trees))).foldlM
    (fun rules (production, count) =>
      rules.addProduction production
        (Probability.ofRatio count (parents.getD production.parent 0) : π))
    {}

theorem RuleIndex.ofTables_eq [Probability π σ] (orders : TableOrders) (trees : List Tree) :
    ofTables π orders trees = ofTrees π trees := by
  rw [ofTables, Shuffle.sorted_eq]
  rfl

namespace TagCounts

/-- How often the word occurs, with any tag. -/
def occurrences (entries : List (Tagging × Nat)) (word : String) : Nat :=
  ((entries.filter fun entry => entry.1.word = word).map Prod.snd).sum

/-- The tags of the words that occur once, or all tags if there are no such words. -/
def referenceTable (tags : Std.TreeMap String Nat) (entries : List (Tagging × Nat)) :
    Std.TreeMap String Nat :=
  let once := entries.filter fun entry => occurrences entries entry.1.word == 1
  let onceTags := tally (once.map fun entry => entry.1.tag)
  if onceTags.isEmpty then tags else onceTags

/-- The counts of the taggings, from tables in any order. -/
def ofTables (orders : TableOrders) (taggings : List Tagging) : TagCounts :=
  let tags := tally (taggings.map Tagging.tag)
  let entries := orders.taggings.apply (tally taggings).toList
  let reference := referenceTable tags entries
  { tags := orders.tags.collect tags
    words := tally (taggings.map Tagging.word)
    taggings := tally taggings
    reference := orders.reference.collect reference
    referenceTotal := orders.reference.total reference }

/-- Counts that are the same to whoever looks them up. -/
structure SameCounts (counts counts' : TagCounts) : Prop where
  tags : counts.tags.Equiv counts'.tags
  words : counts.words.Equiv counts'.words
  taggings : counts.taggings.Equiv counts'.taggings
  reference : counts.reference.Equiv counts'.reference
  referenceTotal : counts.referenceTotal = counts'.referenceTotal
  openClass : counts.openClass = counts'.openClass

namespace SameCounts

variable {counts counts' counts'' : TagCounts}

theorem symm (h : counts.SameCounts counts') : counts'.SameCounts counts :=
  ⟨h.tags.symm, h.words.symm, h.taggings.symm, h.reference.symm, h.referenceTotal.symm,
    h.openClass.symm⟩

theorem trans (h : counts.SameCounts counts') (h' : counts'.SameCounts counts'') :
    counts.SameCounts counts'' where
  tags := h.tags.trans h'.tags
  words := h.words.trans h'.words
  taggings := h.taggings.trans h'.taggings
  reference := h.reference.trans h'.reference
  referenceTotal := h.referenceTotal.trans h'.referenceTotal
  openClass := h.openClass.trans h'.openClass

variable (h : counts.SameCounts counts')
include h

theorem isKnown_eq (word : String) : counts.isKnown word = counts'.isKnown word :=
  h.words.contains_eq

theorem wordCount_eq : counts.wordCount = counts'.wordCount :=
  h.words.size_eq

theorem withOpenClass (openClass : Bool) :
    (counts.withOpenClass openClass).SameCounts (counts'.withOpenClass openClass) :=
  { h with openClass := rfl }

theorem toLexicon_eq [Probability π σ] : counts.toLexicon π = counts'.toLexicon π := by
  have hestimate (word tag : String) :
      (counts.estimate word tag : π) = counts'.estimate word tag := by
    simp only [estimate, h.isKnown_eq, h.taggings.getElem?_eq, h.tags.getD_eq, h.openClass,
      h.reference.getElem?_eq, h.referenceTotal]
  have hscore : (counts.score : String → String → π) = counts'.score := by
    funext word tag
    rw [score, score, h.tags.contains_eq, hestimate]
  rw [toLexicon, toLexicon, h.tags.keys_eq, hscore]

end SameCounts

section Taggings

variable {taggings : List Tagging} {entries : List (Tagging × Nat)}

theorem occurrences_eq (h : entries.Perm (tally taggings).toList) (word : String) :
    occurrences entries word = (taggings.map Tagging.word).count word := by
  rw [occurrences, sum_filter_tally h (·.word = word), List.count, List.countP_map]
  rfl

/-- The taggings of the words that occur once. -/
def onceTaggings (taggings : List Tagging) : List Tagging :=
  taggings.filter fun t => (taggings.map Tagging.word).count t.word == 1

theorem referenceTaggings_eq (taggings : List Tagging) : referenceTaggings taggings =
    if (onceTaggings taggings).isEmpty then taggings else onceTaggings taggings := by
  simp only [referenceTaggings, onceTaggings, getD_tally]
  rfl

/-- A word that occurs once occurs with one tag. -/
theorem nodup_onceTaggings (taggings : List Tagging) : (onceTaggings taggings).Nodup := by
  rw [List.nodup_iff_count_le_one]
  intro t
  by_cases ht : t ∈ onceTaggings taggings
  · obtain ⟨-, honce⟩ := List.mem_filter.mp ht
    calc (onceTaggings taggings).count t ≤ taggings.count t := List.filter_sublist.count_le t
      _ ≤ (taggings.map Tagging.word).count t.word := List.count_le_count_map
      _ = 1 := eq_of_beq honce
  · rw [List.count_eq_zero.mpr ht]
    exact Nat.zero_le 1

/-- The entries of the words that occur once are their taggings. -/
theorem once_perm (h : entries.Perm (tally taggings).toList) :
    ((entries.filter fun entry => occurrences entries entry.1.word == 1).map Prod.fst).Perm
      (onceTaggings taggings) := by
  have hkeys : (entries.map Prod.fst).Nodup :=
    (Std.TreeMap.map_fst_toList_eq_keys ▸ h.map Prod.fst).nodup_iff.mpr Std.TreeMap.nodup_keys
  apply (List.perm_ext_iff_of_nodup ((List.filter_sublist.map _).nodup hkeys)
    (nodup_onceTaggings taggings)).mpr
  intro t
  simp only [onceTaggings, List.mem_map, List.mem_filter, occurrences_eq h]
  constructor
  · rintro ⟨⟨t, n⟩, ⟨hentry, honce⟩, rfl⟩
    exact ⟨(mem_toList_tally.mp (h.mem_iff.mp hentry)).1, honce⟩
  · rintro ⟨ht, honce⟩
    exact ⟨(t, taggings.count t), ⟨h.mem_iff.mpr (mem_toList_tally.mpr ⟨ht, rfl⟩), honce⟩, rfl⟩

theorem exists_referenceTable (h : entries.Perm (tally taggings).toList) :
    ∃ l, referenceTable (tally (taggings.map Tagging.tag)) entries = tally l ∧
      l.Perm ((referenceTaggings taggings).map Tagging.tag) := by
  have honce := (once_perm h).map Tagging.tag
  rw [List.map_map] at honce
  have hempty := honce.isEmpty_eq.trans List.isEmpty_map
  simp only [Function.comp_def] at honce hempty
  simp only [referenceTable, referenceTaggings_eq, isEmpty_tally, hempty]
  split
  · exact ⟨_, rfl, .rfl⟩
  · exact ⟨_, rfl, honce⟩

theorem sameCounts_ofTables (orders : TableOrders) (taggings : List Tagging) :
    (ofTables orders taggings).SameCounts (ofTaggings taggings) := by
  obtain ⟨l, htable, hl⟩ := exists_referenceTable (orders.taggings.perm (tally taggings).toList)
  constructor
  case tags => exact orders.tags.collect_equiv _
  case words => exact .rfl
  case taggings => exact .rfl
  case reference =>
    apply (orders.reference.collect_equiv _).trans
    rw [htable]
    exact tally_equiv hl
  case referenceTotal =>
    change orders.reference.total (referenceTable _ _) = (referenceTaggings taggings).length
    rw [htable, Shuffle.total_tally, hl.length_eq, List.length_map]
  case openClass => rfl

theorem referenceTaggings_perm {taggings taggings' : List Tagging} (h : taggings.Perm taggings') :
    (referenceTaggings taggings).Perm (referenceTaggings taggings') := by
  have honce : (onceTaggings taggings).Perm (onceTaggings taggings') := by
    simp only [onceTaggings, (h.map Tagging.word).count_eq]
    exact h.filter _
  rw [referenceTaggings_eq, referenceTaggings_eq, honce.isEmpty_eq]
  split
  · exact h
  · exact honce

theorem sameCounts_ofTaggings {taggings taggings' : List Tagging} (h : taggings.Perm taggings') :
    (ofTaggings taggings).SameCounts (ofTaggings taggings') := by
  have hreference := referenceTaggings_perm h
  exact ⟨tally_equiv (h.map _), tally_equiv (h.map _), tally_equiv h,
    tally_equiv (hreference.map _), hreference.length_eq, rfl⟩

end Taggings

end TagCounts

namespace Model

/-- Trains a model with the given ways to estimate rules and to count taggings. -/
def trainWith (rules : List Tree → Except (InvalidProbability π) (RuleIndex σ))
    (tagCounts : List Tree → TagCounts) (config : Config) (treebank : List Tree) :
    Except (TrainError π) (Model σ) := do
  if treebank.isEmpty then throw .emptyTreebank
  let trees ← (treebank.mapM (Tree.markovize config.markovization)).mapError .invalidOrder
  let rules ← (rules trees).mapError .invalidProbability
  return { rules, tagCounts := tagCounts trees, config }

variable [Probability π σ]

theorem train_eq_trainWith :
    train (σ := σ) π = trainWith (RuleIndex.ofTrees π) TagCounts.ofTrees := rfl

/-- Trains a model from tables that list their entries in any order. -/
def trainFromTables (π : Type) [Probability π σ] (orders : TableOrders) :
    Config → List Tree → Except (TrainError π) (Model σ) :=
  trainWith (RuleIndex.ofTables π orders)
    fun trees => .ofTables orders (trees.flatMap Tree.taggings)

/-- Ways to estimate rules and to count taggings that find what the usual ones find. -/
structure Faithful (rules : List Tree → Except (InvalidProbability π) (RuleIndex σ))
    (tagCounts : List Tree → TagCounts) : Prop where
  rules_eq : ∀ trees, rules trees = RuleIndex.ofTrees π trees
  sameCounts : ∀ trees, (tagCounts trees).SameCounts (.ofTrees trees)

theorem faithful_ofTrees : Faithful (σ := σ) (RuleIndex.ofTrees π) TagCounts.ofTrees where
  rules_eq _ := rfl
  sameCounts trees := TagCounts.sameCounts_ofTaggings (.refl (trees.flatMap Tree.taggings))

theorem faithful_ofTables (orders : TableOrders) : Faithful (σ := σ) (RuleIndex.ofTables π orders)
    fun trees => .ofTables orders (trees.flatMap Tree.taggings) where
  rules_eq := RuleIndex.ofTables_eq orders
  sameCounts _ := TagCounts.sameCounts_ofTables orders _

end Model

end Constituency

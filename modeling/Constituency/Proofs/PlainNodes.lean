import Mathlib.Data.List.Basic
import Constituency.Constituent
import Constituency.Proofs.Unmarking

/-!
# The nodes of plain trees

A plain tree is over the same words as the tree it was made of. It has the root of that tree and
those nodes below that are not synthetic, in the same order and each over the same words, under
their categories. A tree of such nodes is plain already.
-/

namespace Constituency

namespace Label

variable {isMark : Char → Bool} {cs ds : List Char}

theorem cutAt_cons (c : Char) (cs : List Char) : cutAt isMark (c :: cs) =
    c :: if isMark c then cs else cs.takeWhile (!isMark ·) := by
  cases hc : isMark c <;> simp [cutAt, hc]

theorem cutAt_isPrefix : cutAt isMark cs <+: cs := by
  cases cs with
  | nil => exact List.prefix_rfl
  | cons c cs =>
    rw [cutAt_cons, List.prefix_cons_inj]
    split
    · exact List.prefix_rfl
    · exact List.takeWhile_prefix _

theorem head?_cutAt : (cutAt isMark cs).head? = cs.head? := by
  cases cs with
  | nil => rfl
  | cons c cs => rw [cutAt_cons, List.head?_cons, List.head?_cons]

theorem cutAt_of_head (h : cs.head?.any isMark = true) : cutAt isMark cs = cs := by
  cases cs with
  | nil => rfl
  | cons c cs => exact if_pos h

/-- Either the mark at the start belongs to the category, or there is no mark. -/
theorem head_or_forall_of_cutAt_eq (h : cutAt isMark cs = cs) :
    cs.head?.any isMark = true ∨ ∀ c ∈ cs, isMark c = false := by
  cases cs with
  | nil => exact .inr (by simp)
  | cons c cs =>
    cases hc : isMark c with
    | true => exact .inl hc
    | false =>
      have htail : cs.takeWhile (!isMark ·) = cs := by simpa [cutAt, hc] using h
      refine .inr (List.forall_mem_cons.mpr ⟨hc, fun d hd => ?_⟩)
      simpa using List.takeWhile_eq_self_iff.mp htail d hd

/-- What is cut stays so when more is cut from its end. -/
theorem cutAt_of_isPrefix (h : cutAt isMark cs = cs) (hds : ds <+: cs) : cutAt isMark ds = ds := by
  rcases head_or_forall_of_cutAt_eq h with hhead | hall
  · cases ds with
    | nil => rfl
    | cons d ds =>
      obtain ⟨rest, rfl⟩ := hds
      exact cutAt_of_head hhead
  · exact cutAt_eq_self fun c hc => hall c (hds.subset hc)

theorem cutAt_cutAt : cutAt isMark (cutAt isMark cs) = cutAt isMark cs := by
  cases cs with
  | nil => rfl
  | cons c cs =>
    cases hc : isMark c with
    | true =>
      have hcut : cutAt isMark (c :: cs) = c :: cs := cutAt_of_head hc
      rw [hcut, hcut]
    | false =>
      refine cutAt_eq_self fun d hd => ?_
      simp only [cutAt, hc, Bool.false_eq_true, if_false, List.mem_cons] at hd
      rcases hd with rfl | hd
      · exact hc
      · simpa using List.mem_takeWhile_imp hd

/-- A category has no category but itself. The second cut leaves a beginning of what the first one
left, where the first has nothing more to cut. -/
theorem category_category (a : String) : category (category a) = category a := by
  have hancestor : cutAt isAncestorMark (category a).toList = (category a).toList := by
    rw [category, String.toList_ofList]
    exact cutAt_of_isPrefix cutAt_cutAt cutAt_isPrefix
  have hfunction : cutAt isFunctionMark (category a).toList = (category a).toList := by
    rw [category, String.toList_ofList]
    exact cutAt_cutAt
  rw [category, hancestor, hfunction, String.ofList_toList]

theorem startsSynthetic_category (a : String) :
    startsSynthetic (category a) = startsSynthetic a := by
  simp [startsSynthetic, category, head?_cutAt]

end Label

/-- The constituent under its category. -/
def Constituent.plain (c : Constituent) : Constituent :=
  ⟨Label.category c.label, c.span⟩

namespace Tree

variable {a : String} {start : Nat} {t u : Tree} {ts us : List Tree} {span : Span}

mutual

/-- Every node with the words that it spans, in pre-order. The first word stands at `start`. -/
def located (start : Nat) : Tree → List (Tree × Span)
  | node a ts =>
    (node a ts, ⟨start, start + (node a ts).words.length⟩) :: locatedAll start ts

def locatedAll (start : Nat) : List Tree → List (Tree × Span)
  | [] => []
  | t :: ts => located start t ++ locatedAll (start + t.words.length) ts

end

/-- The nodes that are not words, as constituents. -/
def phrases (nodes : List (Tree × Span)) : List Constituent :=
  (nodes.filter (!·.1.isLeaf)).map fun (t, span) => ⟨t.label, span⟩

/-- The nodes that are not given up: the root, and those below that are not synthetic. -/
def kept (t : Tree) : List (Tree × Span) :=
  (t, ⟨0, t.words.length⟩) :: (locatedAll 0 t.children).filter (!·.1.isSynthetic)

/-- The second tree is what is left of the first one without its marks. -/
structure Cleans (t bare : Tree) : Prop where
  words : bare.words = t.words
  unmarked : ∀ u ∈ bare.children.flatMap subtrees, u.isLeaf = false →
    Label.startsSynthetic u.label = false
  phrases : phrases (bare.located 0) = (phrases t.kept).map Constituent.plain
  covered : ∀ u span, (u, span) ∈ bare.located 0 → u.words = t.words.extract span.start span.stop
  categories : ∀ u ∈ bare.subtrees, u.isLeaf = false → Label.category u.label = u.label
  stable : bare.plain = bare

section Located

theorem located_eq (start : Nat) (t : Tree) : t.located start =
    (t, ⟨start, start + t.words.length⟩) :: locatedAll start t.children := by
  cases t
  rfl

theorem locatedAll_append : locatedAll start (ts ++ us) =
    locatedAll start ts ++ locatedAll (start + (ts.flatMap words).length) us := by
  induction ts generalizing start with
  | nil => rfl
  | cons t ts ih =>
    rw [List.cons_append, locatedAll, ih, locatedAll, List.append_assoc, List.flatMap_cons,
      List.length_append, Nat.add_assoc]

/-- The words of the node are those of the span, where the first word stands at `start`. -/
def StandsAt (start : Nat) (sentence : List String) (u : Tree) (span : Span) : Prop :=
  ∃ before after, sentence = before ++ u.words ++ after ∧
    span = ⟨start + before.length, start + before.length + u.words.length⟩

theorem standsAt_of_mem_locatedAll
    (hts : ∀ t ∈ ts, ∀ start, (u, span) ∈ t.located start → StandsAt start t.words u span)
    (h : (u, span) ∈ locatedAll start ts) : StandsAt start (ts.flatMap words) u span := by
  induction ts generalizing start with
  | nil => cases h
  | cons t ts ih =>
    obtain ⟨ht, hts⟩ := List.forall_mem_cons.mp hts
    rcases List.mem_append.mp h with h | h
    · obtain ⟨before, after, hwords, hspan⟩ := ht start h
      exact ⟨before, after ++ ts.flatMap words, by simp [hwords], hspan⟩
    · obtain ⟨before, after, hwords, hspan⟩ := ih hts h
      refine ⟨t.words ++ before, after, by simp [hwords], ?_⟩
      rw [hspan, List.length_append, Nat.add_assoc start]

theorem standsAt_of_mem_located (h : (u, span) ∈ t.located start) :
    StandsAt start t.words u span := by
  induction t generalizing start with
  | node a ts ih =>
    rw [located_eq, List.mem_cons] at h
    rcases h with h | h
    · obtain ⟨rfl, rfl⟩ := Prod.mk.inj h
      exact ⟨[], [], by simp, rfl⟩
    · have hne : ts ≠ [] := by
        rintro rfl
        cases h
      rw [words_node hne]
      exact standsAt_of_mem_locatedAll (fun t ht start => ih t ht) h

theorem phrases_cons (t : Tree) (span : Span) (nodes : List (Tree × Span)) :
    phrases ((t, span) :: nodes) =
      if t.isLeaf then phrases nodes else ⟨t.label, span⟩ :: phrases nodes := by
  cases hleaf : t.isLeaf <;> simp [phrases, hleaf]

theorem phrases_append (nodes others : List (Tree × Span)) :
    phrases (nodes ++ others) = phrases nodes ++ phrases others := by
  simp [phrases]

end Located

section Plain

theorem isLeaf_plain (t : Tree) : t.plain.isLeaf = t.isLeaf := by
  rw [plain, ← isLeaf_splice t]
  cases t.splice
  simp [mapCategory]

theorem isSynthetic_plain (t : Tree) : t.plain.isSynthetic = t.isSynthetic := by
  rw [isSynthetic, isSynthetic, isLeaf_plain]
  cases hleaf : t.isLeaf with
  | true => rfl
  | false => rw [label_plain hleaf, Label.startsSynthetic_category]

theorem flatMap_words_plainParts (t : Tree) : t.plainParts.flatMap words = t.words := by
  have hspliced := flatMap_words_spliced t.plain
  rw [spliced, isSynthetic_plain, words_plain] at hspliced
  exact hspliced

/-- No synthetic node is left below the root. -/
theorem not_isSynthetic_of_below_plain (hu : u ∈ t.plain.children.flatMap subtrees) :
    u.isSynthetic = false := by
  induction t with
  | node a ts ih =>
    by_cases hne : ts = []
    · subst hne
      cases hu
    · rw [plain_node hne, children_node, List.flatMap_assoc] at hu
      obtain ⟨t, ht, hu⟩ := List.mem_flatMap.mp hu
      unfold plainParts at hu
      split at hu
      · exact ih t ht hu
      · rename_i hs
        have hplain : t.plain.subtrees = t.plain :: t.plain.children.flatMap subtrees := by
          cases t.plain
          simp
        rw [List.flatMap_singleton, hplain] at hu
        rcases List.mem_cons.mp hu with rfl | hu
        · rw [isSynthetic_plain]
          exact Bool.not_eq_true _ ▸ hs
        · exact ih t ht hu

theorem category_of_mem_mapCategory (hu : u ∈ t.mapCategory.subtrees) (hleaf : u.isLeaf = false) :
    Label.category u.label = u.label := by
  induction t with
  | node a ts ih =>
    by_cases hne : ts = []
    · subst hne
      obtain rfl : u = node a [] := by simpa [mapCategory] using hu
      cases hleaf
    · rw [mapCategory_node hne, subtrees_node, List.flatMap_map] at hu
      rcases List.mem_cons.mp hu with rfl | hu
      · exact Label.category_category a
      · obtain ⟨t, ht, hu⟩ := List.mem_flatMap.mp hu
        exact ih t ht hu

theorem phrases_flatMap_plainParts
    (h : ∀ t ∈ ts, ∀ start, phrases (locatedAll start t.plainParts) =
      (phrases ((t.located start).filter (!·.1.isSynthetic))).map Constituent.plain) :
    phrases (locatedAll start (ts.flatMap plainParts)) =
      (phrases ((locatedAll start ts).filter (!·.1.isSynthetic))).map Constituent.plain := by
  induction ts generalizing start with
  | nil => rfl
  | cons t ts ih =>
    obtain ⟨ht, hts⟩ := List.forall_mem_cons.mp h
    rw [List.flatMap_cons, locatedAll_append, phrases_append, ht, flatMap_words_plainParts, ih hts,
      locatedAll, List.filter_append, phrases_append, List.map_append]

/-- What a node contributes to the phrases of a plain tree. A synthetic node gives up itself and
passes on what its children contribute. -/
theorem phrases_plainParts (start : Nat) (t : Tree) : phrases (locatedAll start t.plainParts) =
    (phrases ((t.located start).filter (!·.1.isSynthetic))).map Constituent.plain := by
  induction t generalizing start with
  | node a ts ih =>
    by_cases hne : ts = []
    · subst hne
      rfl
    · have hleaf : (node a ts).isLeaf = false := by simpa using hne
      have hchildren : (node a ts).plain.children = ts.flatMap plainParts := by
        rw [plain_node hne, children_node]
      have hbelow : phrases (locatedAll start (node a ts).plain.children) =
          (phrases ((locatedAll start ts).filter (!·.1.isSynthetic))).map Constituent.plain := by
        rw [hchildren]
        exact phrases_flatMap_plainParts fun t ht start => ih t ht start
      rw [plainParts, located_eq]
      split
      · rename_i hs
        rw [hbelow]
        simp [hs]
      · rename_i hs
        rw [locatedAll, locatedAll, List.append_nil, located_eq, phrases_cons, hbelow, isLeaf_plain,
          label_plain hleaf, words_plain]
        simp [hs, hleaf, phrases_cons, Constituent.plain]

/-- The root stays, whatever its label. -/
theorem phrases_plain (t : Tree) :
    phrases (t.plain.located 0) = (phrases t.kept).map Constituent.plain := by
  obtain ⟨a, ts⟩ := t
  by_cases hne : ts = []
  · subst hne
    rfl
  · have hleaf : (node a ts).isLeaf = false := by simpa using hne
    have hchildren : (node a ts).plain.children = ts.flatMap plainParts := by
      rw [plain_node hne, children_node]
    rw [located_eq, kept, phrases_cons, phrases_cons, isLeaf_plain, hleaf, label_plain hleaf,
      words_plain, hchildren,
      phrases_flatMap_plainParts fun t _ start => phrases_plainParts start t]
    simp [Constituent.plain]

/-- Taking the marks off a tree leaves the words, the root and the nodes that are not synthetic,
and a tree that has nothing more to take off. -/
theorem cleans_plain (t : Tree) : t.Cleans t.plain where
  words := words_plain t
  unmarked u hu hleaf := by
    have hsynthetic := not_isSynthetic_of_below_plain hu
    simpa [isSynthetic, hleaf] using hsynthetic
  phrases := phrases_plain t
  covered u span h := by
    obtain ⟨before, after, hwords, rfl⟩ := standsAt_of_mem_located h
    rw [words_plain] at hwords
    simp [hwords, List.extract_eq_take_drop]
  categories u hu hleaf := category_of_mem_mapCategory hu hleaf
  stable := plain_eq_self (fun _ hu => not_isSynthetic_of_below_plain hu)
    fun _ hu hleaf => category_of_mem_mapCategory hu hleaf

/-- The root keeps its mark, and so does a word. -/
example : (node "@S" [node "@S->_A" [node "@S->..." [node "B^S" [leaf "@b"]],
    node "C-D" [leaf "^"]]]).plain = node "@S" [node "B" [leaf "@b"], node "C" [leaf "^"]] := by
  rfl

end Plain

end Tree

end Constituency

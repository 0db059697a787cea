import Mathlib.Data.List.Basic
import Mathlib.Data.List.TakeWhile
import Constituency.Label

/-!
# Marks on clean labels

A label without the characters that marks are made of can be told apart from its marks. A marked
label then tells its category, its ancestors and what it remembers of a history.
-/

namespace Constituency.Label

/-- The label says nothing but a category. -/
def IsClean (label : String) : Prop :=
  label ≠ "" ∧ ∀ c ∈ ['@', '^', '-', '=', '_'], c ∉ label.toList

/-- The label has none of the characters that marks are made of. Unlike a clean one it may be
empty. -/
def IsUnmarked (label : String) : Prop :=
  ∀ c ∈ ['@', '^', '-', '=', '_'], c ∉ label.toList

instance (label : String) : Decidable (IsClean label) :=
  @instDecidableAnd _ _ inferInstance (List.decidableBAll _ _)

instance (label : String) : Decidable (IsUnmarked label) :=
  List.decidableBAll _ _

theorem IsClean.unmarked {label : String} (h : IsClean label) : IsUnmarked label :=
  h.2

section Category

variable {isMark : Char → Bool} {mark c : Char} {cs rest : List Char} {a : String}
  {ancestors : List String}

theorem cutAt_append (hc : isMark c = false) (hmark : isMark mark = true) :
    cutAt isMark (c :: cs ++ mark :: rest) = cutAt isMark (c :: cs) := by
  simp only [List.cons_append, cutAt, hc, Bool.false_eq_true, if_false, List.takeWhile_append,
    List.takeWhile_cons, hmark, Bool.not_true]
  split
  · rename_i hall
    rw [(List.takeWhile_prefix _).eq_of_length hall, List.append_nil]
  · rfl

theorem cutAt_eq_self (h : ∀ c ∈ cs, isMark c = false) : cutAt isMark cs = cs := by
  cases cs with
  | nil => rfl
  | cons c cs =>
    obtain ⟨hc, hcs⟩ := List.forall_mem_cons.mp h
    have hall : cs.takeWhile (!isMark ·) = cs :=
      List.takeWhile_eq_self_iff.mpr fun c hc => by simp [hcs c hc]
    simp [cutAt, hc, hall]

/-- The label neither is empty nor starts as if it named ancestors only. -/
def TakesAncestors (label : String) : Prop :=
  ∃ c cs, label.toList = c :: cs ∧ isAncestorMark c = false

theorem takesAncestors_iff :
    TakesAncestors a ↔ a.toList.head?.any (!isAncestorMark ·) = true := by
  unfold TakesAncestors
  cases a.toList <;> simp

instance (label : String) : Decidable (TakesAncestors label) :=
  decidable_of_iff _ takesAncestors_iff.symm

theorem withAncestors_nil : withAncestors a [] = a :=
  String.intercalate_singleton

theorem toList_withAncestors_cons {b : String} :
    (withAncestors a (b :: ancestors)).toList =
      a.toList ++ '^' :: (withAncestors b ancestors).toList := by
  simp [withAncestors, String.intercalate_cons_cons]

theorem category_withAncestors (h : ancestors = [] ∨ TakesAncestors a) :
    category (withAncestors a ancestors) = category a := by
  rcases h with rfl | ⟨c, cs, ha, hc⟩
  · rw [withAncestors_nil]
  · cases ancestors with
    | nil => rw [withAncestors_nil]
    | cons b ancestors =>
      rw [category, toList_withAncestors_cons, ha, cutAt_append hc rfl, ← ha]
      rfl

theorem startsSynthetic_withAncestors (h : ancestors = [] ∨ TakesAncestors a) :
    startsSynthetic (withAncestors a ancestors) = startsSynthetic a := by
  rcases h with rfl | ⟨c, cs, ha, hc⟩
  · rw [withAncestors_nil]
  · cases ancestors with
    | nil => rw [withAncestors_nil]
    | cons b ancestors => simp [startsSynthetic, toList_withAncestors_cons, ha]

namespace IsUnmarked

theorem notMem (h : IsUnmarked a) (hc : c ∈ ['@', '^', '-', '=', '_']) : c ∉ a.toList :=
  h c hc

theorem ne_of_mem (h : IsUnmarked a) (hc : c ∈ a.toList)
    (hmark : mark ∈ ['@', '^', '-', '=', '_']) : c ≠ mark := by
  intro heq
  exact h.notMem hmark (heq ▸ hc)

theorem category_eq (h : IsUnmarked a) : category a = a := by
  have hancestor : ∀ c ∈ a.toList, isAncestorMark c = false := by
    intro c hc
    have hcaret : c ≠ '^' := h.ne_of_mem hc (by simp)
    simpa [isAncestorMark] using hcaret
  have hfunction : ∀ c ∈ a.toList, isFunctionMark c = false := by
    intro c hc
    have hdash : c ≠ '-' := h.ne_of_mem hc (by simp)
    have hequals : c ≠ '=' := h.ne_of_mem hc (by simp)
    simp [isFunctionMark, hdash, hequals]
  rw [category, cutAt_eq_self hancestor, cutAt_eq_self hfunction, String.ofList_toList]

theorem startsSynthetic_eq (h : IsUnmarked a) : startsSynthetic a = false := by
  cases ha : a.toList with
  | nil => simp [startsSynthetic, ha]
  | cons c cs =>
    have hat : c ≠ '@' := h.ne_of_mem (by simp [ha]) (by simp)
    simpa [startsSynthetic, ha] using hat

end IsUnmarked

namespace IsClean

theorem notMem (h : IsClean a) (hc : c ∈ ['@', '^', '-', '=', '_']) : c ∉ a.toList :=
  h.unmarked.notMem hc

theorem takesAncestors (h : IsClean a) : TakesAncestors a := by
  cases ha : a.toList with
  | nil => exact absurd (String.toList_eq_nil_iff.mp ha) h.1
  | cons c cs =>
    have hcaret : c ≠ '^' := h.unmarked.ne_of_mem (by simp [ha]) (by simp)
    exact ⟨c, cs, ha, by simpa [isAncestorMark] using hcaret⟩

end IsClean

end Category

section Ancestors

variable {a b : String} {ancestors ancestors' : List String}

theorem splitOn_withAncestors (hclean : ∀ x ∈ a :: ancestors, IsClean x) :
    (withAncestors a ancestors).toList.splitOn '^' = (a :: ancestors).map String.toList := by
  rw [withAncestors, String.toList_intercalate]
  refine List.splitOn_intercalate '^' ?_ (by simp)
  intro l hl
  obtain ⟨x, hx, rfl⟩ := List.mem_map.mp hl
  exact (hclean x hx).notMem (by simp)

/-- The category and the ancestors can be told apart. -/
theorem withAncestors_injective (hx : ∀ x ∈ a :: ancestors, IsClean x)
    (hy : ∀ y ∈ b :: ancestors', IsClean y)
    (h : withAncestors a ancestors = withAncestors b ancestors') :
    a = b ∧ ancestors = ancestors' := by
  have hlists := (splitOn_withAncestors hx).symm.trans
    ((congrArg (·.toList.splitOn '^') h).trans (splitOn_withAncestors hy))
  exact List.cons.inj (List.map_injective_iff.mpr (fun _ _ => String.toList_inj.mp) hlists)

theorem notMem_withAncestors {c : Char} (hx : ∀ x ∈ a :: ancestors, c ∉ x.toList) (hc : c ≠ '^') :
    c ∉ (withAncestors a ancestors).toList := by
  induction ancestors generalizing a with
  | nil => simpa [withAncestors_nil] using hx
  | cons b ancestors ih =>
    obtain ⟨ha, hrest⟩ := List.forall_mem_cons.mp hx
    simp [toList_withAncestors_cons, ha, hc, ih hrest]

end Ancestors

section Memory

variable {memory : Option Nat} {history history' : List String} {parent parent' : String}

/-- What a memory keeps of a history. -/
def remembered (memory : Option Nat) (history : List String) : List String :=
  match memory with
  | some h => history.drop (history.length - h)
  | none => history

def Forgets (memory : Option Nat) (history : List String) : Prop :=
  (remembered memory history).length < history.length

instance : Decidable (Forgets memory history) :=
  inferInstanceAs (Decidable (_ < _))

/-- Two histories of which a synthetic label remembers the same. -/
structure SameMemory (memory : Option Nat) (history history' : List String) : Prop where
  remembered : remembered memory history = remembered memory history'
  forgets : Forgets memory history ↔ Forgets memory history'

theorem SameMemory.rfl : SameMemory memory history history :=
  ⟨by rfl, Iff.rfl⟩

theorem mem_of_mem_remembered {a : String} (h : a ∈ remembered memory history) : a ∈ history := by
  cases memory with
  | none => exact h
  | some bound => exact List.mem_of_mem_drop h

theorem eq_nil_iff (memory : Option Nat) :
    history = [] ↔ remembered memory history = [] ∧ ¬Forgets memory history := by
  constructor
  · intro h
    subst h
    cases memory <;> simp [remembered, Forgets]
  · intro h
    obtain ⟨hnil, hkeeps⟩ := h
    simpa [Forgets, hnil] using hkeeps

theorem SameMemory.eq_nil_iff (h : SameMemory memory history history') :
    history = [] ↔ history' = [] := by
  rw [Label.eq_nil_iff memory, h.remembered, h.forgets, ← Label.eq_nil_iff]

theorem length_remembered {bound : Nat} :
    (remembered (some bound) history).length = min bound history.length := by
  simp only [remembered, List.length_drop]
  omega

/-- What was forgotten before stays forgotten. -/
theorem remembered_concat {a : String} : remembered memory (history ++ [a]) =
    remembered memory (remembered memory history ++ [a]) := by
  cases memory with
  | none => rfl
  | some bound =>
    by_cases hfits : history.length ≤ bound
    · simp [remembered, Nat.sub_eq_zero_of_le hfits]
    · have hlength : history.length - (history.length - bound) + 1 - bound = 1 := by omega
      have hsplit : history.length + 1 - bound = history.length - bound + 1 := by omega
      have hlost : 1 ≤ (history.drop (history.length - bound) ++ [a]).length := by simp
      rw [remembered, remembered, remembered, List.length_append, List.length_append,
        List.length_drop, List.length_singleton, hlength, hsplit, ← List.drop_drop,
        List.drop_append_of_le_length (Nat.sub_le _ _)]

theorem forgets_concat {a : String} : Forgets memory (history ++ [a]) ↔
    ∃ bound, memory = some bound ∧ bound ≤ (remembered memory history).length := by
  cases memory with
  | none => simp [Forgets, remembered]
  | some bound =>
    simp only [Forgets, length_remembered, List.length_append, List.length_singleton,
      Option.some.injEq, exists_eq_left']
    omega

theorem SameMemory.concat (h : SameMemory memory history history') (a : String) :
    SameMemory memory (history ++ [a]) (history' ++ [a]) := by
  constructor
  · rw [remembered_concat, h.remembered, ← remembered_concat]
  · rw [forgets_concat, h.remembered, ← forgets_concat]

theorem synthetic_eq_append : synthetic parent memory history =
    "@" ++ parent ++ "->" ++ (if Forgets memory history then "..." else "") ++
      String.join ((remembered memory history).map ("_" ++ ·)) := rfl

theorem toList_synthetic : (synthetic parent memory history).toList =
    '@' :: (parent.toList ++ '-' :: '>' :: ((if Forgets memory history then "..." else "").toList ++
      (remembered memory history).flatMap ('_' :: ·.toList))) := by
  simp [synthetic_eq_append, String.toList_join, List.flatMap_map]

theorem SameMemory.synthetic_eq (h : SameMemory memory history history') :
    synthetic parent memory history = synthetic parent memory history' := by
  simp only [synthetic_eq_append, h.remembered, h.forgets]

theorem splitOn_append_flatMap {l : List Char} {labels : List String} (hl : '_' ∉ l)
    (hlabels : ∀ x ∈ labels, '_' ∉ x.toList) :
    (l ++ labels.flatMap ('_' :: ·.toList)).splitOn '_' = l :: labels.map String.toList := by
  have hjoin (l : List Char) : ['_'].intercalate (l :: labels.map String.toList) =
      l ++ labels.flatMap ('_' :: ·.toList) := by
    clear hlabels
    induction labels generalizing l with
    | nil => simp
    | cons a labels ih => simp [ih]
  rw [← hjoin]
  refine List.splitOn_intercalate '_' ?_ (by simp)
  refine List.forall_mem_cons.mpr ⟨hl, fun l hl => ?_⟩
  obtain ⟨x, hx, rfl⟩ := List.mem_map.mp hl
  exact hlabels x hx

theorem sameMemory_of_text (hx : ∀ x ∈ history, IsClean x) (hy : ∀ y ∈ history', IsClean y)
    (h : (if Forgets memory history then "..." else "").toList ++
        (remembered memory history).flatMap ('_' :: ·.toList) =
      (if Forgets memory history' then "..." else "").toList ++
        (remembered memory history').flatMap ('_' :: ·.toList)) :
    SameMemory memory history history' := by
  have no_gap {labels : List String} {cs : List Char} :
      '.' :: cs ≠ labels.flatMap ('_' :: ·.toList) := by
    cases labels <;> simp
  have read {labels : List String} (hclean : ∀ x ∈ labels, IsClean x) :
      ((remembered memory labels).flatMap ('_' :: ·.toList)).splitOn '_' =
        [] :: (remembered memory labels).map String.toList := by
    refine splitOn_append_flatMap List.not_mem_nil ?_
    intro x hx
    exact (hclean x (mem_of_mem_remembered hx)).notMem (by simp)
  have hgap : Forgets memory history ↔ Forgets memory history' := by
    by_cases hf : Forgets memory history <;> by_cases hf' : Forgets memory history'
    · simp [hf, hf']
    · rw [if_pos hf, if_neg hf'] at h
      exact absurd h no_gap
    · rw [if_neg hf, if_pos hf'] at h
      exact absurd h.symm no_gap
    · simp [hf, hf']
  refine ⟨?_, hgap⟩
  simp only [hgap, List.append_cancel_left_eq] at h
  have hlists := (read hx).symm.trans ((congrArg (·.splitOn '_') h).trans (read hy))
  exact List.map_injective_iff.mpr (fun _ _ => String.toList_inj.mp) (List.cons.inj hlists).2

/-- A synthetic label tells its parent, and what it remembers of the history. -/
theorem synthetic_injective (hp : '-' ∉ parent.toList) (hx : ∀ x ∈ history, IsClean x)
    (hy : ∀ y ∈ history', IsClean y)
    (h : synthetic parent memory history = synthetic parent' memory history') :
    parent = parent' ∧ SameMemory memory history history' := by
  have hlabels : ∀ x ∈ remembered memory history, '-' ∉ x.toList := fun x hmem =>
    (hx x (mem_of_mem_remembered hmem)).notMem (by simp)
  have hdash : '-' ∉ '>' :: ((if Forgets memory history then "..." else "").toList ++
      (remembered memory history).flatMap ('_' :: ·.toList)) := by
    split <;> simpa using hlabels
  have hchars := congrArg String.toList h
  rw [toList_synthetic, toList_synthetic, List.cons.injEq,
    List.append_cons_inj_of_notMem hp hdash] at hchars
  obtain ⟨-, hparent, -, htext⟩ := hchars
  exact ⟨String.toList_inj.mp hparent, sameMemory_of_text hx hy (List.cons.inj htext).2⟩

/-- The label of a node of a chain below `parent`, once the children of the history have been split
off. -/
def stage (parent : String) (memory : Option Nat) (history : List String) : String :=
  if history = [] then parent else synthetic parent memory history

@[simp] theorem stage_nil : stage parent memory [] = parent := if_pos rfl

@[simp] theorem stage_concat {a : String} :
    stage parent memory (history ++ [a]) = synthetic parent memory (history ++ [a]) :=
  if_neg (by simp)

theorem SameMemory.stage_eq (h : SameMemory memory history history') :
    stage parent memory history = stage parent memory history' := by
  unfold stage
  simp only [h.eq_nil_iff, h.synthetic_eq]

/-- A label of a chain tells all that a rule may depend on. -/
theorem stage_injective {a b : String} {ancestors ancestors' : List String}
    (hx : ∀ x ∈ a :: ancestors ++ history, IsClean x)
    (hy : ∀ y ∈ b :: ancestors' ++ history', IsClean y)
    (h : stage (withAncestors a ancestors) memory history =
      stage (withAncestors b ancestors') memory history') :
    a = b ∧ ancestors = ancestors' ∧ SameMemory memory history history' := by
  obtain ⟨hxa, hxh⟩ := List.forall_mem_append.mp hx
  obtain ⟨hya, hyh⟩ := List.forall_mem_append.mp hy
  have not_synthetic {c : String} {cs labels : List String} {parent : String}
      (hclean : ∀ x ∈ c :: cs, IsClean x) :
      withAncestors c cs ≠ synthetic parent memory labels := fun heq => by
    have hat := notMem_withAncestors (c := '@') (fun x hx => (hclean x hx).notMem (by simp))
      (by decide)
    simp [heq, toList_synthetic] at hat
  have hdash := notMem_withAncestors (c := '-') (fun x hx => (hxa x hx).notMem (by simp))
    (by decide)
  unfold stage at h
  split at h <;> split at h
  · rename_i hnil hnil'
    obtain ⟨ha, hanc⟩ := withAncestors_injective hxa hya h
    rw [hnil, hnil']
    exact ⟨ha, hanc, .rfl⟩
  · exact absurd h (not_synthetic hxa)
  · exact absurd h.symm (not_synthetic hya)
  · obtain ⟨hparent, hsame⟩ := synthetic_injective hdash hxh hyh h
    obtain ⟨ha, hanc⟩ := withAncestors_injective hxa hya hparent
    exact ⟨ha, hanc, hsame⟩

end Memory

end Constituency.Label

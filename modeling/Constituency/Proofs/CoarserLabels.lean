import Constituency.Proofs.MarkedTree

/-!
# Coarser labels

With lower orders a label tells less, and nothing that the label with higher orders does not tell.
So a marked label can be read back and marked again with lower orders.
-/

namespace Constituency

/-- The first orders are no higher than the second. Without a bound the horizontal order is the
highest. -/
structure Markovization.Coarser (m' m : Markovization) : Prop where
  vertical : m'.vertical ≤ m.vertical
  horizontal : ∀ h ∈ m.horizontal, ∃ h' ∈ m'.horizontal, h' ≤ h

namespace Label

variable {a parent : String} {ancestors history : List String} {memory memory' : Option Nat}
  {vertical : Nat} {m : Markovization}

/-- The history as a synthetic label tells it: the gap stands for whatever was forgotten. -/
def recalled (memory : Option Nat) (history : List String) : List String :=
  (if Forgets memory history then ["..."] else []) ++ remembered memory history

theorem recalled_of_not_forgets (h : ¬Forgets memory history) :
    recalled memory history = history := by
  cases memory with
  | none => simp [recalled, remembered, h]
  | some bound =>
    have hfits : history.length ≤ bound := by
      simp only [Forgets, length_remembered] at h
      omega
    simp [recalled, h, remembered, Nat.sub_eq_zero_of_le hfits]

/-- What remembers no more than a label does remembers the same of what the label tells. -/
theorem sameMemory_recalled (h : ∀ bound ∈ memory, ∃ bound' ∈ memory', bound' ≤ bound) :
    SameMemory memory' (recalled memory history) history := by
  by_cases hforgets : Forgets memory history
  · cases memory with
    | none => simp [Forgets, remembered] at hforgets
    | some bound =>
      obtain ⟨bound', hmemory, hle⟩ := h bound rfl
      cases hmemory
      have hlost : bound < history.length := by
        simp only [Forgets, length_remembered] at hforgets
        omega
      have hlength : (recalled (some bound) history).length = bound + 1 := by
        simp only [recalled, hforgets, if_true, List.length_append, length_remembered,
          List.length_singleton]
        omega
      constructor
      · have hgap : bound + 1 - bound' = bound - bound' + 1 := by omega
        have hrest : history.length - bound + (bound - bound') = history.length - bound' := by
          omega
        rw [remembered, hlength, hgap, recalled, if_pos hforgets, List.singleton_append,
          List.drop_succ_cons, remembered, List.drop_drop, hrest]
        rfl
      · simp only [Forgets, length_remembered, hlength]
        omega
  · rw [recalled_of_not_forgets hforgets]
    exact .rfl

/-- What follows the arrow of a synthetic label. -/
def historyText (memory : Option Nat) (history : List String) : List Char :=
  (if Forgets memory history then "..." else "").toList ++
    (remembered memory history).flatMap ('_' :: ·.toList)

theorem notMem_historyText (hclean : ∀ x ∈ history, IsClean x) :
    '-' ∉ historyText memory history := by
  have hlabels : ∀ x ∈ remembered memory history, '-' ∉ x.toList := fun x hx =>
    (hclean x (mem_of_mem_remembered hx)).notMem (by simp)
  unfold historyText
  split <;> simpa using hlabels

theorem splitOn_historyText (hclean : ∀ x ∈ history, IsClean x) :
    ((historyText memory history).splitOn '_').filter (!·.isEmpty) =
      (recalled memory history).map String.toList := by
  have hlabels : ∀ x ∈ remembered memory history, IsClean x := fun x hx =>
    hclean x (mem_of_mem_remembered hx)
  have hgap : '_' ∉ (if Forgets memory history then "..." else "").toList := by
    split <;> simp
  have hkept : ((remembered memory history).map String.toList).filter (!·.isEmpty) =
      (remembered memory history).map String.toList := by
    rw [List.filter_eq_self]
    intro l hl
    obtain ⟨x, hx, rfl⟩ := List.mem_map.mp hl
    simpa using (hlabels x hx).1
  rw [historyText, splitOn_append_flatMap hgap fun x hx => (hlabels x hx).notMem (by simp),
    recalled, List.map_append, List.filter_cons, hkept]
  split <;> rfl

/-- The parent that a label of a chain names, and the history that it tells. -/
def readStage (label : String) : String × List String :=
  match label.toList.splitOn '-' with
  | [parent, text] =>
    (String.ofList parent.tail,
      ((text.tail.splitOn '_').filter (!·.isEmpty)).map String.ofList)
  | _ => (label, [])

theorem readStage_stage (hparent : '-' ∉ parent.toList) (hclean : ∀ x ∈ history, IsClean x) :
    readStage (stage parent memory history) = (parent, recalled memory history) := by
  by_cases hnil : history = []
  · subst hnil
    have hwhole : ∀ l ∈ [parent.toList], '-' ∉ l := by simpa using hparent
    have hsplit : parent.toList.splitOn '-' = [parent.toList] := by
      simpa using List.splitOn_intercalate '-' hwhole
    rw [stage_nil, readStage, hsplit,
      recalled_of_not_forgets ((eq_nil_iff memory).mp rfl).2]
  · have hjoined : (synthetic parent memory history).toList =
        ['-'].intercalate ['@' :: parent.toList, '>' :: historyText memory history] := by
      simp [toList_synthetic, historyText]
    have hsplit : (synthetic parent memory history).toList.splitOn '-' =
        ['@' :: parent.toList, '>' :: historyText memory history] := by
      rw [hjoined]
      refine List.splitOn_intercalate '-' ?_ (by simp)
      simp [hparent, notMem_historyText hclean]
    rw [stage, if_neg hnil, readStage, hsplit]
    simp [splitOn_historyText hclean]

/-- The label with no more names than a vertical order asks for. -/
def keepAncestors (vertical : Nat) (label : String) : String :=
  "^".intercalate (((label.toList.splitOn '^').take vertical).map String.ofList)

theorem keepAncestors_withAncestors (hclean : ∀ x ∈ a :: ancestors, IsClean x)
    (hvertical : vertical ≠ 0) : keepAncestors vertical (withAncestors a ancestors) =
      withAncestors a (ancestors.take (vertical - 1)) := by
  obtain ⟨n, rfl⟩ := Nat.exists_eq_succ_of_ne_zero hvertical
  rw [keepAncestors, splitOn_withAncestors hclean]
  simp [withAncestors, List.map_take]

/-- A marked label as it would be with these orders. -/
def coarsen (m : Markovization) (label : String) : String :=
  stage (keepAncestors m.vertical (readStage label).1) m.horizontal (readStage label).2

example : coarsen ⟨2, some 1⟩ "@NP^VP^S->_DT_JJ" = "@NP^VP->..._JJ" := by decide +kernel

theorem coarsen_eq_self (h : IsClean a) (hvertical : m.vertical ≠ 0) : coarsen m a = a := by
  have hread : readStage (stage a none []) = (a, recalled none []) :=
    readStage_stage (h.notMem (by simp)) (by simp)
  have hkept : keepAncestors m.vertical (withAncestors a []) =
      withAncestors a ([].take (m.vertical - 1)) :=
    keepAncestors_withAncestors (by simpa using h) hvertical
  rw [stage_nil] at hread
  rw [List.take_nil, withAncestors_nil] at hkept
  rw [coarsen, hread, hkept]
  rfl

end Label

namespace Lineage

variable {m m' : Markovization} {l : Lineage} {history : List String} {c : String}

/-- The lineage as far as labels of these orders tell it. -/
def coarser (l : Lineage) (m : Markovization) : Lineage :=
  ⟨l.label, l.ancestors.take (m.vertical - 1), List.forall_mem_cons.mpr
    ⟨l.clean _ List.mem_cons_self, fun x hx =>
      l.clean x (List.mem_cons_of_mem _ (List.mem_of_mem_take hx))⟩⟩

theorem notMem_marked : '-' ∉ l.marked.toList :=
  Label.notMem_withAncestors (fun x hx => (l.clean x hx).notMem (by simp)) (by decide)

/-- Coarsening a label of a chain gives the label of the coarser chain. -/
theorem coarsen_stage (hcoarser : m'.Coarser m) (hvertical : m'.vertical ≠ 0)
    (hhistory : ∀ x ∈ history, Label.IsClean x) :
    Label.coarsen m' (Label.stage l.marked m.horizontal history) =
      Label.stage (l.coarser m').marked m'.horizontal history := by
  rw [Label.coarsen, Label.readStage_stage notMem_marked hhistory, marked,
    Label.keepAncestors_withAncestors l.clean hvertical]
  exact (Label.sameMemory_recalled hcoarser.horizontal).stage_eq

/-- A child takes up no more of a coarser lineage. -/
theorem coarser_child (hcoarser : m'.Coarser m) (h : Label.IsClean c) :
    (l.child m c h).coarser m' = (l.coarser m').child m' c h := by
  have hle : m'.vertical - 1 ≤ m.vertical - 1 := Nat.sub_le_sub_right hcoarser.vertical 1
  have hinherited : (l.inherited m).take (m'.vertical - 1) = (l.coarser m').inherited m' := by
    rw [inherited, List.take_take, Nat.min_eq_left hle]
    change _ = (l.label :: l.ancestors.take (m'.vertical - 1)).take (m'.vertical - 1)
    cases m'.vertical - 1 with
    | zero => rfl
    | succ n => simp [List.take_take]
  rw [coarser, child, mk.injEq]
  exact ⟨rfl, hinherited⟩

end Lineage

end Constituency

import Constituency.Proofs.ReadTrees

/-!
# Printed trees

The text of a tree spells its lexemes, if its labels can be read again. So the text of a tree is
read as the tree exactly if it has readable labels only, and texts with gaps between them are read
as the list of their trees.
-/

namespace Constituency

/-- All labels of the tree can be written down and read again. -/
def Tree.IsReadable (t : Tree) : Prop :=
  ∀ u ∈ t.subtrees, Brackets.IsReadable u.label

instance (t : Tree) : Decidable t.IsReadable :=
  inferInstanceAs (Decidable (∀ u ∈ t.subtrees, _))

namespace Brackets

/-- A gap between the texts of two trees. -/
def IsGap (gap : String) : Prop :=
  gap ≠ "" ∧ ∀ c ∈ gap.toList, c ∈ [' ', '\t', '\r', '\n']

instance (gap : String) : Decidable (IsGap gap) :=
  @instDecidableAnd _ _ inferInstance (List.decidableBAll _ _)

/-- The text of a tree and of others, each of them after a gap. -/
def joinedText (t : Tree) (others : List (String × Tree)) : String :=
  t.text ++ String.join (others.map fun (gap, u) => gap ++ u.text)

variable {cs : List Char} {ls : List Lexeme} {a gap : String} {t : Tree} {ts : List Tree}
  {others : List (String × Tree)}

/-- The text of the children of a node, and of the brackets around them. -/
theorem toList_text_node (h : ts ≠ []) : (Tree.node a ts).text.toList =
    '(' :: (a.toList ++ (ts.flatMap (fun t => ' ' :: t.text.toList) ++ [')'])) := by
  have hlabel (parts : List String) : (" ".intercalate (a :: parts)).toList =
      a.toList ++ parts.flatMap fun part => ' ' :: part.toList := by
    induction parts generalizing a with
    | nil => simp
    | cons part parts ih => simp [String.intercalate_cons_cons, ih]
  simp [Tree.text, h, hlabel, List.flatMap_map]

theorem spells_append {blanks : List Char} (h : ∀ c ∈ blanks, isBlank c = true)
    (rest : Spells cs ls) : Spells (blanks ++ cs) ls := by
  induction blanks with
  | nil => exact rest
  | cons c blanks ih =>
    obtain ⟨hc, hblanks⟩ := List.forall_mem_cons.mp h
    exact .blank hc (ih hblanks)

theorem IsGap.isBlank (h : IsGap gap) : ∀ c ∈ gap.toList, isBlank c = true := by
  intro c hc
  have hmem := h.2 c hc
  simp only [List.mem_cons, List.not_mem_nil, or_false] at hmem
  rcases hmem with rfl | rfl | rfl | rfl <;> decide

theorem IsGap.endsLabel (h : IsGap gap) : EndsLabel (gap.toList ++ cs) := by
  obtain ⟨hne, hall⟩ := h
  cases hgap : gap.toList with
  | nil => exact absurd (String.toList_eq_nil_iff.mp hgap) hne
  | cons c gap =>
    rw [hgap] at hall
    obtain ⟨hc, -⟩ := List.forall_mem_cons.mp hall
    rintro d ⟨⟩
    exact isLabelChar_eq_false_iff.mpr (by simp_all [labelEnds])

/-- The text of a tree spells its lexemes, in front of whatever ends a label. -/
theorem spells_text (ht : t.IsReadable) (hend : EndsLabel cs) (rest : Spells cs ls) :
    Spells (t.text.toList ++ cs) (t.lexemes ++ ls) := by
  induction t generalizing cs ls with
  | node a ts ih =>
    obtain ⟨ha, hts⟩ := Tree.forall_mem_subtrees_node.mp ht
    by_cases hleaf : ts = []
    · subst hleaf
      exact .label ha hend rest
    · have hchildren (us : List Tree) (hus : ∀ u ∈ us, u ∈ ts) :
          Spells (us.flatMap (fun u => ' ' :: u.text.toList) ++ ')' :: cs)
            (us.flatMap Tree.lexemes ++ .closing :: ls) ∧
          EndsLabel (us.flatMap (fun u => ' ' :: u.text.toList) ++ ')' :: cs) := by
        induction us with
        | nil => exact ⟨.closing rest, by rintro d ⟨⟩; rfl⟩
        | cons u us ihs =>
          obtain ⟨hu, hus⟩ := List.forall_mem_cons.mp hus
          obtain ⟨hrest, hends⟩ := ihs hus
          refine ⟨?_, by rintro d ⟨⟩; rfl⟩
          simp only [List.flatMap_cons, List.cons_append, List.append_assoc]
          exact .blank rfl (ih u hu (hts u hu) hends hrest)
      obtain ⟨hspells, hends⟩ := hchildren ts fun u hu => hu
      rw [toList_text_node hleaf, Tree.lexemes_node hleaf]
      simp only [List.cons_append, List.append_assoc, List.nil_append]
      exact .opening (.label ha hends hspells)

theorem label_mem_lexemes {u : Tree} (hu : u ∈ t.subtrees) : .label u.label ∈ t.lexemes := by
  induction t with
  | node a ts ih =>
    by_cases hleaf : ts = []
    · subst hleaf
      obtain rfl : u = .node a [] := by simpa using hu
      exact List.mem_singleton_self _
    · rw [Tree.lexemes_node hleaf]
      rw [Tree.subtrees_node, List.mem_cons, List.mem_flatMap] at hu
      rcases hu with rfl | ⟨t, ht, hu⟩
      · simp
      · have hmem : .label u.label ∈ ts.flatMap Tree.lexemes :=
          List.mem_flatMap.mpr ⟨t, ht, ih t ht hu⟩
        simp [hmem]

theorem spells_joinedText (ht : t.IsReadable)
    (hothers : ∀ item ∈ others, IsGap item.1 ∧ item.2.IsReadable) :
    Spells (joinedText t others).toList ((t :: others.map Prod.snd).flatMap Tree.lexemes) := by
  have htext : (joinedText t others).toList =
      t.text.toList ++ others.flatMap fun item => item.1.toList ++ item.2.text.toList := by
    simp [joinedText, List.flatMap_map]
  have hspells : Spells (others.flatMap fun item => item.1.toList ++ item.2.text.toList)
        ((others.map Prod.snd).flatMap Tree.lexemes) ∧
      EndsLabel (others.flatMap fun item => item.1.toList ++ item.2.text.toList) := by
    clear htext
    induction others with
    | nil => exact ⟨.nil, by rintro d ⟨⟩⟩
    | cons item others ih =>
      obtain ⟨⟨hgap, hitem⟩, hothers⟩ := List.forall_mem_cons.mp hothers
      obtain ⟨hrest, hends⟩ := ih hothers
      simp only [List.flatMap_cons, List.map_cons, List.append_assoc]
      exact ⟨spells_append hgap.isBlank (spells_text hitem hends hrest), hgap.endsLabel⟩
  rw [htext, List.flatMap_cons]
  exact spells_text ht hspells.2 hspells.1

/-- The text of a tree is read as the tree exactly if its labels are readable, and so are the texts
of such trees with gaps between them, as the list of the trees. -/
theorem read_text :
    (∀ t : Tree, readOne t.text = .ok t ↔ t.IsReadable) ∧
      ∀ (t : Tree) (others : List (String × Tree)), t.IsReadable →
        (∀ item ∈ others, IsGap item.1 ∧ item.2.IsReadable) →
          readMany (joinedText t others) = .ok (t :: others.map Prod.snd) := by
  constructor
  · intro t
    rw [readOne_eq_ok_iff, ← spells_iff]
    constructor
    · intro h u hu
      exact h.readable (label_mem_lexemes hu)
    · intro h
      have hspells : Spells (t.text.toList ++ []) (t.lexemes ++ []) :=
        spells_text h (by rintro d ⟨⟩) .nil
      simpa using hspells
  · intro t others ht hothers
    rw [readMany_eq_ok_iff, ← spells_iff]
    exact ⟨spells_joinedText ht hothers, .inl (List.cons_ne_nil _ _)⟩

/-- A label with a no-break space within it, and a word that ends in a vertical tab. -/
def spacedTree : Tree :=
  .node "A\u00a0B" [.leaf "c\x0b", .node "@" [.leaf "-"]]

/-- An unusual blank is part of a label, unless the label starts with it. -/
theorem read_text_spaced :
    readOne spacedTree.text = .ok spacedTree ∧
      readOne (Tree.leaf "\u00a0B").text ≠ .ok (.leaf "\u00a0B") ∧
      readMany (joinedText spacedTree [("\r\n", .leaf "d"), ("\t ", spacedTree)]) =
        .ok [spacedTree, .leaf "d", spacedTree] := by
  have hspaced : spacedTree.IsReadable := by decide +kernel
  have hothers : ∀ item ∈ [("\r\n", Tree.leaf "d"), ("\t ", spacedTree)],
      IsGap item.1 ∧ item.2.IsReadable := by decide +kernel
  refine ⟨(read_text.1 _).mpr hspaced, ?_, read_text.2 _ _ hspaced hothers⟩
  rw [ne_eq, read_text.1]
  decide +kernel

end Brackets

end Constituency

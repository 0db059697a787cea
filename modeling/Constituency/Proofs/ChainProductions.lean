import Mathlib.Data.List.Perm.Basic
import Constituency.Proofs.TaggedTree

/-!
# Chains of productions

A wide node is split into a chain, and its production into the productions of the nodes of the
chain. If the history is kept and no label has the character that joins the labels of a history, a
label of a chain tells the parent and the beginning of the list of children.
-/

namespace Constituency

namespace Label

/-- The label can be told from synthetic labels, and from the labels that it is joined with. -/
def IsJoinable (label : String) : Prop :=
  '_' ∉ label.toList ∧ startsSynthetic label = false

instance (label : String) : Decidable (IsJoinable label) :=
  inferInstanceAs (Decidable (_ ∧ _))

variable {a b parent parent' : String} {memory : Option Nat} {history history' : List String}

theorem IsJoinable.ne_synthetic (h : IsJoinable a) : a ≠ synthetic parent memory history := by
  rintro rfl
  simpa [startsSynthetic, toList_synthetic] using h.2

theorem toList_synthetic_none : (synthetic parent none history).toList =
    '@' :: (parent.toList ++ ['-', '>']) ++ history.flatMap ('_' :: ·.toList) := by
  simp [toList_synthetic, Forgets, remembered]

theorem synthetic_none_injective (hx : ∀ x ∈ parent :: history, IsJoinable x)
    (hy : ∀ y ∈ parent' :: history', IsJoinable y)
    (h : synthetic parent none history = synthetic parent' none history') :
    parent = parent' ∧ history = history' := by
  have read {a : String} {labels : List String} (hl : ∀ x ∈ a :: labels, IsJoinable x) :
      (synthetic a none labels).toList.splitOn '_' =
        ('@' :: (a.toList ++ ['-', '>'])) :: labels.map String.toList := by
    rw [toList_synthetic_none]
    refine splitOn_append_flatMap ?_ fun x hx => (hl x (List.mem_cons_of_mem a hx)).1
    simpa using (hl a List.mem_cons_self).1
  have hlists := (read hx).symm.trans ((congrArg (·.toList.splitOn '_') h).trans (read hy))
  obtain ⟨hparent, hhistory⟩ := List.cons.inj hlists
  exact ⟨String.toList_inj.mp (List.append_cancel_right (List.cons.inj hparent).2),
    List.map_injective_iff.mpr (fun _ _ => String.toList_inj.mp) hhistory⟩

/-- With the whole history in it, a label of a chain tells how far the chain has come. -/
theorem stage_none_injective (hx : ∀ x ∈ a :: history, IsJoinable x)
    (hy : ∀ y ∈ b :: history', IsJoinable y) (h : stage a none history = stage b none history') :
    a = b ∧ history = history' := by
  unfold stage at h
  split at h <;> split at h
  · rename_i hnil hnil'
    exact ⟨h, hnil.trans hnil'.symm⟩
  · exact absurd h (hx a List.mem_cons_self).ne_synthetic
  · exact absurd h.symm (hy b List.mem_cons_self).ne_synthetic
  · exact synthetic_none_injective hx hy h

end Label

/-- The productions of the nodes of a chain, from the node that splits off the first of the
children. -/
def chainProductions (parent : String) (memory : Option Nat) :
    (history children : List String) → List Production
  | history, a :: second :: third :: rest =>
    ⟨Label.stage parent memory history, [a, Label.stage parent memory (history ++ [a])]⟩ ::
      chainProductions parent memory (history ++ [a]) (second :: third :: rest)
  | history, children => [⟨Label.stage parent memory history, children⟩]

/-- The productions that a production is split into. -/
def Production.chain (memory : Option Nat) (p : Production) : List Production :=
  chainProductions p.parent memory [] p.children

theorem length_le_two {α : Type} {l : List α}
    (h : ∀ a b c rest, l = a :: b :: c :: rest → False) : l.length ≤ 2 := by
  match l with
  | [] | [_] | [_, _] => simp
  | a :: b :: c :: rest => exact absurd rfl (h a b c rest)

section Members

variable {parent a b c : String} {memory : Option Nat} {history children : List String}

theorem chainProductions_of_length_le (h : children.length ≤ 2) :
    chainProductions parent memory history children =
      [⟨Label.stage parent memory history, children⟩] := by
  match children with
  | [] | [_] | [_, _] => rfl

theorem children_of_mem_chainProductions {p : Production} (hne : children ≠ [])
    (h : p ∈ chainProductions parent memory history children) :
    p.children ≠ [] ∧ p.children.length ≤ 2 := by
  fun_induction chainProductions parent memory history children with
  | case1 history first second third rest ih =>
    rcases List.mem_cons.mp h with rfl | h
    · simp
    · exact ih (by simp) h
  | case2 history children hshort =>
    obtain rfl := List.mem_singleton.mp h
    exact ⟨hne, length_le_two hshort⟩

/-- Only an only child is not split. -/
theorem unary_mem_chainProductions
    (h : ⟨a, [b]⟩ ∈ chainProductions parent memory history children) :
    a = Label.stage parent memory history ∧ children = [b] := by
  fun_induction chainProductions parent memory history children with
  | case1 history first second third rest ih =>
    rcases List.mem_cons.mp h with h | h
    · simp at h
    · simpa using (ih h).2
  | case2 history children _ =>
    obtain ⟨ha, hchildren⟩ := Production.mk.inj (List.mem_singleton.mp h)
    exact ⟨ha, hchildren.symm⟩

/-- A node of a chain has a child, and the last child or the rest of the chain. -/
theorem binary_mem_chainProductions
    (h : ⟨a, [b, c]⟩ ∈ chainProductions parent memory history children) :
    ∃ front rest, children = front ++ b :: rest ∧
      a = Label.stage parent memory (history ++ front) ∧
      (rest = [c] ∨ c = Label.stage parent memory (history ++ front ++ [b])) := by
  fun_induction chainProductions parent memory history children with
  | case1 history first second third rest ih =>
    rcases List.mem_cons.mp h with h | h
    · simp only [Production.mk.injEq, List.cons.injEq, and_true] at h
      obtain ⟨rfl, rfl, rfl⟩ := h
      exact ⟨[], second :: third :: rest, rfl, by simp, .inr (by simp)⟩
    · obtain ⟨front, rest', hchildren, ha, hc⟩ := ih h
      exact ⟨first :: front, rest', by simp [hchildren], by simpa using ha, by simpa using hc⟩
  | case2 history children _ =>
    obtain ⟨rfl, rfl⟩ := Production.mk.inj (List.mem_singleton.mp h)
    exact ⟨[], [c], rfl, by simp, .inl rfl⟩

end Members

namespace Tree

variable {m : Markovization} {a : String} {t : Tree} {ts : List Tree}

theorem productions_node (h : ts ≠ []) (hleaf : ∀ t ∈ ts, t.isLeaf = false) :
    (node a ts).productions = ⟨a, ts.map label⟩ :: ts.flatMap productions := by
  have hpreterminal : (node a ts).isPreterminal = false := by
    match ts with
    | [t] => exact hleaf t List.mem_cons_self
    | [] | _ :: _ :: _ => rfl
  simp [productions, production, h, hpreterminal, List.filter_flatMap, List.map_flatMap]
  rfl

theorem taggings_node (hleaf : ∀ t ∈ ts, t.isLeaf = false) :
    (node a ts).taggings = ts.flatMap taggings := by
  have hpreterminal : (node a ts).isPreterminal = false := by
    match ts with
    | [t] => exact hleaf t List.mem_cons_self
    | [] | _ :: _ :: _ => rfl
  simp [taggings, hpreterminal, List.filter_flatMap, List.flatMap_assoc]
  rfl

section Chain

variable {parent : String} {memory : Option Nat} {history : List String}
  {children : List (String × Tree)}

theorem isLeaf_eq_false_of_mem_chain (h : ∀ child ∈ children, child.2.isLeaf = false) :
    ∀ t ∈ chain parent memory history children, t.isLeaf = false := by
  unfold chain
  split
  · simpa [chain_ne_nil] using (List.forall_mem_cons.mp h).1
  · intro t ht
    obtain ⟨child, hchild, rfl⟩ := List.mem_map.mp ht
    exact h child hchild

/-- The nodes of a chain have the productions that the one above them is split into. -/
theorem productions_chain (hne : children ≠ [])
    (h : ∀ child ∈ children, child.2.label = child.1 ∧ child.2.isLeaf = false) :
    (node (Label.stage parent memory history)
        (chain parent memory history children)).productions.Perm
      (chainProductions parent memory history (children.map (·.1)) ++
        children.flatMap fun child => child.2.productions) := by
  fun_induction chain parent memory history children with
  | case1 history b t second third rest ih =>
    obtain ⟨⟨hlabel, hleaf⟩, hrest⟩ := List.forall_mem_cons.mp h
    obtain rfl : t.label = b := hlabel
    have hchain := ih (by simp) hrest
    rw [Label.stage_concat] at hchain
    rw [productions_node (by simp) (by simpa [chain_ne_nil] using hleaf)]
    simp only [List.map_cons, List.map_nil, label_node, chainProductions, Label.stage_concat,
      List.flatMap_cons, List.flatMap_nil, List.append_nil, List.cons_append] at hchain ⊢
    refine .cons _ ((hchain.append_left _).trans ?_)
    exact List.perm_append_comm_assoc _ _ _
  | case2 history children hshort =>
    have hlength : children.length ≤ 2 := length_le_two fun child => hshort child.1 child.2
    rw [productions_node (by simpa using hne) (by simpa using fun t a ht => (h (a, t) ht).2),
      chainProductions_of_length_le (by simpa using hlength)]
    have hlabels : (children.map (·.2)).map label = children.map (·.1) := by
      simpa using fun a t ht => (h (a, t) ht).1
    rw [hlabels, List.flatMap_map]
    exact .refl _

/-- Synthetic nodes are no tags. -/
theorem flatMap_taggings_chain (h : ∀ child ∈ children, child.2.isLeaf = false) :
    (chain parent memory history children).flatMap taggings =
      children.flatMap fun child => child.2.taggings := by
  fun_induction chain parent memory history children with
  | case1 history b t second third rest ih =>
    obtain ⟨-, hrest⟩ := List.forall_mem_cons.mp h
    simp only [List.flatMap_cons, List.flatMap_nil, List.append_nil] at ih ⊢
    rw [taggings_node (isLeaf_eq_false_of_mem_chain hrest), ih hrest]
  | case2 history children _ => rw [List.flatMap_map]

end Chain

variable (hm : m.vertical = 1) (h : t.IsTagged)
include hm h

/-- Without marks of ancestors, the productions of a tree are just split. -/
theorem IsTagged.productions_markedBelow : (t.markedBelow m []).productions.Perm
    (t.productions.flatMap (Production.chain m.horizontal)) := by
  induction t, h using IsTagged.induction with
  | leaf word => exact .refl _
  | tag a word => exact .refl _
  | node a ts h hne hleaf ih =>
    have hchild : ∀ t ∈ ts, (t.markedBelow m []).label = t.label := fun t ht => by
      rw [label_markedBelow (hleaf t ht), Label.withAncestors_nil]
    have hbelow : (a :: ([] : List String)).take (m.vertical - 1) = [] := by simp [hm]
    have hchain : (node (Label.stage a m.horizontal []) (chain a m.horizontal []
        (ts.map fun t => (t.label, t.markedBelow m [])))).productions.Perm _ :=
      productions_chain (by simpa using hne)
        (by simpa [isLeaf_markedBelow] using fun t ht => ⟨hchild t ht, hleaf t ht⟩)
    rw [Label.stage_nil, List.map_map, List.flatMap_map] at hchain
    rw [markedBelow_node hne, hbelow, Label.withAncestors_nil, productions_node hne hleaf,
      List.flatMap_cons, List.flatMap_assoc]
    refine hchain.trans (.append_left _ ?_)
    exact .flatMap_left _ fun t ht => ih t ht ((isTagged_node.mp h).2 t ht)

/-- Without marks of ancestors, the tags of a tree stay the same. -/
theorem IsTagged.taggings_markedBelow : (t.markedBelow m []).taggings = t.taggings := by
  induction t, h using IsTagged.induction with
  | leaf word => rfl
  | tag a word =>
    rw [markedBelow_node (by simp), Label.withAncestors_nil]
    rfl
  | node a ts h hne hleaf ih =>
    have hbelow : (a :: ([] : List String)).take (m.vertical - 1) = [] := by simp [hm]
    have hmarked : ∀ t ∈ ts, (t.markedBelow m []).taggings = t.taggings := fun t ht =>
      ih t ht ((isTagged_node.mp h).2 t ht)
    have hchildren : ∀ child ∈ ts.map fun t => (t.label, t.markedBelow m []),
        child.2.isLeaf = false := by
      simpa [isLeaf_markedBelow] using hleaf
    rw [markedBelow_node hne, hbelow, Label.withAncestors_nil,
      taggings_node (isLeaf_eq_false_of_mem_chain hchildren), flatMap_taggings_chain hchildren,
      List.flatMap_map, taggings_node hleaf]
    exact List.flatMap_congr hmarked

end Tree

end Constituency

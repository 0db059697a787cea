import Constituency.Proofs.Derivation
import Constituency.Proofs.Steps
import Constituency.RuleIndex

/-!
# Trained rules

A rule index keeps its rules where they are looked up, and those of a treebank are read off its
productions.
-/

namespace Constituency

variable {π σ : Type}

theorem flatten_values {ρ : Type} {index : Std.TreeMap String (List ρ)} :
    index.values.flatten = index.toList.flatMap Prod.snd := by
  have hvalues : index.values = index.toList.map Prod.snd := by
    change index.inner.inner.values =
      (Std.DTreeMap.Internal.Impl.Const.toList index.inner.inner).map Prod.snd
    rw [Std.DTreeMap.Internal.Impl.values_eq_map_snd,
      Std.DTreeMap.Internal.Impl.Const.toList_eq_toListModel_map, List.map_map]
    rfl
  rw [hvalues, List.flatMap_def]

theorem mem_flatten_values {ρ : Type} {index : Std.TreeMap String (List ρ)} {rule : ρ} :
    rule ∈ index.values.flatten ↔ ∃ label, rule ∈ index.getD label [] := by
  simp only [flatten_values, List.mem_flatMap, Prod.exists,
    Std.TreeMap.mem_toList_iff_getElem?_eq_some, Std.TreeMap.getD_eq_getD_getElem?]
  constructor
  · intro h
    obtain ⟨label, rules, hlabel, hrule⟩ := h
    exact ⟨label, by simpa [hlabel] using hrule⟩
  · intro h
    obtain ⟨label, hrule⟩ := h
    cases h : index[label]? with
    | none => simp [h] at hrule
    | some rules => exact ⟨label, rules, h, by simpa [h] using hrule⟩

/-- The rules under a label come before or after those under the other labels. -/
theorem flatMap_toList_perm {ρ : Type} {index : Std.TreeMap String (List ρ)} (label : String) :
    (index.toList.flatMap Prod.snd).Perm (index.getD label [] ++
      (index.toList.filter fun item => ¬(label == item.1) = true).flatMap Prod.snd) := by
  rw [Std.TreeMap.getD_eq_getD_getElem?]
  cases h : index[label]? with
  | none =>
    rw [List.filter_eq_self.mpr]
    · exact .refl _
    · intro item hitem
      have hget := Std.TreeMap.mem_toList_iff_getElem?_eq_some.mp hitem
      have hne : label ≠ item.1 := by
        rintro rfl
        simp [h] at hget
      simpa using hne
  | some rules =>
    have hsame : (index.insert label rules).Equiv index := by
      apply Std.TreeMap.Equiv.of_forall_constGet?_eq
      intro other
      by_cases ho : label = other
      · subst ho
        simp [h]
      · simp [Std.TreeMap.getElem?_insert, ho]
    have hperm : (index.insert label rules).toList.Perm _ := Std.TreeMap.toList_insert_perm
    rw [hsame.toList_eq] at hperm
    exact hperm.flatMap_right _

/-- A rule that is added under a child is one more among all. -/
theorem flatten_values_addUnder {ρ : Type} {index : Std.TreeMap String (List ρ)} {child : String}
    {rule : ρ} : (RuleIndex.addUnder index child rule).values.flatten.Perm
      (rule :: index.values.flatten) := by
  rw [flatten_values, flatten_values]
  let rest := (index.toList.filter fun item => ¬(child == item.1) = true).flatMap Prod.snd
  have hadded : ((RuleIndex.addUnder index child rule).toList.flatMap Prod.snd).Perm
      ((index.getD child [] ++ [rule]) ++ rest) :=
    Std.TreeMap.toList_insert_perm.flatMap_right _
  have hmoved : ((index.getD child [] ++ [rule]) ++ rest).Perm
      (rule :: (index.getD child [] ++ rest)) := by
    rw [List.append_assoc]
    exact List.perm_middle
  exact hadded.trans (hmoved.trans ((flatMap_toList_perm child).symm.cons rule))

namespace RuleIndex

/-- Every rule stands under its children, and a rule with two children under both. -/
structure WellIndexed (rules : RuleIndex σ) : Prop where
  child : ∀ rule label, rule ∈ rules.toGrammar.unaryByChild label → rule.child = label
  left : ∀ rule label, rule ∈ rules.toGrammar.binaryByLeft label → rule.left = label
  right : ∀ rule label, rule ∈ rules.toGrammar.binaryByRight label → rule.right = label
  both : ∀ rule, rule ∈ rules.toGrammar.binaryByLeft rule.left ↔
    rule ∈ rules.toGrammar.binaryByRight rule.right

/-- All rules of an index. -/
def toRules [Score σ] (rules : RuleIndex σ) : Rules σ where
  unary := rules.unaryRules
  binary := rules.binaryRules

variable {rules : RuleIndex σ}

theorem mem_unary_toRules [Score σ] {rule : UnaryRule σ} :
    rule ∈ rules.toRules.unary ↔ ∃ label, rule ∈ rules.toGrammar.unaryByChild label :=
  List.mem_mergeSort.trans mem_flatten_values

theorem mem_binary_toRules [Score σ] {rule : BinaryRule σ} :
    rule ∈ rules.toRules.binary ↔ ∃ label, rule ∈ rules.toGrammar.binaryByLeft label :=
  List.mem_mergeSort.trans mem_flatten_values

/-- The lookups of an index list its rules. -/
theorem WellIndexed.lists [Score σ] (h : rules.WellIndexed) :
    rules.toGrammar.Lists rules.toRules where
  mem_unaryByChild {rule label} := by
    rw [mem_unary_toRules]
    constructor
    · intro hrule
      exact ⟨⟨label, hrule⟩, h.child rule label hrule⟩
    · intro hrule
      obtain ⟨⟨other, hrule⟩, rfl⟩ := hrule
      rwa [h.child rule other hrule]
  mem_binaryByLeft {rule label} := by
    rw [mem_binary_toRules]
    constructor
    · intro hrule
      exact ⟨⟨label, hrule⟩, h.left rule label hrule⟩
    · intro hrule
      obtain ⟨⟨other, hrule⟩, rfl⟩ := hrule
      rwa [h.left rule other hrule]
  mem_binaryByRight {rule label} := by
    rw [mem_binary_toRules]
    constructor
    · intro hrule
      have hlabel := h.right rule label hrule
      subst hlabel
      exact ⟨⟨rule.left, (h.both rule).mpr hrule⟩, rfl⟩
    · intro hrule
      obtain ⟨⟨other, hrule⟩, rfl⟩ := hrule
      have hlabel := h.left rule other hrule
      subst hlabel
      exact (h.both rule).mp hrule

theorem wellIndexed_empty : ({} : RuleIndex σ).WellIndexed := by
  constructor <;> simp [toGrammar]

section Pushing

variable {unary pushedUnary : UnaryRule σ} {binary pushedBinary : BinaryRule σ} {label : String}

theorem mem_unaryByChild_pushUnary :
    unary ∈ (rules.pushUnary pushedUnary).toGrammar.unaryByChild label ↔
      unary ∈ rules.toGrammar.unaryByChild label ∨
        pushedUnary.child = label ∧ unary = pushedUnary := by
  rw [unaryByChild_pushUnary]
  simp

theorem mem_binaryByLeft_pushBinary :
    binary ∈ (rules.pushBinary pushedBinary).toGrammar.binaryByLeft label ↔
      binary ∈ rules.toGrammar.binaryByLeft label ∨
        pushedBinary.left = label ∧ binary = pushedBinary := by
  rw [binaryByLeft_pushBinary]
  simp

theorem mem_binaryByRight_pushBinary :
    binary ∈ (rules.pushBinary pushedBinary).toGrammar.binaryByRight label ↔
      binary ∈ rules.toGrammar.binaryByRight label ∨
        pushedBinary.right = label ∧ binary = pushedBinary := by
  rw [binaryByRight_pushBinary]
  simp

end Pushing

theorem WellIndexed.pushUnary (h : rules.WellIndexed) (rule : UnaryRule σ) :
    (rules.pushUnary rule).WellIndexed where
  child other label hother := by
    rcases mem_unaryByChild_pushUnary.mp hother with hother | ⟨hlabel, rfl⟩
    · exact h.child other label hother
    · exact hlabel
  left := h.left
  right := h.right
  both := h.both

theorem WellIndexed.pushBinary (h : rules.WellIndexed) (rule : BinaryRule σ) :
    (rules.pushBinary rule).WellIndexed where
  child := h.child
  left other label hother := by
    rcases mem_binaryByLeft_pushBinary.mp hother with hother | ⟨hlabel, rfl⟩
    · exact h.left other label hother
    · exact hlabel
  right other label hother := by
    rcases mem_binaryByRight_pushBinary.mp hother with hother | ⟨hlabel, rfl⟩
    · exact h.right other label hother
    · exact hlabel
  both other := by
    rw [mem_binaryByLeft_pushBinary, mem_binaryByRight_pushBinary, h.both]
    apply or_congr_right
    constructor
    · intro hother
      exact ⟨hother.2 ▸ rfl, hother.2⟩
    · intro hother
      exact ⟨hother.2 ▸ rfl, hother.2⟩

section Trees

variable [Probability π σ] {trees : List Tree} {rules' : RuleIndex σ} {production : Production}
  {p : π}

theorem addProduction_cases (h : rules.addProduction production p = .ok rules') :
    rules' = rules ∨
      (∃ rule : UnaryRule σ, production = ⟨rule.parent, [rule.child]⟩ ∧
        rules' = rules.pushUnary rule) ∨
      ∃ rule : BinaryRule σ, production = ⟨rule.parent, [rule.left, rule.right]⟩ ∧
        rules' = rules.pushBinary rule := by
  obtain ⟨parent, children⟩ := production
  unfold addProduction addUnary addBinary at h
  split at h
  · rename_i child hchildren
    split at h
    · exact .inl (Except.ok.inj h).symm
    · obtain ⟨score, _, rfl⟩ := map_eq_ok.mp h
      exact .inr (.inl ⟨_, by rw [← hchildren], rfl⟩)
  · rename_i left right hchildren
    split at h
    · exact .inl (Except.ok.inj h).symm
    · obtain ⟨score, _, rfl⟩ := map_eq_ok.mp h
      exact .inr (.inr ⟨_, by rw [← hchildren], rfl⟩)
  · exact .inl (Except.ok.inj h).symm

/-- What holds of the empty index and is kept by the rules of the productions, holds of the index of
the trees. -/
theorem ofTrees_keeps (inv : RuleIndex σ → Prop) (hempty : inv {})
    (hunary : ∀ rules rule, ⟨rule.parent, [rule.child]⟩ ∈ trees.flatMap Tree.productions →
      inv rules → inv (rules.pushUnary rule))
    (hbinary : ∀ rules rule,
      ⟨rule.parent, [rule.left, rule.right]⟩ ∈ trees.flatMap Tree.productions →
        inv rules → inv (rules.pushBinary rule))
    (h : ofTrees π trees = .ok rules) : inv rules := by
  unfold ofTrees at h
  refine foldlM_keeps (fun _ => inv) ?_ hempty h
  intro (production, count) hitem _ rules rules' hinv hstep
  have hget := Std.TreeMap.mem_toList_iff_getElem?_eq_some.mp hitem
  have hcounted := mem_tally.mp (Std.TreeMap.mem_iff_isSome_getElem?.mpr (by rw [hget]; rfl))
  have hmem : production ∈ trees.flatMap Tree.productions := (List.mem_filter.mp hcounted).1
  rcases addProduction_cases hstep with rfl | ⟨rule, rfl, rfl⟩ | ⟨rule, rfl, rfl⟩
  · exact hinv
  · exact hunary rules rule hmem hinv
  · exact hbinary rules rule hmem hinv

theorem wellIndexed_ofTrees (h : ofTrees π trees = .ok rules) : rules.WellIndexed :=
  ofTrees_keeps WellIndexed wellIndexed_empty (fun _ rule _ h => h.pushUnary rule)
    (fun _ rule _ h => h.pushBinary rule) h

/-- The rules of a treebank are those of its productions. -/
theorem unary_ofTrees [Score σ] (h : ofTrees π trees = .ok rules) :
    ∀ rule ∈ rules.toRules.unary, ⟨rule.parent, [rule.child]⟩ ∈ trees.flatMap Tree.productions := by
  simp only [mem_unary_toRules, forall_exists_index]
  refine ofTrees_keeps (fun rules => ∀ rule label, rule ∈ rules.toGrammar.unaryByChild label →
    Production.mk rule.parent [rule.child] ∈ trees.flatMap Tree.productions) (by simp [toGrammar])
    ?_ (fun _ _ _ hrules => hrules) h
  intro rules pushed hpushed hrules rule label hrule
  rcases mem_unaryByChild_pushUnary.mp hrule with hrule | ⟨_, rfl⟩
  · exact hrules rule label hrule
  · exact hpushed

theorem binary_ofTrees [Score σ] (h : ofTrees π trees = .ok rules) :
    ∀ rule ∈ rules.toRules.binary,
      ⟨rule.parent, [rule.left, rule.right]⟩ ∈ trees.flatMap Tree.productions := by
  simp only [mem_binary_toRules, forall_exists_index]
  refine ofTrees_keeps (fun rules => ∀ rule label, rule ∈ rules.toGrammar.binaryByLeft label →
    Production.mk rule.parent [rule.left, rule.right] ∈ trees.flatMap Tree.productions)
    (by simp [toGrammar]) (fun _ _ _ hrules => hrules) ?_ h
  intro rules pushed hpushed hrules rule label hrule
  rcases mem_binaryByLeft_pushBinary.mp hrule with hrule | ⟨_, rfl⟩
  · exact hrules rule label hrule
  · exact hpushed

end Trees

section Counted

/-- Adds a production with one or two children as a rule. -/
def push (rules : RuleIndex σ) (production : Production) (score : σ) : RuleIndex σ :=
  match production.children with
  | [child] => rules.pushUnary { parent := production.parent, child, score }
  | [left, right] => rules.pushBinary { parent := production.parent, left, right, score }
  | _ => rules

theorem addProduction_eq_ok [Probability π σ] {production : Production} {p : π}
    (hvalid : Probability.isValid p = true) (hzero : Probability.isZero p = false) :
    rules.addProduction production p = .ok (rules.push production (Probability.log p)) := by
  obtain ⟨parent, children⟩ := production
  match children with
  | [] | [_] | [_, _] | _ :: _ :: _ :: _ =>
    simp [addProduction, push, addUnary, addBinary, Probability.score, hvalid, hzero, Except.map]

variable [Score σ] {production : Production} {score : σ} {unary : UnaryRule σ}
  {binary : BinaryRule σ} {items : List (Production × σ)}

theorem mem_unary_push : unary ∈ (rules.push production score).toRules.unary ↔
    unary ∈ rules.toRules.unary ∨
      (⟨unary.parent, [unary.child]⟩, unary.score) = (production, score) := by
  obtain ⟨parent, children⟩ := production
  obtain ⟨a, b, s⟩ := unary
  simp only [mem_unary_toRules, push]
  split
  · rename_i child hchildren
    simp only [mem_unaryByChild_pushUnary, exists_or, exists_eq_left']
    simp_all [and_assoc]
  · rename_i left right hchildren
    simp_all [pushBinary, toGrammar]
  · rename_i hone _
    have hne : children ≠ [b] := hone b
    simp [hne.symm]

theorem mem_binary_push : binary ∈ (rules.push production score).toRules.binary ↔
    binary ∈ rules.toRules.binary ∨
      (⟨binary.parent, [binary.left, binary.right]⟩, binary.score) = (production, score) := by
  obtain ⟨parent, children⟩ := production
  obtain ⟨a, b, c, s⟩ := binary
  simp only [mem_binary_toRules, push]
  split
  · rename_i child hchildren
    simp_all [pushUnary, toGrammar]
  · rename_i left right hchildren
    simp only [mem_binaryByLeft_pushBinary, exists_or, exists_eq_left']
    simp_all [and_assoc]
  · rename_i _ htwo
    have hne : children ≠ [b, c] := htwo b c
    simp [hne.symm]

theorem mem_unary_foldl_push :
    unary ∈ (items.foldl (fun rules item => rules.push item.1 item.2) rules).toRules.unary ↔
      unary ∈ rules.toRules.unary ∨
        (⟨unary.parent, [unary.child]⟩, unary.score) ∈ items := by
  induction items generalizing rules with
  | nil => simp
  | cons item items ih => rw [List.foldl_cons, ih, mem_unary_push, List.mem_cons, or_assoc]

theorem mem_binary_foldl_push :
    binary ∈ (items.foldl (fun rules item => rules.push item.1 item.2) rules).toRules.binary ↔
      binary ∈ rules.toRules.binary ∨
        (⟨binary.parent, [binary.left, binary.right]⟩, binary.score) ∈ items := by
  induction items generalizing rules with
  | nil => simp
  | cons item items ih => rw [List.foldl_cons, ih, mem_binary_push, List.mem_cons, or_assoc]

end Counted

end RuleIndex

/-- The tags of a treebank are those of its taggings. -/
theorem TagCounts.mem_tags_ofTrees [Probability π σ] {trees : List Tree} {tag : String} :
    tag ∈ ((TagCounts.ofTrees trees).toLexicon π).tags ↔
      ∃ tagging ∈ trees.flatMap Tree.taggings, tagging.tag = tag := by
  rw [toLexicon, Std.TreeMap.mem_keys, ofTrees, ofTaggings, mem_tally, List.mem_map]

end Constituency

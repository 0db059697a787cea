import Constituency.Proofs.InvalidScores
import Constituency.Proofs.Shares

/-!
# Additions to an index

An index that rules are added to keeps those that are accepted, and nothing else. Whatever was asked
of it before, its lookups list them in the order of the additions, a binary rule stands under both
of its children, and the counts are those of the rules.
-/

namespace Constituency

variable {π σ : Type}

namespace RuleIndex

variable {rules : RuleIndex σ} {unary : List (UnaryRule σ)} {binary : List (BinaryRule σ)}

/-- The rules of an index in the order in which they were added. -/
structure Keeps (rules : RuleIndex σ) (unary : List (UnaryRule σ))
    (binary : List (BinaryRule σ)) : Prop where
  byChild (label : String) :
    rules.toGrammar.unaryByChild label = unary.filter (·.child = label)
  byLeft (label : String) :
    rules.toGrammar.binaryByLeft label = binary.filter (·.left = label)
  byRight (label : String) :
    rules.toGrammar.binaryByRight label = binary.filter (·.right = label)
  unaryCount : rules.unaryCount = unary.length
  binaryCount : rules.binaryCount = binary.length
  unaryValues : rules.byChild.values.flatten.Perm unary
  binaryValues : rules.byLeft.values.flatten.Perm binary

theorem keeps_empty : ({} : RuleIndex σ).Keeps [] [] where
  byChild label := by simp [toGrammar]
  byLeft label := by simp [toGrammar]
  byRight label := by simp [toGrammar]
  unaryCount := rfl
  binaryCount := rfl
  unaryValues := .refl []
  binaryValues := .refl []

theorem Keeps.pushUnary (h : rules.Keeps unary binary) (rule : UnaryRule σ) :
    (rules.pushUnary rule).Keeps (unary ++ [rule]) binary where
  byChild label := by
    rw [unaryByChild_pushUnary, h.byChild, List.filter_append, List.filter_singleton]
    simp
  byLeft := h.byLeft
  byRight := h.byRight
  unaryCount := by
    rw [List.length_append, ← h.unaryCount]
    rfl
  binaryCount := h.binaryCount
  unaryValues := flatten_values_addUnder.trans
    ((h.unaryValues.cons rule).trans (List.perm_append_singleton rule unary).symm)
  binaryValues := h.binaryValues

theorem Keeps.pushBinary (h : rules.Keeps unary binary) (rule : BinaryRule σ) :
    (rules.pushBinary rule).Keeps unary (binary ++ [rule]) where
  byChild := h.byChild
  byLeft label := by
    rw [binaryByLeft_pushBinary, h.byLeft, List.filter_append, List.filter_singleton]
    simp
  byRight label := by
    rw [binaryByRight_pushBinary, h.byRight, List.filter_append, List.filter_singleton]
    simp
  unaryCount := h.unaryCount
  binaryCount := by
    rw [List.length_append, ← h.binaryCount]
    rfl
  unaryValues := h.unaryValues
  binaryValues := flatten_values_addUnder.trans
    ((h.binaryValues.cons rule).trans (List.perm_append_singleton rule binary).symm)

variable [Score σ]

theorem Keeps.unaryRules_perm (h : rules.Keeps unary binary) : rules.unaryRules.Perm unary :=
  (List.mergeSort_perm _ _).trans h.unaryValues

theorem Keeps.binaryRules_perm (h : rules.Keeps unary binary) : rules.binaryRules.Perm binary :=
  (List.mergeSort_perm _ _).trans h.binaryValues

end RuleIndex

/-- A rule that an index is asked to add. -/
inductive Addition (π : Type) where
  | unary (parent child : String) (p : π)
  | binary (parent left right : String) (p : π)

namespace Addition

def probability : Addition π → π
  | unary _ _ p => p
  | binary _ _ _ p => p

/-- The addition of a production with one or two children. -/
def ofProduction? (production : Production) (p : π) : Option (Addition π) :=
  match production.children with
  | [child] => some (unary production.parent child p)
  | [left, right] => some (binary production.parent left right p)
  | _ => none

variable [Probability π σ]

/-- The probability is one, and not that of a rule that never applies. -/
def isAccepted (addition : Addition π) : Bool :=
  Probability.isValid addition.probability && !Probability.isZero addition.probability

/-- The unary rule that is accepted, if it is one. -/
def unaryRule? : Addition π → Option (UnaryRule σ)
  | unary parent child p =>
    if (unary parent child p).isAccepted then
      some { parent, child, score := Probability.log p }
    else none
  | binary .. => none

/-- The binary rule that is accepted, if it is one. -/
def binaryRule? : Addition π → Option (BinaryRule σ)
  | unary .. => none
  | binary parent left right p =>
    if (binary parent left right p).isAccepted then
      some { parent, left, right, score := Probability.log p }
    else none

/-- What an index is asked to add for a treebank: its different productions in ascending order. -/
def ofTrees (π : Type) [Probability π σ] (trees : List Tree) : List (Addition π) :=
  (tally (countedProductions trees)).keys.filterMap fun p => ofProduction? p (p.share π trees)

end Addition

namespace RuleIndex

variable [Probability π σ] {rules rules' : RuleIndex σ} {addition : Addition π}
  {additions : List (Addition π)} {unary : List (UnaryRule σ)} {binary : List (BinaryRule σ)}

/-- Asks the index to add a rule. -/
def add (rules : RuleIndex σ) : Addition π → Except (InvalidProbability π) (RuleIndex σ)
  | .unary parent child p => rules.addUnary parent child p
  | .binary parent left right p => rules.addBinary parent left right p

/-- The index that was asked to add a rule. A request that fails has no effect. -/
def after (rules : RuleIndex σ) (addition : Addition π) : RuleIndex σ :=
  match rules.add addition with
  | .ok rules' => rules'
  | .error _ => rules

/-- An index that has been asked for these additions, since it was empty. The rules of a treebank
may come first. -/
inductive Built : RuleIndex σ → List (Addition π) → Prop where
  | empty : Built {} []
  | trees {trees : List Tree} {rules : RuleIndex σ} (h : ofTrees π trees = .ok rules) :
      Built rules (Addition.ofTrees π trees)
  | add {rules : RuleIndex σ} {additions : List (Addition π)} (h : Built rules additions)
      (addition : Addition π) : Built (rules.after addition) (additions ++ [addition])

/-- The index with the rule of an addition. -/
def pushAddition (rules : RuleIndex σ) : Addition π → RuleIndex σ
  | .unary parent child p => rules.pushUnary { parent, child, score := Probability.log p }
  | .binary parent left right p =>
    rules.pushBinary { parent, left, right, score := Probability.log p }

theorem add_eq : rules.add addition =
    if Probability.isZero addition.probability then .ok rules
    else if Probability.isValid addition.probability then .ok (rules.pushAddition addition)
    else .error ⟨addition.probability⟩ := by
  cases hzero : Probability.isZero addition.probability with
  | true => cases addition <;> exact if_pos hzero
  | false =>
    cases hvalid : Probability.isValid addition.probability <;> cases addition <;>
      simp_all only [add, addUnary, addBinary, Addition.probability, Probability.score] <;> rfl

theorem add_eq_error_iff {e : InvalidProbability π} : rules.add addition = .error e ↔
    Probability.isRefused addition.probability = true ∧ e = ⟨addition.probability⟩ := by
  rw [add_eq, Probability.isRefused]
  cases Probability.isZero addition.probability with
  | true => simp
  | false =>
    cases Probability.isValid addition.probability with
    | true => simp
    | false => simp [eq_comm]

theorem after_eq : rules.after addition =
    if addition.isAccepted then rules.pushAddition addition else rules := by
  rw [after, add_eq, Addition.isAccepted]
  cases Probability.isZero addition.probability <;>
    cases Probability.isValid addition.probability <;> rfl

theorem Keeps.after (h : rules.Keeps unary binary) (addition : Addition π) :
    (rules.after addition).Keeps (unary ++ addition.unaryRule?.toList)
      (binary ++ addition.binaryRule?.toList) := by
  rw [after_eq]
  cases addition with
  | unary parent child p =>
    simp only [Addition.unaryRule?, Addition.binaryRule?, Option.toList_none, List.append_nil]
    split
    · exact h.pushUnary _
    · simpa using h
  | binary parent left right p =>
    simp only [Addition.unaryRule?, Addition.binaryRule?, Option.toList_none, List.append_nil]
    split
    · exact h.pushBinary _
    · simpa using h

theorem addProduction_eq {production : Production} {p : π} :
    rules.addProduction production p =
      match Addition.ofProduction? production p with
      | some addition => rules.add addition
      | none => .ok rules := by
  obtain ⟨parent, children⟩ := production
  match children with
  | [] | [_] | [_, _] | _ :: _ :: _ :: _ => rfl

/-- Productions that are added without an error are additions one by one. -/
theorem Keeps.addProductions {share : Production → π} {productions : List Production}
    (h : rules.Keeps unary binary)
    (hadd : productions.foldlM (fun rules p => rules.addProduction p (share p)) rules =
      .ok rules') :
    rules'.Keeps
      (unary ++ (productions.filterMap fun p =>
        Addition.ofProduction? p (share p)).filterMap Addition.unaryRule?)
      (binary ++ (productions.filterMap fun p =>
        Addition.ofProduction? p (share p)).filterMap Addition.binaryRule?) := by
  induction productions generalizing rules unary binary with
  | nil =>
    obtain rfl : rules = rules' := by simpa [pure, Except.pure] using hadd
    simpa using h
  | cons p productions ih =>
    obtain ⟨middle, hfirst, hrest⟩ := bind_eq_ok.mp (List.foldlM_cons.symm.trans hadd)
    rw [addProduction_eq] at hfirst
    rw [List.filterMap_cons]
    cases haddition : Addition.ofProduction? p (share p) with
    | none =>
      rw [haddition] at hfirst
      obtain rfl : rules = middle := Except.ok.inj hfirst
      exact ih h hrest
    | some addition =>
      rw [haddition] at hfirst
      have hmiddle : rules.after addition = middle := by simp only [RuleIndex.after, hfirst]
      have hkeeps := ih (hmiddle ▸ h.after addition) hrest
      simpa only [List.filterMap_eq_flatMap_toList, List.flatMap_cons, List.append_assoc]
        using hkeeps

theorem keeps_ofTrees {trees : List Tree} (h : ofTrees π trees = .ok rules) :
    rules.Keeps ((Addition.ofTrees π trees).filterMap Addition.unaryRule?)
      ((Addition.ofTrees π trees).filterMap Addition.binaryRule?) := by
  rw [ofTrees_eq_foldlM] at h
  exact keeps_empty.addProductions h

theorem Built.keeps (h : Built rules additions) :
    rules.Keeps (additions.filterMap Addition.unaryRule?)
      (additions.filterMap Addition.binaryRule?) := by
  induction h with
  | empty => exact keeps_empty
  | trees h => exact keeps_ofTrees h
  | add _ addition ih =>
    have hkeeps := ih.after addition
    simpa only [List.filterMap_eq_flatMap_toList, List.flatMap_append, List.flatMap_singleton]
      using hkeeps

theorem Built.append (h : Built rules additions) (more : List (Addition π)) :
    Built (more.foldl after rules) (additions ++ more) := by
  induction more generalizing rules additions with
  | nil => simpa using h
  | cons addition more ih => simpa using ih (h.add addition)

end RuleIndex

section Floats

open Float.Model

/-- Zero and negative zero are left out, and nothing else is. -/
theorem isZero_eq (p : Float) : Probability.isZero p = (p == 0) := by
  have hzero : Probability.isZero p = (decide (p ≤ 0) && decide (0 ≤ p)) := rfl
  have heq : (p == 0) = p.toModel.unpack.beq (.zero .positive) := rfl
  rw [hzero, heq, UnpackedFloat.beq]
  cases hnan : p.isNaN with
  | true =>
    have hcompare : p.toModel.unpack.compare (.zero .positive) = none := by
      have hnan : p.toModel.unpack.isNaN = true := hnan
      cases hu : p.toModel.unpack <;> simp_all [UnpackedFloat.isNaN, UnpackedFloat.compare]
    simp [not_le_of_isNaN hnan, hcompare]
  | false =>
    obtain ⟨o, hp, hq⟩ := exists_compare (u := p.toModel.unpack) (v := .zero .positive) hnan rfl
    have hle : p ≤ 0 ↔ p.toModel.unpack.le (.zero .positive) = true := le_iff_unpack
    have hge : 0 ≤ p ↔ UnpackedFloat.le (.zero .positive) p.toModel.unpack = true := le_iff_unpack
    simp only [hle, hge, UnpackedFloat.le, hp, hq]
    cases o <;> rfl

theorem isAccepted_eq (addition : Addition Float) : addition.isAccepted =
    (!isImproper addition.probability && !(addition.probability == 0)) := by
  rw [Addition.isAccepted, ← isRefused_eq, ← isZero_eq, Probability.isRefused]
  cases Probability.isZero addition.probability <;>
    cases Probability.isValid addition.probability <;> rfl

end Floats

namespace RuleIndex

variable {rules : RuleIndex LogProbability} {additions : List (Addition Float)}

/-- What has been added to an index, and nothing else, is found in it. A request fails if its number
is no probability, and if it fails or the probability is zero, then it changes nothing. All others
are accepted. The lookups list the accepted rules with a child in the order in which they were
added, so that a binary rule stands under its left child as often as under its right one. The
counts are the numbers of accepted rules, and all rules of the index are those. -/
theorem lookups_of_built (h : Built rules additions) :
    (∀ (addition : Addition Float) e, rules.add addition = .error e ↔
      isImproper addition.probability = true ∧ e = ⟨addition.probability⟩) ∧
    (∀ addition : Addition Float,
      isImproper addition.probability = true ∨ (addition.probability == 0) = true →
        rules.after addition = rules) ∧
    (∀ addition : Addition Float, addition.isAccepted = true ↔
      isImproper addition.probability = false ∧ (addition.probability == 0) = false) ∧
    (∀ label,
      rules.toGrammar.unaryByChild label =
        (additions.filterMap Addition.unaryRule?).filter (·.child = label) ∧
      rules.toGrammar.binaryByLeft label =
        (additions.filterMap Addition.binaryRule?).filter (·.left = label) ∧
      rules.toGrammar.binaryByRight label =
        (additions.filterMap Addition.binaryRule?).filter (·.right = label)) ∧
    (∀ rule, (rules.toGrammar.binaryByLeft rule.left).count rule =
      (rules.toGrammar.binaryByRight rule.right).count rule) ∧
    rules.unaryCount = (additions.filterMap Addition.unaryRule?).length ∧
    rules.binaryCount = (additions.filterMap Addition.binaryRule?).length ∧
    rules.unaryRules.Perm (additions.filterMap Addition.unaryRule?) ∧
    rules.binaryRules.Perm (additions.filterMap Addition.binaryRule?) := by
  have hkeeps := h.keeps
  have haccepted (addition : Addition Float) : addition.isAccepted = true ↔
      isImproper addition.probability = false ∧ (addition.probability == 0) = false := by
    simp [isAccepted_eq]
  refine ⟨fun addition e => isRefused_eq addition.probability ▸ add_eq_error_iff, ?unchanged,
    haccepted, fun label => ⟨hkeeps.byChild label, hkeeps.byLeft label, hkeeps.byRight label⟩,
    ?both, hkeeps.unaryCount, hkeeps.binaryCount, hkeeps.unaryRules_perm, hkeeps.binaryRules_perm⟩
  case unchanged =>
    intro addition hp
    rw [after_eq, if_neg]
    rw [haccepted]
    rcases hp with hp | hp <;> simp [hp]
  case both =>
    intro rule
    rw [hkeeps.byLeft, hkeeps.byRight, List.count_filter (by simp), List.count_filter (by simp)]

section Repeated

/-- A sentence of two sentences: all labels of its production are the same. -/
def repeatedTreebank : List Tree :=
  [.node "S" [.node "S" [.leaf "yes"], .node "S" [.leaf "no"]]]

/-- The rule of the treebank twice again, and requests that have no effect in between. -/
def repeatedAdditions : List (Addition Float) :=
  [.binary "S" "S" "S" 0.5, .binary "S" "S" "NP" 1.5, .unary "S" "S" 1, .binary "S" "S" "S" 0.5,
    .unary "S" "NP" (-0.0), .unary "S" "S" (0.0 / 0.0)]

theorem lookups_of_built_repeated : ∃ rules,
    Built rules (Addition.ofTrees Float repeatedTreebank ++ repeatedAdditions) ∧
      rules.unaryCount = 1 ∧ rules.binaryCount = 3 ∧
      (rules.toGrammar.binaryByRight "S").length = 3 ∧
      (rules.toGrammar.binaryByLeft "S").count ⟨"S", "S", "S", Probability.log (0.5 : Float)⟩ =
        (rules.toGrammar.binaryByRight "S").count ⟨"S", "S", "S", Probability.log (0.5 : Float)⟩ ∧
      rules.add (.binary "S" "S" "S" (-1 : Float)) = .error ⟨-1⟩ := by
  have htrees : (ofTrees Float repeatedTreebank).isOk = true := by decide +kernel
  obtain ⟨rules, htrees⟩ : ∃ rules, ofTrees Float repeatedTreebank = .ok rules := by
    cases h : ofTrees Float repeatedTreebank with
    | error e => rw [h] at htrees; cases htrees
    | ok rules => exact ⟨rules, rfl⟩
  have hbuilt := (Built.trees htrees).append repeatedAdditions
  obtain ⟨herror, -, -, hlookups, hboth, hunary, hbinary, -⟩ := lookups_of_built hbuilt
  have hright := congrArg List.length (hlookups "S").2.2
  refine ⟨_, hbuilt, hunary.trans ?_, hbinary.trans ?_, hright.trans ?_,
    hboth ⟨"S", "S", "S", _⟩, (herror _ _).mpr ⟨?_, rfl⟩⟩
  all_goals decide +kernel

end Repeated

end RuleIndex

end Constituency

import Constituency.Brackets.TextParser
import Constituency.Proofs.CutTexts

/-!
# Parsers of characters and labels

What the parsers by ordered choice do with what is left of a text: one lemma for each way in which
a parser ends. The failures that they keep come from few places. In front of a token the furthest
failure is either further back or the end of a label that could have gone on, and each alternative
that is tried there adds its name.
-/

namespace Constituency.Brackets

variable {α β : Type} {text : List Char} {input next last : Input} {failure new : Option Failure}
  {labelEnd : Option Nat} {c : Char} {cs : List Char} {names : List String}

namespace Input

/-- No blank is left to be skipped. -/
def IsSkipped (input : Input) : Prop :=
  input.rest.head?.any isBlank = false

/-- What a reader must expect to go on. -/
def ahead (input : Input) : Expectation :=
  input.rest.head?.elim .endOfInput .ofChar

/-- The input is what is left of the text. -/
def IsOf (text : List Char) (input : Input) : Prop :=
  ∃ front, text = front ++ input.rest ∧ input.position = front.length

theorem IsSkipped.skipBlanks_eq (h : input.IsSkipped) : input.skipBlanks = input := by
  obtain ⟨position, rest⟩ := input
  cases rest with
  | nil => rfl
  | cons c cs =>
    have hc : isBlank c = false := h
    simp [skipBlanks, hc]

theorem isSkipped_skipBlanks (input : Input) : input.skipBlanks.IsSkipped := by
  have hhead := List.head?_dropWhile_not isBlank input.rest
  unfold IsSkipped skipBlanks
  cases h : (input.rest.dropWhile isBlank).head? with
  | none => rfl
  | some c => simpa [h] using hhead

theorem tokens_skipBlanks (input : Input) : input.skipBlanks.tokens = input.tokens := by
  obtain ⟨position, rest⟩ := input
  unfold tokens skipBlanks
  induction rest generalizing position with
  | nil => rfl
  | cons c cs ih =>
    cases hc : isBlank c with
    | false => simp [hc]
    | true =>
      rw [scan_blank hc, ← ih]
      simp [hc, Nat.add_assoc, Nat.add_comm 1]

theorem length_skipBlanks_le (input : Input) :
    input.skipBlanks.rest.length ≤ input.rest.length :=
  (List.dropWhile_sublist isBlank).length_le

/-- Something is skipped, or there is nothing to be skipped. -/
theorem lt_skipBlanks_or_eq (input : Input) :
    input.position < input.skipBlanks.position ∨ input.skipBlanks = input := by
  obtain ⟨position, rest⟩ := input
  cases rest with
  | nil => exact .inr rfl
  | cons c cs =>
    cases hc : isBlank c with
    | true => exact .inl (by simp [skipBlanks, hc])
    | false =>
      have hskipped : IsSkipped ⟨position, c :: cs⟩ := hc
      exact .inr hskipped.skipBlanks_eq

theorem IsOf.after (h : input.IsOf text) (run : List Char) {rest : List Char}
    (hrest : input.rest = run ++ rest) : IsOf text ⟨input.position + run.length, rest⟩ := by
  obtain ⟨front, htext, hposition⟩ := h
  exact ⟨front ++ run, by rw [htext, hrest, List.append_assoc], by simp [hposition]⟩

theorem IsOf.skipBlanks (h : input.IsOf text) : input.skipBlanks.IsOf text :=
  h.after _ (List.takeWhile_append_dropWhile).symm

theorem IsOf.getElem?_eq (h : input.IsOf text) : text[input.position]? = input.rest.head? := by
  obtain ⟨front, rfl, hposition⟩ := h
  rw [hposition, List.getElem?_append_right le_rfl, Nat.sub_self, List.head?_eq_getElem?]

/-- At the end of the text and in front of a closing bracket no tree can start. -/
theorem ahead_notMem {expected : List Expectation} (hrest : ∀ c ∈ input.rest.head?, c = ')')
    (hend : .endOfInput ∉ expected) (hclosing : input.rest.head? = some ')' → .closing ∉ expected) :
    input.ahead ∉ expected := by
  unfold ahead
  cases hhead : input.rest.head? with
  | none => exact hend
  | some c =>
    obtain rfl := hrest c hhead
    exact hclosing hhead

theorem ahead_ne_endOfInput (hrest : input.rest ≠ []) : input.ahead ≠ .endOfInput := by
  obtain ⟨c, cs, hcs⟩ := List.exists_cons_of_ne_nil hrest
  rw [ahead, hcs]
  change Expectation.ofChar c ≠ .endOfInput
  unfold Expectation.ofChar
  split
  · decide
  · split <;> decide

theorem IsOf.position_add (h : input.IsOf text) :
    input.position + input.rest.length = text.length := by
  obtain ⟨front, rfl, hposition⟩ := h
  rw [hposition, List.length_append]

theorem IsOf.length_eq (h : input.IsOf text) (hrest : input.rest = []) :
    text.length = input.position := by
  rw [← h.position_add, hrest, List.length_nil, Nat.add_zero]

theorem isOf_start (text : List Char) : IsOf text ⟨0, text⟩ :=
  ⟨[], rfl, rfl⟩

/-- What may stand where blanks have been skipped. -/
theorem IsSkipped.cases (h : input.IsSkipped) :
    input.rest = [] ∨ (∃ cs, input.rest = '(' :: cs) ∨ (∃ cs, input.rest = ')' :: cs) ∨
      input.rest.takeWhile isLabelChar ≠ [] := by
  cases hrest : input.rest with
  | nil => exact .inl rfl
  | cons c cs =>
    by_cases hopening : c = '('
    · exact .inr (.inl ⟨cs, by rw [hopening]⟩)
    by_cases hclosing : c = ')'
    · exact .inr (.inr (.inl ⟨cs, by rw [hclosing]⟩))
    have hblank : isBlank c = false := by simpa [IsSkipped, hrest] using h
    exact .inr (.inr (.inr (by simp [isLabelChar_of_start hblank hopening hclosing])))

end Input

section Furthest

theorem furthest_of_lt {f g : Failure} (h : f.position < g.position) :
    Failure.furthest (some f) g = g := by
  rw [Failure.furthest, if_neg h.ne, if_neg h.not_gt]

theorem furthest_of_gt {f g : Failure} (h : g.position < f.position) :
    Failure.furthest (some f) g = f := by
  rw [Failure.furthest, if_neg h.ne', if_pos h]

theorem furthest_eq_of_forall_lt {g : Failure} (h : ∀ f ∈ failure, f.position < g.position) :
    Failure.furthest failure g = g := by
  cases failure with
  | none => rfl
  | some f => exact furthest_of_lt (h f rfl)

/-- One more name that would have fitted. -/
theorem furthest_concat {f : Failure} {name : String} (hnew : name ∉ f.expected) :
    Failure.furthest (some f) ⟨f.position, f.found, [name]⟩ =
      { f with expected := f.expected ++ [name] } := by
  rw [Failure.furthest, if_pos rfl, Failure.merge]
  by_cases hlength : f.expected.length < [name].length
  · have hnone : f.expected = [] := by simpa using hlength
    simp [hnone]
  · rw [if_neg hlength]
    simp [hnew]

/-- The failure where these names would have fitted, and a label that ended there could have gone
on. -/
def misfit (labelEnd : Option Nat) (input : Input) (names : List String) : Failure :=
  ⟨input.position, input.rest.head?,
    (if labelEnd = some input.position then ["something else"] else []) ++ names⟩

theorem furthest_misfit {name : String} (hname : name ≠ "something else") (hnew : name ∉ names) :
    Failure.furthest (some (misfit labelEnd input names))
        ⟨input.position, input.rest.head?, [name]⟩ =
      misfit labelEnd input (names ++ [name]) := by
  have hmem : name ∉ (misfit labelEnd input names).expected := by
    simp only [misfit, List.mem_append, not_or]
    exact ⟨by split <;> simp [hname], hnew⟩
  have hconcat := furthest_concat hmem
  simpa only [misfit, List.append_assoc] using hconcat

/-- What the furthest failure is between two tokens: the end of the label read last if the text goes
on right there, otherwise something before. -/
structure Fits (labelEnd : Option Nat) (input : Input) (failure : Option Failure) : Prop where
  le : ∀ stop ∈ labelEnd, stop ≤ input.position
  here : labelEnd = some input.position →
    failure = some ⟨input.position, input.rest.head?, ["something else"]⟩
  before : labelEnd ≠ some input.position → ∀ f ∈ failure, f.position < input.position

theorem Fits.position_le (h : Fits labelEnd input failure) :
    ∀ f ∈ failure, f.position ≤ input.position := by
  intro f hf
  by_cases hlabel : labelEnd = some input.position
  · rw [h.here hlabel] at hf
    obtain rfl := Option.some.inj hf
    exact le_rfl
  · exact (h.before hlabel f hf).le

theorem fits_of_forall_lt (h : ∀ f ∈ failure, f.position < input.position) :
    Fits none input failure where
  le := by simp
  here := by simp
  before _ := h

theorem fits_none : Fits none input none :=
  fits_of_forall_lt (by simp)

theorem Fits.skipBlanks (h : Fits labelEnd input failure) :
    Fits labelEnd input.skipBlanks failure := by
  rcases input.lt_skipBlanks_or_eq with hlt | heq
  · have hnot : labelEnd ≠ some input.skipBlanks.position := by
      intro hlabel
      exact (h.le _ hlabel).not_gt hlt
    exact {
      le := fun stop hstop => (h.le stop hstop).trans hlt.le
      here := fun hlabel => absurd hlabel hnot
      before := fun _ f hf => (h.position_le f hf).trans_lt hlt }
  · rw [heq]
    exact h

theorem Fits.furthest_eq (h : Fits labelEnd input failure) {name : String}
    (hname : name ≠ "something else") :
    Failure.furthest failure ⟨input.position, input.rest.head?, [name]⟩ =
      misfit labelEnd input [name] := by
  by_cases hlabel : labelEnd = some input.position
  · have hhere : failure = some (misfit labelEnd input []) := by
      simp [h.here hlabel, misfit, hlabel]
    rw [hhere, furthest_misfit hname (List.not_mem_nil)]
    rfl
  · rw [furthest_eq_of_forall_lt (h.before hlabel)]
    simp [misfit, hlabel]

end Furthest

namespace TextParser

variable {p q : TextParser α} {a : α}

section Combinators

theorem bind_of_some {f : α → TextParser β} (h : p input failure = ⟨some (a, next), new⟩) :
    (p >>= f) input failure = f a next new := by
  simp only [bind, h]

theorem bind_of_none {f : α → TextParser β} (h : p input failure = ⟨none, new⟩) :
    (p >>= f) input failure = ⟨none, new⟩ := by
  simp only [bind, h]

theorem map_of_some {f : α → β} (h : p input failure = ⟨some (a, next), new⟩) :
    (f <$> p) input failure = ⟨some (f a, next), new⟩ :=
  bind_of_some (f := fun a => pure (f a)) h

theorem map_of_none {f : α → β} (h : p input failure = ⟨none, new⟩) :
    (f <$> p) input failure = ⟨none, new⟩ :=
  bind_of_none (f := fun a => pure (f a)) h

theorem orElse_of_some (h : p input failure = ⟨some (a, next), new⟩) :
    p.orElse q input failure = ⟨some (a, next), new⟩ := by
  simp only [orElse, h]

theorem orElse_of_none (h : p input failure = ⟨none, new⟩) :
    p.orElse q input failure = q input new := by
  simp only [orElse, h]

theorem padded_of_some (h : p input.skipBlanks failure = ⟨some (a, next), new⟩) :
    p.padded input failure = ⟨some (a, next.skipBlanks), new⟩ := by
  simp only [padded, h]

theorem padded_of_none (h : p input.skipBlanks failure = ⟨none, new⟩) :
    p.padded input failure = ⟨none, new⟩ := by
  simp only [padded, h]

theorem collect_of_some (h : p input failure = ⟨some (a, next), new⟩)
    (hlt : next.rest.length < input.rest.length) {as : List α} {failure' : Option Failure}
    (hcollect : p.collect next new = (as, last, failure')) :
    p.collect input failure = (a :: as, last, failure') := by
  rw [collect, h]
  simp only [if_pos hlt, hcollect]

theorem collect_of_none (h : p input failure = ⟨none, new⟩) :
    p.collect input failure = ([], input, new) := by
  rw [collect, h]

theorem repeated_of_le {least : Nat} {as : List α}
    (h : p.collect input failure = (as, last, new)) (hleast : least ≤ as.length) :
    p.repeated least input failure = ⟨some (as, last), new⟩ := by
  simp only [repeated, h, if_pos hleast]

theorem repeated_of_lt {least : Nat} {as : List α}
    (h : p.collect input failure = (as, last, new)) (hleast : as.length < least) :
    p.repeated least input failure = ⟨none, new⟩ := by
  simp only [repeated, h, if_neg hleast.not_ge]

theorem labelled_of_eq {name : String} {result : Option (α × Input)} {f : Failure}
    (h : p input none = ⟨result, some f⟩) (hf : f.position = input.position) :
    p.labelled name input failure =
      ⟨result, some (Failure.furthest failure { f with expected := [name] })⟩ := by
  simp only [labelled, h, if_pos hf]

theorem labelled_of_lt {name : String} {result : Option (α × Input)} {f : Failure}
    (h : p input none = ⟨result, some f⟩) (hf : input.position < f.position) :
    p.labelled name input failure = ⟨result, some (Failure.furthest failure f)⟩ := by
  simp only [labelled, h, if_neg hf.ne']

end Combinators

section Characters

theorem just_of_head (h : input.rest = c :: cs) :
    just c input failure = ⟨some (c, ⟨input.position + 1, cs⟩), failure⟩ := by
  simp [just, satisfying, h]

theorem just_of_head_ne (h : input.rest.head? ≠ some c) : just c input failure =
    fail ("'" ++ c.toString ++ "'") input failure := by
  unfold just satisfying
  cases hrest : input.rest with
  | nil => rfl
  | cons d ds =>
    have hne : (d == c) = false := by simpa [hrest] using h
    simp [hne]

theorem fail_of_fits {name : String} (h : Fits labelEnd input failure)
    (hname : name ≠ "something else") : (fail name : TextParser α) input failure =
      ⟨none, some (misfit labelEnd input [name])⟩ := by
  rw [fail, h.furthest_eq hname]

theorem fail_of_misfit {name : String} (hname : name ≠ "something else") (hnew : name ∉ names) :
    (fail name : TextParser α) input (some (misfit labelEnd input names)) =
      ⟨none, some (misfit labelEnd input (names ++ [name]))⟩ := by
  rw [fail, furthest_misfit hname hnew]

theorem fail_of_further {name : String} {f : Failure} (h : input.position < f.position) :
    (fail name : TextParser α) input (some f) = ⟨none, some f⟩ := by
  rw [fail, furthest_of_gt h]

/-- Where the run of characters ends that fit. -/
def afterRun (accepts : Char → Bool) (input : Input) : Input :=
  ⟨input.position + (input.rest.takeWhile accepts).length, input.rest.dropWhile accepts⟩

theorem length_afterRun_lt {accepts : Char → Bool} (h : input.rest.takeWhile accepts ≠ []) :
    (afterRun accepts input).rest.length < input.rest.length := by
  have hsplit := congrArg List.length
    (List.takeWhile_append_dropWhile (p := accepts) (l := input.rest))
  have hpos := List.length_pos_iff.mpr h
  rw [List.length_append] at hsplit
  change (input.rest.dropWhile accepts).length < _
  omega

/-- A run of characters ends with a failure, since it could have gone on. -/
theorem collect_satisfying {accepts : Char → Bool} {name : String} :
    (satisfying accepts name).collect input failure =
      (input.rest.takeWhile accepts, afterRun accepts input,
        some (Failure.furthest failure ⟨(afterRun accepts input).position,
          (afterRun accepts input).rest.head?, [name]⟩)) := by
  obtain ⟨position, rest⟩ := input
  induction rest generalizing position with
  | nil => exact collect_of_none rfl
  | cons c cs ih =>
    cases hc : accepts c with
    | false =>
      have hfail : satisfying accepts name ⟨position, c :: cs⟩ failure =
          ⟨none, some (Failure.furthest failure ⟨position, some c, [name]⟩)⟩ := by
        simp [satisfying, hc, fail]
      rw [collect_of_none hfail]
      simp [afterRun, hc]
    | true =>
      have hread : satisfying accepts name ⟨position, c :: cs⟩ failure =
          ⟨some (c, ⟨position + 1, cs⟩), failure⟩ := by
        simp [satisfying, hc]
      rw [collect_of_some hread (Nat.lt_succ_self _) (ih (position + 1))]
      simp [afterRun, hc, Nat.add_assoc, Nat.add_comm 1]

end Characters

section Labels

/-- After a label the text goes on, or the label could have gone on. -/
theorem fits_afterRun {accepts : Char → Bool} (hne : input.rest.takeWhile accepts ≠ [])
    (hbefore : ∀ f ∈ failure, f.position ≤ input.position) :
    Fits (some (afterRun accepts input).position) (afterRun accepts input)
      (some (Failure.furthest failure ⟨(afterRun accepts input).position,
        (afterRun accepts input).rest.head?, ["something else"]⟩)) where
  le := by
    rintro stop ⟨⟩
    exact le_rfl
  here _ := by
    rw [furthest_eq_of_forall_lt]
    intro f hf
    exact (hbefore f hf).trans_lt (Nat.lt_add_of_pos_right (List.length_pos_iff.mpr hne))
  before h := absurd rfl h

theorem collect_noneOf : (noneOf labelEnds).collect input failure =
    (input.rest.takeWhile isLabelChar, afterRun isLabelChar input,
      some (Failure.furthest failure ⟨(afterRun isLabelChar input).position,
        (afterRun isLabelChar input).rest.head?, ["something else"]⟩)) :=
  collect_satisfying

theorem label_of_misfit (h : input.rest.takeWhile isLabelChar = []) :
    label input failure = fail "label" input failure := by
  have hrest : input.rest.dropWhile isLabelChar = input.rest := by
    simpa [h] using List.takeWhile_append_dropWhile (p := isLabelChar) (l := input.rest)
  have hafter : afterRun isLabelChar input = input := by
    rw [afterRun, h, hrest]
    rfl
  have hrun : (noneOf labelEnds).collect input none =
      ([], input, some ⟨input.position, input.rest.head?, ["something else"]⟩) := by
    rw [collect_noneOf, h, hafter]
    rfl
  exact labelled_of_eq (map_of_none (repeated_of_lt hrun (by decide))) rfl

theorem label_of_run (hne : input.rest.takeWhile isLabelChar ≠ []) : label input failure =
    ⟨some (String.ofList (input.rest.takeWhile isLabelChar), afterRun isLabelChar input),
      some (Failure.furthest failure ⟨(afterRun isLabelChar input).position,
        (afterRun isLabelChar input).rest.head?, ["something else"]⟩)⟩ := by
  have hlength : 0 < (input.rest.takeWhile isLabelChar).length := List.length_pos_iff.mpr hne
  exact labelled_of_lt (map_of_some (repeated_of_le collect_noneOf hlength))
    (Nat.lt_add_of_pos_right hlength)

end Labels

section Texts

variable {source : String}

theorem parse_of_some (h : p ⟨0, source.toList⟩ none = ⟨some (a, last), failure⟩)
    (hrest : last.rest = []) : p.parse source = .ok a := by
  have hend : endOfInput last failure = ⟨some ((), last), failure⟩ := by
    simp [endOfInput, hrest]
  rw [parse, bind_of_some h, bind_of_some hend]
  rfl

theorem parse_of_rest {f : Failure} (h : p ⟨0, source.toList⟩ none = ⟨some (a, last), failure⟩)
    (hrest : last.rest ≠ [])
    (hfail : (fail "end of input" : TextParser Unit) last failure = ⟨none, some f⟩) :
    p.parse source = .error f := by
  have hend : endOfInput last failure = ⟨none, some f⟩ := by
    rw [← hfail]
    simp [endOfInput, hrest]
  rw [parse, bind_of_some h, bind_of_none hend]
  rfl

theorem parse_of_none {f : Failure} (h : p ⟨0, source.toList⟩ none = ⟨none, some f⟩) :
    p.parse source = .error f := by
  rw [parse, bind_of_none h]
  rfl

end Texts

end TextParser

end Constituency.Brackets

import Constituency.Proofs.ChoiceParsers
import Constituency.Proofs.ReachedReaders

/-!
# Syntax errors

A reader stops in front of the first token that no accepted text has there, and its message lists
what an accepted text may have in that place.
-/

namespace Constituency.Brackets

variable {extent : Extent} {blankStart : Bool} {text front back u : String} {c : Char}
  {cs : List Char} {l : Lexeme} {ls : List Lexeme} {a : String} {t : Tree} {ts : List Tree}
  {e : SyntaxError} {token : Token} {taken tokens rest : List Token} {r : Reader}

/-- The error of a text `front ++ back` is at the end of `front`, which can be completed, but not if
the next character follows. Its message shows this character and the alternatives, set off by commas
and with "or" before the last one of several. Beside one without a name these are what can
follow. -/
structure Pinpoints (extent : Extent) (front back : String) (e : SyntaxError) : Prop where
  position : e.position = front.length
  begins : extent.Begins front
  impossible : ∀ c ∈ back.toList.head?, ¬extent.Begins (front.push c)
  message : ∃ names last, e.alternatives = names ++ [last] ∧ e.message = "Malformed tree: found " ++
    (back.toList.head?.elim "end of input" fun c => "'" ++ c.toString ++ "'") ++ " expected " ++
      if names = [] then last else ", ".intercalate (names ++ ["or " ++ last])
  alternatives : e.alternatives.Sublist
    ["something else", "bracketed tree", "label", "')'", "end of input"]
  tree : ∀ u t, readOne u = .ok t → t.isLeaf = false →
    ("bracketed tree" ∈ e.alternatives ↔ extent.Begins (front ++ " " ++ u))
  label : ∀ a, IsReadable a → ("label" ∈ e.alternatives ↔ extent.Begins (front ++ " " ++ a))
  closing : "')'" ∈ e.alternatives ↔ extent.Begins (front ++ ")")
  endOfInput : "end of input" ∈ e.alternatives ↔ extent.Accepts front
  unnamed : "something else" ∈ e.alternatives ↔ EndsWithLabel front.toList

namespace Reader

section Rejected

/-- What the next token, or the end of the text, must find expected. -/
def nextExpectation (rest : List Token) : Expectation :=
  rest.head?.elim .endOfInput (·.lexeme.expectation)

/-- Where the next token starts, or the text ends. -/
def nextPosition (text : String) (rest : List Token) : Nat :=
  rest.head?.elim text.toList.length Token.start

/-- A reader fails at the first token, or the end of the text, that it does not expect. -/
theorem Reached.exists_of_readAll (hr : Reached extent (text.toList.head?.any isBlank) taken r)
    (h : r.readAll extent text.toList tokens = .error e) : ∃ more rest r',
      tokens = more ++ rest ∧
        Reached extent (text.toList.head?.any isBlank) (taken ++ more) r' ∧
          r'.require extent text.toList (nextExpectation rest) (nextPosition text rest) =
            .error e := by
  induction tokens generalizing r taken with
  | nil => exact ⟨[], [], r, rfl, by rwa [List.append_nil], readAll_nil_eq_error.mp h⟩
  | cons token tokens ih =>
    rcases readAll_cons_eq_error.mp h with hfails | ⟨hexpected, hread⟩
    · exact ⟨[], token :: tokens, r, rfl, by rwa [List.append_nil], hfails⟩
    · obtain ⟨more, rest, r', rfl, hr', hfails⟩ := ih (hr.read hexpected) hread
      exact ⟨token :: more, rest, r', rfl, by rwa [List.append_assoc] at hr', hfails⟩

end Rejected

end Reader

section Expected

theorem takesTree_of_expected (h : .tree ∈ r.expected extent blankStart) : r.TakesTree extent := by
  obtain ⟨finished, frames, awaiting, labelEnd⟩ := r
  refine ⟨Reader.expected_tree h, ?_⟩
  obtain rfl : awaiting = false := Reader.expected_tree h
  cases frames <;> cases extent <;> cases finished <;> simp_all [Reader.expected]

theorem awaitingLabel_or_takesTree (h : .label ∈ r.expected extent blankStart) :
    r.awaitingLabel = true ∨ r.TakesTree extent := by
  obtain ⟨finished, frames, awaiting, labelEnd⟩ := r
  cases awaiting with
  | true => exact .inl rfl
  | false =>
    refine .inr ⟨rfl, ?_⟩
    cases frames <;> cases extent <;> cases finished <;> simp_all [Reader.expected]

theorem Extent.Accepts.exists_readAll (h : extent.Accepts text) : ∃ ts,
    Reader.readAll extent text.toList {} (Token.scan 0 text.toList) = .ok ts := by
  cases extent with
  | many => exact h
  | one =>
    obtain ⟨t, ht⟩ := h
    simp only [readOne, bind_eq_ok] at ht
    obtain ⟨ts, hread, -⟩ := ht
    exact ⟨ts, hread⟩

/-- An accepted text that goes on from what a reader has taken is read on by that reader. -/
theorem exists_readAll_of_accepts (ls : List Lexeme)
    (hr : Reader.Reached extent blankStart taken r) (haccepts : extent.Accepts text)
    (hspells : Spells text.toList (taken.map Token.lexeme ++ ls)) :
    ∃ ts, r.readAll extent text.toList (ls.map (Token.mk · 0 0)) = .ok ts := by
  obtain ⟨ts, hread⟩ := haccepts.exists_readAll
  have htokens : (Token.scan 0 text.toList).map Token.lexeme =
      (taken ++ ls.map (Token.mk · 0 0)).map Token.lexeme := by
    rw [scan_of_spells hspells 0]
    simp [Function.comp_def]
  exact ⟨ts, hr.readAll_of_append ((Reader.readAll_congr htokens).mp hread)⟩

/-- What leads on to an accepted text is expected. -/
theorem expectation_mem_of_begins (hr : Reader.Reached extent blankStart taken r)
    (hfront : Spells front.toList (taken.map Token.lexeme)) (hu : Spells u.toList (l :: ls))
    (hjoin : EndsWithLabel front.toList → EndsLabel u.toList)
    (hbegins : extent.Begins (front ++ u)) : l.expectation ∈ r.expected extent blankStart := by
  obtain ⟨more, haccepts⟩ := hbegins
  obtain ⟨l', ls', hback, hl⟩ := hu.exists_append more.toList
  have hspells : Spells (front ++ u ++ more).toList (taken.map Token.lexeme ++ l' :: ls') := by
    simpa using hfront.append hback fun h => (hjoin h).append hu.ne_nil
  obtain ⟨ts, hread⟩ := exists_readAll_of_accepts (l' :: ls') hr haccepts hspells
  rw [← hl, Reader.expectation_mem_expected_iff]
  exact (Reader.readAll_cons_eq_ok.mp hread).1

/-- The same where the next lexeme is set off by a blank. -/
theorem expectation_mem_of_begins_blank (hr : Reader.Reached extent blankStart taken r)
    (hfront : Spells front.toList (taken.map Token.lexeme)) (hu : Spells u.toList (l :: ls))
    (hbegins : extent.Begins (front ++ " " ++ u)) :
    l.expectation ∈ r.expected extent blankStart := by
  rw [String.append_assoc] at hbegins
  have hspells : Spells (" " ++ u).toList (l :: ls) := by
    simpa using Spells.blank rfl hu
  have hend : EndsLabel (" " ++ u).toList := by
    rw [String.toList_append]
    rintro d ⟨⟩
    rfl
  exact expectation_mem_of_begins hr hfront hspells (fun _ => hend) hbegins

/-- A character that is not expected leads nowhere, unless it goes on with a label. -/
theorem not_begins_push (hr : Reader.Reached extent blankStart taken r)
    (hfront : Spells front.toList (taken.map Token.lexeme)) (hblank : isBlank c = false)
    (hjoin : EndsWithLabel front.toList → isLabelChar c = false)
    (hnext : .ofChar c ∉ r.expected extent blankStart) : ¬extent.Begins (front.push c) := by
  intro hbegins
  obtain ⟨l, ls, hspells⟩ := Spells.exists_cons hblank []
  have hend : EndsWithLabel front.toList → EndsLabel (String.singleton c).toList := by
    intro h d hd
    obtain rfl : c = d := by simpa using hd
    exact hjoin h
  rw [← String.append_singleton] at hbegins
  rw [← hspells.expectation_eq hblank] at hnext
  exact hnext (expectation_mem_of_begins hr hfront (by simpa using hspells) hend hbegins)

/-- A bracketed tree is expected where each of them may come next. -/
theorem tree_mem_expected_iff (hr : Reader.Reached extent blankStart taken r)
    (hfront : Spells front.toList (taken.map Token.lexeme)) (hu : Spells u.toList t.lexemes)
    (hleaf : t.isLeaf = false) :
    .tree ∈ r.expected extent blankStart ↔ extent.Begins (front ++ " " ++ u) := by
  constructor
  · intro h
    exact begins_of_takesTree hr hfront (takesTree_of_expected h) hu
  · intro h
    obtain ⟨a, ts⟩ := t
    rw [Tree.lexemes_node (by simpa using hleaf)] at hu
    exact expectation_mem_of_begins_blank hr hfront hu h

/-- A label is expected where each of them may come next, after an opening bracket or as a word. -/
theorem label_mem_expected_iff (hr : Reader.Reached extent blankStart taken r)
    (hfront : Spells front.toList (taken.map Token.lexeme)) (ha : IsReadable a) :
    .label ∈ r.expected extent blankStart ↔ extent.Begins (front ++ " " ++ a) := by
  have hspells : Spells a.toList [.label a] := by
    simpa using Spells.label ha (by rintro d ⟨⟩) .nil
  constructor
  · intro h
    rcases awaitingLabel_or_takesTree h with hawaiting | htakes
    · exact begins_of_awaitingLabel hr hfront hawaiting ha
    · have hleaf : Spells a.toList (Tree.leaf a).lexemes := hspells
      exact begins_of_takesTree hr hfront htakes hleaf
  · exact expectation_mem_of_begins_blank hr hfront hspells

/-- A closing bracket is expected where it leads to a reader that can go on. -/
theorem closing_mem_expected_iff (hr : Reader.Reached extent blankStart taken r)
    (hfront : Spells front.toList (taken.map Token.lexeme)) :
    .closing ∈ r.expected extent blankStart ↔ extent.Begins (front ++ ")") := by
  have hclosing : Spells ")".toList [.closing] := .closing .nil
  have hend : EndsLabel ")".toList := by rintro d ⟨⟩; rfl
  constructor
  · intro h
    have hread : Reader.Reached extent blankStart (taken ++ [⟨.closing, 0, 0⟩])
        (r.read ⟨.closing, 0, 0⟩) := hr.read h
    refine begins_of_reached hread ?_
    simpa using hfront.append hclosing fun _ => hend
  · exact expectation_mem_of_begins hr hfront hclosing fun _ => hend

/-- The end of the text is expected where what has been read is accepted. -/
theorem endOfInput_mem_expected_iff
    (hr : Reader.Reached extent (front.toList.head?.any isBlank) taken r)
    (hfront : Spells front.toList (taken.map Token.lexeme)) :
    .endOfInput ∈ r.expected extent (front.toList.head?.any isBlank) ↔ extent.Accepts front := by
  constructor
  · intro h
    obtain ⟨hframes, hawaiting, hend⟩ := Reader.expected_endOfInput h
    by_cases hfinished : r.finished = []
    · obtain ⟨rfl, hblank⟩ := hend.resolve_left fun h => h hfinished
      have hnone : taken.map Token.lexeme = [] := by
        rw [← hr.lexemes_eq]
        simp [Reader.lexemes, hframes, hawaiting, hfinished]
      rw [hnone] at hfront
      have hempty : front = "" := String.toList_eq_nil_iff.mp (hfront.eq_nil hblank)
      exact ⟨[], readMany_eq_ok_iff.mpr ⟨spells_iff.mp hfront, .inr hempty⟩⟩
    · exact accepts_of_finished hr hfront hframes hawaiting hfinished
  · intro haccepts
    obtain ⟨ts, hread⟩ := exists_readAll_of_accepts [] hr haccepts (by simpa using hfront)
    exact (Reader.readAll_nil_eq_ok.mp hread).1

end Expected

section Message

theorem Expectation.text_inj {x y : Expectation} : x.text = y.text ↔ x = y := by
  cases x <;> cases y <;> decide

/-- A sentence has the names in their order, each followed by a comma, and "or" before the last. -/
theorem alternatives_concat (names : List String) (last : String) :
    Brackets.alternatives (names ++ [last]) =
      if names = [] then last else ", ".intercalate (names ++ ["or " ++ last]) := by
  induction names with
  | nil => rfl
  | cons a names ih =>
    rw [if_neg (List.cons_ne_nil a names), List.cons_append, List.cons_append]
    cases names with
    | nil =>
      have hor : ", or " = ", " ++ "or " := by decide
      rw [List.nil_append, List.nil_append, String.intercalate_cons_cons,
        String.intercalate_singleton, Brackets.alternatives, hor]
      simp only [String.append_assoc]
    | cons b names =>
      rw [if_neg (List.cons_ne_nil b names)] at ih
      rw [String.intercalate_cons_of_ne_nil (by simp), ← ih]
      cases names <;> rfl

theorem expected_ne_nil (r : Reader) : r.expected extent blankStart ≠ [] := by
  obtain ⟨finished, frames, awaiting, labelEnd⟩ := r
  cases awaiting with
  | true => simp [Reader.expected]
  | false =>
    cases frames with
    | cons frame outer =>
      obtain ⟨a, children⟩ := frame
      cases children <;> simp [Reader.expected]
    | nil => cases extent <;> cases finished <;> cases blankStart <;> simp [Reader.expected]

theorem SyntaxError.message_eq (e : SyntaxError) : e.message = "Malformed tree: found " ++
    (e.found.elim "end of input" fun c => "'" ++ c.toString ++ "'") ++
      " expected " ++ Brackets.alternatives e.alternatives := by
  unfold SyntaxError.message
  cases e.found <;> rfl

theorem SyntaxError.exists_message_eq (h : e.expected ≠ []) : ∃ names last,
    e.alternatives = names ++ [last] ∧ e.message = "Malformed tree: found " ++
      (e.found.elim "end of input" fun c => "'" ++ c.toString ++ "'") ++ " expected " ++
        if names = [] then last else ", ".intercalate (names ++ ["or " ++ last]) := by
  have hne : e.alternatives ≠ [] := by simp [SyntaxError.alternatives, h]
  refine ⟨e.alternatives.dropLast, e.alternatives.getLast hne,
    (List.dropLast_append_getLast hne).symm, ?_⟩
  rw [← alternatives_concat, List.dropLast_append_getLast hne, SyntaxError.message_eq]

theorem SyntaxError.text_mem_alternatives_iff {x : Expectation} :
    x.text ∈ e.alternatives ↔ x ∈ e.expected := by
  have hnamed : x.text ≠ "something else" := by cases x <;> decide
  unfold SyntaxError.alternatives
  split <;> simp [Expectation.text_inj, hnamed]

theorem SyntaxError.unnamed_mem_alternatives_iff :
    "something else" ∈ e.alternatives ↔ e.afterLabel = true := by
  have hnamed (x : Expectation) : x.text ≠ "something else" := by cases x <;> decide
  unfold SyntaxError.alternatives
  split <;> simp_all

theorem expected_sublist (r : Reader) : (r.expected extent blankStart).Sublist
    [.tree, .label, .closing, .endOfInput] := by
  obtain ⟨finished, frames, awaiting, labelEnd⟩ := r
  cases awaiting with
  | true => simp [Reader.expected]
  | false =>
    cases frames with
    | cons frame outer =>
      obtain ⟨a, children⟩ := frame
      cases children <;> simp [Reader.expected]
    | nil => cases extent <;> cases finished <;> cases blankStart <;> simp [Reader.expected]

theorem SyntaxError.alternatives_sublist
    (h : e.expected.Sublist [.tree, .label, .closing, .endOfInput]) : e.alternatives.Sublist
      ["something else", "bracketed tree", "label", "')'", "end of input"] := by
  have hnamed : (e.expected.map Expectation.text).Sublist
      ["bracketed tree", "label", "')'", "end of input"] := h.map Expectation.text
  unfold SyntaxError.alternatives
  split
  · exact hnamed.cons_cons "something else"
  · exact hnamed.cons "something else"

end Message

section Main

theorem head?_any_append {ds : List Char} (h : ds.head?.any isBlank = false) :
    (cs ++ ds).head?.any isBlank = cs.head?.any isBlank := by
  cases cs with
  | nil => simpa using h
  | cons c cs => rfl

/-- A text is cut where its next token starts, or at its end. -/
structure CutsAt (front back : String) (taken rest : List Token) : Prop where
  position : Reader.nextPosition (front ++ back) rest = front.length
  scan_front : Token.scan 0 front.toList = taken
  nonblank : back.toList.head?.any isBlank = false
  endsLabel : EndsWithLabel front.toList → EndsLabel back.toList
  next : ∀ c ∈ back.toList.head?, Reader.nextExpectation rest = .ofChar c

theorem exists_cutsAt (h : Token.scan 0 text.toList = taken ++ rest) : ∃ front back,
    text = front ++ back ∧ CutsAt front back taken rest := by
  cases rest with
  | nil =>
    rw [List.append_nil] at h
    exact ⟨text, "", String.append_empty.symm, {
      position := by rw [String.append_empty]; exact String.length_toList
      scan_front := h
      nonblank := rfl
      endsLabel := fun _ => by rintro d ⟨⟩
      next := by rintro c ⟨⟩ }⟩
  | cons token rest =>
    obtain ⟨front, back, htext, hcut⟩ := exists_isCut h
    have hspells := spells_scan token.start back
    rw [hcut.scan_back, List.map_cons] at hspells
    rw [htext] at h
    refine ⟨String.ofList front, String.ofList back, ?_, ?_⟩
    · rw [← String.ofList_append, ← htext, String.ofList_toList]
    · constructor
      case position => simpa [Reader.nextPosition] using hcut.start_eq
      case scan_front => simpa using hcut.scan_front
      case nonblank => simpa using hcut.nonblank
      case endsLabel => simpa using hcut.endsLabel h
      case next =>
        intro c hc
        rw [String.toList_ofList] at hc
        obtain ⟨cs, rfl⟩ := List.head?_eq_some_iff.mp hc
        exact hspells.expectation_eq (by simpa using hcut.nonblank)

/-- What a reader says that stops where a text was cut. -/
theorem pinpoints_of_reached
    (hr : Reader.Reached extent (front.toList.head?.any isBlank) taken r)
    (hcut : CutsAt front back taken rest)
    (hmisfit : Reader.nextExpectation rest ∉
      r.expected extent (front.toList.head?.any isBlank)) :
    Pinpoints extent front back
      { position := front.length, found := back.toList.head?,
        afterLabel := r.labelEnd == some front.length,
        expected := r.expected extent (front.toList.head?.any isBlank) } := by
  have hfront : Spells front.toList (taken.map Token.lexeme) :=
    hcut.scan_front ▸ spells_scan 0 front.toList
  exact {
    position := rfl
    begins := begins_of_reached hr hfront
    impossible := by
      intro c hc
      have hblank : isBlank c = false := by
        simpa [Option.mem_def.mp hc] using hcut.nonblank
      have hnext : .ofChar c ∉ r.expected extent (front.toList.head?.any isBlank) :=
        hcut.next c hc ▸ hmisfit
      exact not_begins_push hr hfront hblank (fun h => hcut.endsLabel h c hc) hnext
    message := SyntaxError.exists_message_eq (expected_ne_nil r)
    alternatives := SyntaxError.alternatives_sublist (expected_sublist r)
    tree := by
      intro u t hread hleaf
      have hu : Spells u.toList t.lexemes := spells_iff.mpr (readOne_eq_ok_iff.mp hread)
      exact (SyntaxError.text_mem_alternatives_iff (x := .tree)).trans
        (tree_mem_expected_iff hr hfront hu hleaf)
    label := fun _ ha => (SyntaxError.text_mem_alternatives_iff (x := .label)).trans
      (label_mem_expected_iff hr hfront ha)
    closing := (SyntaxError.text_mem_alternatives_iff (x := .closing)).trans
      (closing_mem_expected_iff hr hfront)
    endOfInput := (SyntaxError.text_mem_alternatives_iff (x := .endOfInput)).trans
      (endOfInput_mem_expected_iff hr hfront)
    unnamed := by
      rw [SyntaxError.unnamed_mem_alternatives_iff, beq_iff_eq, hr.labelEnd_eq_some_iff,
        endsWithLabel_iff 0]
      simp only [hcut.scan_front, Nat.zero_add, String.length_toList]
  }

theorem pinpoints_of_readAll
    (h : Reader.readAll extent text.toList {} (Token.scan 0 text.toList) = .error e) :
    ∃ front back, text = front ++ back ∧ Pinpoints extent front back e := by
  obtain ⟨taken, rest, r, hscan, hr, hfails⟩ := Reader.Reached.start.exists_of_readAll h
  obtain ⟨front, back, rfl, hcut⟩ := exists_cutsAt hscan
  obtain ⟨hmisfit, rfl⟩ := Reader.require_eq_error.mp hfails
  have hfound : (front ++ back).toList[front.length]? = back.toList.head? := by
    rw [String.toList_append, ← String.length_toList, List.getElem?_append_right le_rfl,
      Nat.sub_self, List.head?_eq_getElem?]
  have hblank : (front ++ back).toList.head?.any isBlank = front.toList.head?.any isBlank := by
    rw [String.toList_append, head?_any_append hcut.nonblank]
  rw [hblank] at hr hmisfit
  rw [hcut.position, hfound, hblank]
  exact ⟨front, back, rfl, pinpoints_of_reached hr hcut hmisfit⟩

/-- A rejected text is rejected at its first character that no accepted text has there, or at its
end, and the message lists what can follow, whether it should be one tree or many. The error is the
furthest failure of a parser by ordered choice. -/
theorem syntaxError_pinpoints (text : String) (e : SyntaxError) :
    (readOne text = .error e → TextParser.tree.parse text = .error e.failure ∧
      ∃ front back, text = front ++ back ∧ Pinpoints .one front back e) ∧
    (readMany text = .error e → (TextParser.tree.repeated 0).parse text = .error e.failure ∧
      ∃ front back, text = front ++ back ∧ Pinpoints .many front back e) := by
  constructor
  · intro h
    refine ⟨by rw [parse_tree, h]; rfl, pinpoints_of_readAll ?_⟩
    unfold readOne at h
    cases hread : Reader.readAll .one text.toList {} (Token.scan 0 text.toList) with
    | error _ => simpa [hread, bind, Except.bind] using h
    | ok _ => simp [hread, bind, Except.bind, pure, Except.pure] at h
  · intro h
    exact ⟨by rw [parse_trees, h]; rfl, pinpoints_of_readAll h⟩

/-- A bracket is missing at the end. -/
def unclosed : SyntaxError :=
  ⟨10, none, true, [.tree, .label, .closing]⟩

/-- A bracket closes nothing. -/
def unopened : SyntaxError :=
  ⟨1, some ')', false, [.tree, .label]⟩

theorem syntaxError_pinpoints_unclosed :
    (readOne "(A (B b) c" = .error unclosed ∧ unclosed.message = "Malformed tree: " ++
        "found end of input expected something else, bracketed tree, label, or ')'" ∧
      TextParser.tree.parse "(A (B b) c" = .error unclosed.failure ∧
      ∃ front back, "(A (B b) c" = front ++ back ∧ Pinpoints .one front back unclosed) ∧
    (readMany "\u00a0)" = .error unopened ∧ unopened.message =
        "Malformed tree: found ')' expected bracketed tree, or label" ∧
      (TextParser.tree.repeated 0).parse "\u00a0)" = .error unopened.failure ∧
      ∃ front back, "\u00a0)" = front ++ back ∧ Pinpoints .many front back unopened) := by
  have hone : readOne "(A (B b) c" = .error unclosed := by decide +kernel
  have hmany : readMany "\u00a0)" = .error unopened := by decide +kernel
  exact ⟨⟨hone, by decide +kernel, (syntaxError_pinpoints _ _).1 hone⟩,
    hmany, by decide +kernel, (syntaxError_pinpoints _ _).2 hmany⟩

end Main

end Constituency.Brackets

import Mathlib.Data.List.Basic
import Constituency.Brackets.Reader
import Constituency.Proofs.SpelledLexemes
import Constituency.Proofs.Steps

/-!
# Trees that are read

A reader accepts exactly the lexemes of trees. What a reader has taken up so far, finished or not,
has lexemes of its own, and each token that is expected adds one to them. Conversely the lexemes of
a tree lead from every reader that may take a tree to the same reader with the tree.
-/

namespace Constituency.Brackets

variable {extent : Extent} {text : List Char} {blankStart : Bool}

/-- The lexemes of an open node up to its last child. -/
def Frame.lexemes (frame : Frame) : List Lexeme :=
  .opening :: .label frame.label :: frame.children.reverse.flatMap Tree.lexemes

namespace Reader

variable {r : Reader} {token : Token} {tokens rest : List Token} {t : Tree} {ts : List Tree}
  {e : SyntaxError}

/-- The lexemes of all that has been read. -/
def lexemes (r : Reader) : List Lexeme :=
  r.finished.reverse.flatMap Tree.lexemes ++ r.frames.reverse.flatMap Frame.lexemes ++
    if r.awaitingLabel then [.opening] else []

section Accepted

theorem lexemes_finish (h : r.awaitingLabel = false) :
    (r.finish t).lexemes = r.lexemes ++ t.lexemes := by
  obtain ⟨finished, frames, awaiting, labelEnd⟩ := r
  cases frames with
  | nil => simp_all [finish, lexemes]
  | cons frame outer => simp_all [finish, lexemes, Frame.lexemes]

/-- Where the end of the text may come, no node is open. -/
theorem expected_endOfInput (h : .endOfInput ∈ r.expected extent blankStart) :
    r.frames = [] ∧ r.awaitingLabel = false ∧
      (r.finished ≠ [] ∨ extent = .many ∧ blankStart = false) := by
  obtain ⟨finished, frames, awaiting, labelEnd⟩ := r
  cases awaiting with
  | true => simp [expected] at h
  | false =>
    cases frames with
    | cons frame outer =>
      obtain ⟨a, children⟩ := frame
      cases children <;> simp [expected] at h
    | nil => cases extent <;> cases finished <;> cases blankStart <;> simp_all [expected]

/-- Where a bracket may close a node, the innermost open node has a child. -/
theorem expected_closing (h : .closing ∈ r.expected extent blankStart) :
    r.awaitingLabel = false ∧
      ∃ a children outer, children ≠ [] ∧ r.frames = ⟨a, children⟩ :: outer := by
  obtain ⟨finished, frames, awaiting, labelEnd⟩ := r
  cases awaiting with
  | true => simp [expected] at h
  | false =>
    cases frames with
    | nil => cases extent <;> cases finished <;> cases blankStart <;> simp [expected] at h
    | cons frame outer =>
      obtain ⟨a, children⟩ := frame
      cases children with
      | nil => simp [expected] at h
      | cons child children => exact ⟨rfl, a, child :: children, outer, by simp, rfl⟩

theorem expected_tree (h : .tree ∈ r.expected extent blankStart) : r.awaitingLabel = false := by
  cases hr : r.awaitingLabel with
  | false => rfl
  | true => simp [expected, hr] at h

/-- A token that is expected adds its lexeme. -/
theorem lexemes_read (h : token.lexeme.expectation ∈ r.expected extent blankStart) :
    (r.read token).lexemes = r.lexemes ++ [token.lexeme] := by
  obtain ⟨lexeme, start, stop⟩ := token
  cases lexeme with
  | opening => simp [read, lexemes, expected_tree h]
  | label a =>
    cases hr : r.awaitingLabel with
    | true => simp [read, hr, lexemes, Frame.lexemes]
    | false =>
      have hread : r.read ⟨.label a, start, stop⟩ =
          { r with labelEnd := some stop }.finish (.leaf a) := by simp [read, hr]
      rw [hread]
      exact lexemes_finish (r := { r with labelEnd := some stop }) hr
  | closing =>
    obtain ⟨hr, a, children, outer, hne, hframes⟩ := expected_closing h
    have hnode := lexemes_finish (r := { r with frames := outer, labelEnd := none })
      (t := .node a children.reverse) hr
    rw [Tree.lexemes_node (by simpa using hne)] at hnode
    simp only [read, hframes]
    rw [hnode]
    simp [lexemes, hframes, hr, Frame.lexemes]

theorem require_eq_ok {next : Expectation} {position : Nat} {u : Unit} :
    r.require extent text next position = .ok u ↔
      next ∈ r.expected extent (text.head?.any isBlank) := by
  unfold require
  dsimp only
  split <;> simp [*]

theorem readAll_cons_eq_ok :
    r.readAll extent text (token :: tokens) = .ok ts ↔
      token.lexeme.expectation ∈ r.expected extent (text.head?.any isBlank) ∧
        (r.read token).readAll extent text tokens = .ok ts := by
  simp [readAll, require_eq_ok]

theorem readAll_cons_of_expected
    (h : token.lexeme.expectation ∈ r.expected extent (text.head?.any isBlank)) :
    r.readAll extent text (token :: tokens) = .ok ts ↔
      (r.read token).readAll extent text tokens = .ok ts :=
  readAll_cons_eq_ok.trans (and_iff_right h)

theorem readAll_nil_eq_ok :
    r.readAll extent text [] = .ok ts ↔
      .endOfInput ∈ r.expected extent (text.head?.any isBlank) ∧ r.finished.reverse = ts := by
  simp [readAll, require_eq_ok, pure, Except.pure]

/-- A text that is read is made up of the lexemes of its trees. -/
theorem lexemes_of_readAll (h : r.readAll extent text tokens = .ok ts) :
    ts.flatMap Tree.lexemes = r.lexemes ++ tokens.map Token.lexeme := by
  induction tokens generalizing r with
  | nil =>
    obtain ⟨hend, rfl⟩ := readAll_nil_eq_ok.mp h
    obtain ⟨hframes, hawaiting, -⟩ := expected_endOfInput hend
    simp [lexemes, hframes, hawaiting]
  | cons token tokens ih =>
    obtain ⟨hexpected, hrest⟩ := readAll_cons_eq_ok.mp h
    rw [ih hrest, lexemes_read hexpected, List.append_assoc]
    rfl

/-- A text without trees is empty, if it may have none. -/
theorem ne_nil_of_readAll (h : r.readAll extent text tokens = .ok ts) :
    ts ≠ [] ∨ extent = .many ∧ text.head?.any isBlank = false := by
  induction tokens generalizing r with
  | nil =>
    obtain ⟨hend, rfl⟩ := readAll_nil_eq_ok.mp h
    obtain ⟨-, -, hfinished⟩ := expected_endOfInput hend
    exact hfinished.imp_left (by simp)
  | cons token tokens ih => exact ih (readAll_cons_eq_ok.mp h).2

end Accepted

section Rejected

theorem require_eq_error {text : List Char} {next : Expectation} {position : Nat} :
    r.require extent text next position = .error e ↔
      next ∉ r.expected extent (text.head?.any isBlank) ∧
        e = { position, found := text[position]?, afterLabel := r.labelEnd == some position,
              expected := r.expected extent (text.head?.any isBlank) } := by
  unfold require
  dsimp only
  split <;> simp [*, eq_comm]

theorem readAll_nil_eq_error {text : List Char} : r.readAll extent text [] = .error e ↔
    r.require extent text .endOfInput text.length = .error e := by
  rw [readAll]
  cases r.require extent text .endOfInput text.length <;>
    simp [bind, Except.bind, pure, Except.pure]

theorem readAll_cons_eq_error {text : List Char} :
    r.readAll extent text (token :: tokens) = .error e ↔
      r.require extent text token.lexeme.expectation token.start = .error e ∨
        token.lexeme.expectation ∈ r.expected extent (text.head?.any isBlank) ∧
          (r.read token).readAll extent text tokens = .error e := by
  rw [readAll]
  cases h : r.require extent text token.lexeme.expectation token.start with
  | error e' => simp [bind, Except.bind, (require_eq_error.mp h).1]
  | ok u => simp [bind, Except.bind, require_eq_ok.mp h]

end Rejected

section Single

/-- The reader has at most one finished tree, and after that nothing is open. -/
def AtMostOne (r : Reader) : Prop :=
  r.finished = [] ∨ r.finished.length = 1 ∧ r.frames = [] ∧ r.awaitingLabel = false

theorem atMostOne_finish (hfinished : r.finished = []) (h : r.awaitingLabel = false) :
    (r.finish t).AtMostOne := by
  obtain ⟨finished, frames, awaiting, labelEnd⟩ := r
  cases frames with
  | nil => simp_all [finish, AtMostOne]
  | cons frame outer => exact .inl hfinished

/-- No further token is expected after a tree that makes up the text. -/
theorem AtMostOne.read (h : r.AtMostOne)
    (hexpected : token.lexeme.expectation ∈ r.expected .one blankStart) :
    (r.read token).AtMostOne := by
  obtain ⟨lexeme, start, stop⟩ := token
  have hfinished : r.finished = [] := by
    rcases h with h | ⟨hlength, hframes, hawaiting⟩
    · exact h
    · obtain ⟨t, hone⟩ := List.length_eq_one_iff.mp hlength
      cases lexeme <;> simp [expected, hframes, hawaiting, hone, Lexeme.expectation] at hexpected
  cases lexeme with
  | opening => exact .inl hfinished
  | label a =>
    cases hr : r.awaitingLabel with
    | true => exact .inl (by simp [Reader.read, hr, hfinished])
    | false =>
      have hleaf := atMostOne_finish (r := { r with labelEnd := some stop }) (t := .leaf a)
        hfinished hr
      simpa [Reader.read, hr] using hleaf
  | closing =>
    obtain ⟨hr, a, children, outer, -, hframes⟩ := expected_closing hexpected
    simp only [Reader.read, hframes]
    exact atMostOne_finish hfinished hr

theorem AtMostOne.exists_eq (h : r.AtMostOne) (hread : r.readAll .one text tokens = .ok ts) :
    ∃ t, ts = [t] := by
  induction tokens generalizing r with
  | nil =>
    obtain ⟨hend, rfl⟩ := readAll_nil_eq_ok.mp hread
    obtain ⟨-, -, hfinished⟩ := expected_endOfInput hend
    have hne : r.finished ≠ [] := hfinished.resolve_right fun hmany => by cases hmany.1
    obtain ⟨t, hone⟩ := List.length_eq_one_iff.mp (h.resolve_left hne).1
    exact ⟨t, by rw [hone]; rfl⟩
  | cons token tokens ih =>
    obtain ⟨hexpected, hrest⟩ := readAll_cons_eq_ok.mp hread
    exact ih (h.read hexpected) hrest

end Single

section Complete

/-- A tree may come next. -/
structure TakesTree (extent : Extent) (r : Reader) : Prop where
  named : r.awaitingLabel = false
  room : r.frames ≠ [] ∨ extent = .many ∨ r.finished = []

/-- Trees may come next, as many as there are. -/
structure TakesTrees (extent : Extent) (r : Reader) : Prop where
  named : r.awaitingLabel = false
  room : r.frames ≠ [] ∨ extent = .many

theorem TakesTrees.takesTree (h : r.TakesTrees extent) : r.TakesTree extent :=
  ⟨h.named, h.room.imp_right .inl⟩

theorem TakesTree.expected (h : r.TakesTree extent) (blankStart : Bool) :
    .tree ∈ r.expected extent blankStart ∧ .label ∈ r.expected extent blankStart := by
  obtain ⟨finished, frames, awaiting, labelEnd⟩ := r
  obtain ⟨hnamed, hroom⟩ := h
  cases hnamed
  cases frames with
  | cons frame outer =>
    obtain ⟨a, children⟩ := frame
    cases children <;> simp [Reader.expected]
  | nil => cases extent <;> cases finished <;> cases blankStart <;> simp_all [Reader.expected]

theorem TakesTrees.finish (h : r.TakesTrees extent) (t : Tree) :
    (r.finish t).TakesTrees extent := by
  obtain ⟨finished, frames, awaiting, labelEnd⟩ := r
  obtain ⟨hnamed, hroom⟩ := h
  cases frames with
  | nil => exact ⟨hnamed, .inr (hroom.resolve_left fun h => h rfl)⟩
  | cons frame outer => exact ⟨hnamed, .inl (List.cons_ne_nil _ _)⟩

/-- Where a label ended does not matter to what is accepted. -/
theorem readAll_labelEnd {labelEnd : Option Nat} :
    { r with labelEnd }.readAll extent text tokens = .ok ts ↔
      r.readAll extent text tokens = .ok ts := by
  cases tokens with
  | nil => rw [readAll_nil_eq_ok, readAll_nil_eq_ok]; rfl
  | cons token tokens =>
    rw [readAll_cons_eq_ok, readAll_cons_eq_ok]
    apply and_congr_right
    intro hexpected
    obtain ⟨lexeme, start, stop⟩ := token
    cases lexeme with
    | opening => rfl
    | label a => rfl
    | closing =>
      obtain ⟨-, a, children, outer, -, hframes⟩ := expected_closing hexpected
      simp only at hframes
      simp only [read, hframes]

theorem foldl_finish_open {a : String} {children : List Tree} {outer : List Frame}
    (hframes : r.frames = ⟨a, children⟩ :: outer) :
    ts.foldl finish r = { r with frames := ⟨a, ts.reverse ++ children⟩ :: outer } := by
  induction ts generalizing r children with
  | nil => simp [← hframes]
  | cons t ts ih =>
    have hfirst : r.finish t = { r with frames := ⟨a, t :: children⟩ :: outer } := by
      simp [finish, hframes]
    rw [List.foldl_cons, hfirst, ih rfl]
    simp

theorem foldl_finish_outside (hframes : r.frames = []) :
    ts.foldl finish r = { r with finished := ts.reverse ++ r.finished } := by
  induction ts generalizing r with
  | nil => simp
  | cons t ts ih =>
    have hfirst : r.finish t = { r with finished := t :: r.finished } := by
      simp [finish, hframes]
    rw [List.foldl_cons, hfirst, ih (r := { r with finished := t :: r.finished }) hframes]
    simp

/-- Whatever reader takes the tree, reads its lexemes and has the tree. -/
def IsTaken (extent : Extent) (text : List Char) (t : Tree) : Prop :=
  ∀ (r : Reader) (tokens rest : List Token) (result : List Tree), r.TakesTree extent →
    tokens.map Token.lexeme = t.lexemes →
      (r.readAll extent text (tokens ++ rest) = .ok result ↔
        (r.finish t).readAll extent text rest = .ok result)

theorem readAll_trees {result : List Tree} (htaken : ∀ t ∈ ts, IsTaken extent text t)
    (h : r.TakesTrees extent) (htokens : tokens.map Token.lexeme = ts.flatMap Tree.lexemes) :
    r.readAll extent text (tokens ++ rest) = .ok result ↔
      (ts.foldl Reader.finish r).readAll extent text rest = .ok result := by
  induction ts generalizing r tokens with
  | nil =>
    obtain rfl := List.map_eq_nil_iff.mp htokens
    rfl
  | cons t ts ih =>
    obtain ⟨ht, hts⟩ := List.forall_mem_cons.mp htaken
    rw [List.flatMap_cons] at htokens
    obtain ⟨first, others, rfl, hfirst, hothers⟩ := List.map_eq_append_iff.mp htokens
    rw [List.append_assoc, ht r first (others ++ rest) result h.takesTree hfirst]
    exact ih hts (h.finish t) hothers

theorem isTaken_leaf (a : String) : IsTaken extent text (.leaf a) := by
  intro r tokens rest result h htokens
  obtain ⟨⟨lexeme, start, stop⟩, rfl, hlexeme⟩ := List.map_eq_singleton_iff.mp htokens
  obtain rfl : lexeme = .label a := hlexeme
  have hread : r.read ⟨.label a, start, stop⟩ =
      { r.finish (.leaf a) with labelEnd := some stop } := by
    obtain ⟨finished, frames, awaiting, labelEnd⟩ := r
    obtain rfl : awaiting = false := h.named
    cases frames <;> rfl
  rw [List.singleton_append, readAll_cons_of_expected (h.expected _).2, hread, readAll_labelEnd]

theorem isTaken_node {a : String} (hne : ts ≠ []) (hts : ∀ t ∈ ts, IsTaken extent text t) :
    IsTaken extent text (.node a ts) := by
  intro r tokens rest result h htokens
  rw [Tree.lexemes_node hne] at htokens
  obtain ⟨front, back, rfl, hfront, hback⟩ := List.map_eq_append_iff.mp htokens
  obtain ⟨⟨lexeme, start, stop⟩, labelled, rfl, hlexeme, hlabelled⟩ :=
    List.map_eq_cons_iff.mp hfront
  obtain rfl : lexeme = .opening := hlexeme
  obtain ⟨⟨lexeme, start', stop'⟩, inner, rfl, hlexeme, hinner⟩ :=
    List.map_eq_cons_iff.mp hlabelled
  obtain rfl : lexeme = .label a := hlexeme
  obtain ⟨⟨lexeme, start'', stop''⟩, rfl, hlexeme⟩ := List.map_eq_singleton_iff.mp hback
  obtain rfl : lexeme = .closing := hlexeme
  -- The reader after the label and the one after the last child.
  let opened : Reader := { r with frames := ⟨a, []⟩ :: r.frames }
  let filled : Reader := { r with frames := ⟨a, ts.reverse⟩ :: r.frames }
  have htakes : opened.TakesTrees extent := ⟨h.named, .inl (List.cons_ne_nil _ _)⟩
  have hopened : (r.read ⟨.opening, start, stop⟩).read ⟨.label a, start', stop'⟩ =
      { opened with labelEnd := some stop' } := by
    simp [read, opened, h.named]
  have hfilled : ts.foldl Reader.finish opened = filled := by
    rw [foldl_finish_open (r := opened) rfl, List.append_nil]
  have hclosed : filled.read ⟨.closing, start'', stop''⟩ =
      { r.finish (.node a ts) with labelEnd := none } := by
    cases hframes : r.frames <;> simp [read, filled, Reader.finish, hframes]
  have hlabel : .label ∈ (r.read ⟨.opening, start, stop⟩).expected extent
      (text.head?.any isBlank) := by
    simp [read, Reader.expected]
  have hclosing : .closing ∈ filled.expected extent (text.head?.any isBlank) := by
    cases hchildren : ts.reverse with
    | nil => exact absurd (List.reverse_eq_nil_iff.mp hchildren) hne
    | cons t ts => simp [filled, Reader.expected, h.named, hchildren]
  simp only [List.cons_append, List.append_assoc, List.nil_append]
  calc r.readAll extent text (⟨.opening, start, stop⟩ :: ⟨.label a, start', stop'⟩ ::
        (inner ++ ⟨.closing, start'', stop''⟩ :: rest)) = .ok result
    _ ↔ Reader.readAll extent text { opened with labelEnd := some stop' }
          (inner ++ ⟨.closing, start'', stop''⟩ :: rest) = .ok result := by
        rw [← hopened]
        exact (readAll_cons_of_expected (h.expected _).1).trans (readAll_cons_of_expected hlabel)
    _ ↔ filled.readAll extent text (⟨.closing, start'', stop''⟩ :: rest) = .ok result := by
        rw [readAll_labelEnd, ← hfilled]
        exact readAll_trees hts htakes hinner
    _ ↔ (r.finish (.node a ts)).readAll extent text rest = .ok result := by
        rw [readAll_cons_of_expected hclosing, hclosed, readAll_labelEnd]

theorem isTaken (t : Tree) : IsTaken extent text t := by
  induction t with
  | node a ts ih =>
    cases ts with
    | nil => exact isTaken_leaf a
    | cons t ts => exact isTaken_node (List.cons_ne_nil t ts) ih

end Complete

end Reader

section Texts

variable {text : String} {t : Tree} {ts : List Tree}

theorem readOne_eq_ok_iff : readOne text = .ok t ↔ lexemes text = t.lexemes := by
  have hstart : ({} : Reader).TakesTree .one := ⟨rfl, .inr (.inr rfl)⟩
  constructor
  · intro h
    simp only [readOne, bind_eq_ok, pure, Except.pure, Except.ok.injEq] at h
    obtain ⟨ts, hread, rfl⟩ := h
    obtain ⟨t, rfl⟩ := Reader.AtMostOne.exists_eq (.inl rfl) hread
    simpa [lexemes, Reader.lexemes] using (Reader.lexemes_of_readAll hread).symm
  · intro h
    have htaken : Reader.IsTaken .one text.toList t := Reader.isTaken t
    have hread : Reader.readAll .one text.toList {} (Token.scan 0 text.toList) = .ok [t] := by
      rw [← List.append_nil (Token.scan 0 text.toList), htaken {} _ [] [t] hstart h,
        Reader.readAll_nil_eq_ok]
      exact ⟨List.mem_singleton_self _, rfl⟩
    rw [readOne, hread]
    rfl

theorem readMany_eq_ok_iff : readMany text = .ok ts ↔
    lexemes text = ts.flatMap Tree.lexemes ∧ (ts ≠ [] ∨ text = "") := by
  have hstart : ({} : Reader).TakesTrees .many := ⟨rfl, .inr rfl⟩
  constructor
  · intro h
    have hlexemes : lexemes text = ts.flatMap Tree.lexemes := by
      simpa [lexemes, Reader.lexemes] using (Reader.lexemes_of_readAll h).symm
    refine ⟨hlexemes, or_iff_not_imp_left.mpr fun hts => ?_⟩
    rw [not_not] at hts
    subst hts
    obtain ⟨-, hblank⟩ := (Reader.ne_nil_of_readAll h).resolve_left fun h => h rfl
    exact String.toList_eq_nil_iff.mp ((spells_iff.mpr hlexemes).eq_nil hblank)
  · rintro ⟨h, hempty⟩
    have htaken : ∀ t ∈ ts, Reader.IsTaken .many text.toList t := fun t _ => Reader.isTaken t
    rw [readMany, ← List.append_nil (Token.scan 0 text.toList),
      Reader.readAll_trees htaken hstart h, Reader.foldl_finish_outside rfl,
      Reader.readAll_nil_eq_ok]
    refine ⟨?_, by simp⟩
    cases ts with
    | nil =>
      obtain rfl := hempty.resolve_left fun h => h rfl
      exact List.mem_of_elem_eq_true rfl
    | cons t ts =>
      cases hfinished : (t :: ts).reverse with
      | nil => simp at hfinished
      | cons u us => simp [Reader.expected]

/-- A text spells exactly one list of lexemes. It is read as a tree if these are the lexemes of the
tree, and as a list of trees if they are those of the trees; only the empty text has no trees. -/
theorem read_iff_spells (text : String) :
    (∃! ls, Spells text.toList ls) ∧
      (∀ t, readOne text = .ok t ↔ Spells text.toList t.lexemes) ∧
      ∀ ts, readMany text = .ok ts ↔
        Spells text.toList (ts.flatMap Tree.lexemes) ∧ (ts ≠ [] ∨ text = "") := by
  simp only [spells_iff, readOne_eq_ok_iff, readMany_eq_ok_iff, implies_true, and_true]
  exact ⟨lexemes text, rfl, fun ls hls => hls.symm⟩

end Texts

end Constituency.Brackets

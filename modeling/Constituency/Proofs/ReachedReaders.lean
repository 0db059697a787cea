import Constituency.Proofs.CutTexts
import Constituency.Proofs.ReadTrees

/-!
# Reached readers

What expected tokens lead a reader to can always be completed: the open nodes are given a child and
closed. Conversely a reader goes on to read whatever accepted text starts with what it has taken.
-/

namespace Constituency.Brackets

variable {extent : Extent} {blankStart : Bool} {text front back : String} {l : Lexeme}
  {ls : List Lexeme} {a : String} {t : Tree} {ts : List Tree} {token : Token}
  {taken tokens rest : List Token}

/-- The text is made up of a tree, or of trees. -/
def Extent.Accepts : Extent → String → Prop
  | .one, text => ∃ t, readOne text = .ok t
  | .many, text => ∃ ts, readMany text = .ok ts

/-- The text is the beginning of an accepted one. -/
def Extent.Begins (extent : Extent) (text : String) : Prop :=
  ∃ rest, extent.Accepts (text ++ rest)

namespace Reader

variable {r : Reader}

/-- The readers that expected tokens lead to. -/
inductive Reached (extent : Extent) (blankStart : Bool) : List Token → Reader → Prop where
  | start : Reached extent blankStart [] {}
  | read {tokens : List Token} {r : Reader} {token : Token}
      (reached : Reached extent blankStart tokens r)
      (hexpected : token.lexeme.expectation ∈ r.expected extent blankStart) :
      Reached extent blankStart (tokens ++ [token]) (r.read token)

section Reached

theorem Reached.lexemes_eq (h : Reached extent blankStart taken r) :
    r.lexemes = taken.map Token.lexeme := by
  induction h with
  | start => rfl
  | read _ hexpected ih => rw [lexemes_read hexpected, ih, List.map_append]; rfl

theorem Reached.atMostOne (h : Reached extent blankStart taken r) (hone : extent = .one) :
    r.AtMostOne := by
  subst hone
  induction h with
  | start => exact .inl rfl
  | read _ hexpected ih => exact ih.read hexpected

/-- A reader remembers where the last token ended, if that was a label. -/
theorem Reached.labelEnd_eq_some_iff {position : Nat} (h : Reached extent blankStart taken r) :
    r.labelEnd = some position ↔
      ∃ earlier a start, taken = earlier ++ [⟨.label a, start, position⟩] := by
  cases h with
  | start => simp
  | @read tokens r token _ hexpected =>
    obtain ⟨lexeme, start, stop⟩ := token
    simp only [List.append_singleton_inj, Token.mk.injEq]
    cases lexeme with
    | opening => simp [Reader.read]
    | closing =>
      obtain ⟨-, a, children, outer, -, hframes⟩ := expected_closing hexpected
      cases outer <;> simp [Reader.read, finish, hframes]
    | label a =>
      cases hawaiting : r.awaitingLabel <;> cases hframes : r.frames <;>
        simp [Reader.read, finish, hawaiting, hframes]

/-- After an opening bracket there is room for the tree that it opens. -/
theorem Reached.takesTree (h : Reached extent blankStart taken r)
    (hawaiting : r.awaitingLabel = true) :
    TakesTree extent { r with awaitingLabel := false } where
  named := rfl
  room := by
    cases extent with
    | many => exact .inr (.inl rfl)
    | one =>
      rcases h.atMostOne rfl with hfinished | ⟨-, -, hnamed⟩
      · exact .inr (.inr hfinished)
      · simp [hawaiting] at hnamed

end Reached

section Accepted

/-- Readers of the same lexeme differ at most in where a label ended. -/
theorem exists_read_eq {token' : Token} (h : token'.lexeme = token.lexeme) : ∃ labelEnd,
    r.read token' = ⟨(r.read token).finished, (r.read token).frames,
      (r.read token).awaitingLabel, labelEnd⟩ := by
  refine ⟨(r.read token').labelEnd, ?_⟩
  obtain ⟨lexeme, start, stop⟩ := token
  obtain ⟨lexeme', start', stop'⟩ := token'
  obtain rfl : lexeme' = lexeme := h
  obtain ⟨finished, frames, awaiting, labelEnd⟩ := r
  cases lexeme' <;> cases awaiting <;> rcases frames with _ | ⟨frame, _ | ⟨next, outer⟩⟩ <;> rfl

/-- What a reader accepts depends on the lexemes only, and not on where they stand. -/
theorem readAll_congr {text : List Char} {tokens' : List Token}
    (h : tokens.map Token.lexeme = tokens'.map Token.lexeme) :
    r.readAll extent text tokens = .ok ts ↔ r.readAll extent text tokens' = .ok ts := by
  induction tokens generalizing r tokens' with
  | nil =>
    obtain rfl := List.map_eq_nil_iff.mp h.symm
    rfl
  | cons token tokens ih =>
    obtain ⟨token', tokens', rfl, hlexeme, htokens⟩ := List.map_eq_cons_iff.mp h.symm
    obtain ⟨labelEnd, hread⟩ := exists_read_eq (r := r) hlexeme
    rw [readAll_cons_eq_ok, readAll_cons_eq_ok, hlexeme, hread]
    exact and_congr_right fun _ => (ih htokens.symm).trans readAll_labelEnd.symm

/-- A text that goes on from what a reader has taken is accepted by that reader. -/
theorem Reached.readAll_of_append {text : List Char} (h : Reached extent blankStart taken r)
    (hread : Reader.readAll extent text {} (taken ++ rest) = .ok ts) :
    r.readAll extent text rest = .ok ts := by
  induction h generalizing rest with
  | start => exact hread
  | read _ _ ih =>
    rw [List.append_assoc] at hread
    exact (readAll_cons_eq_ok.mp (ih hread)).2

/-- Whether the text may be empty matters to its end only. -/
theorem expectation_mem_expected_iff (other : Bool) :
    l.expectation ∈ r.expected extent blankStart ↔ l.expectation ∈ r.expected extent other := by
  obtain ⟨finished, frames, awaiting, labelEnd⟩ := r
  cases awaiting with
  | true => rfl
  | false =>
    cases frames with
    | cons frame outer =>
      obtain ⟨a, children⟩ := frame
      cases children <;> rfl
    | nil =>
      cases extent <;> cases finished <;> cases blankStart <;> cases other <;> cases l <;>
        simp [expected, Lexeme.expectation]

end Accepted

end Reader

section Completed

/-- A tree in the innermost open node, and all open nodes closed. -/
theorem exists_closed (frames : List Frame) (t : Tree) : ∃ u : Tree, u.lexemes =
    frames.reverse.flatMap Frame.lexemes ++
      (t.lexemes ++ List.replicate frames.length .closing) := by
  induction frames generalizing t with
  | nil => exact ⟨t, by simp⟩
  | cons frame outer ih =>
    obtain ⟨u, hu⟩ := ih (.node frame.label (frame.children.reverse ++ [t]))
    refine ⟨u, ?_⟩
    rw [hu, Tree.lexemes_node (by simp)]
    simp [Frame.lexemes, List.replicate_succ]

/-- Trees that make up a text. -/
structure IsComplete (extent : Extent) (ts : List Tree) : Prop where
  nonempty : ts ≠ []
  single : extent = .one → ts.length = 1

theorem IsComplete.accepts (h : IsComplete extent ts)
    (hspells : Spells text.toList (ts.flatMap Tree.lexemes)) : extent.Accepts text := by
  cases extent with
  | many => exact ⟨ts, readMany_eq_ok_iff.mpr ⟨spells_iff.mp hspells, .inl h.nonempty⟩⟩
  | one =>
    obtain ⟨t, rfl⟩ := List.length_eq_one_iff.mp (h.single rfl)
    rw [List.flatMap_singleton] at hspells
    exact ⟨t, readOne_eq_ok_iff.mpr (spells_iff.mp hspells)⟩

/-- Where a tree may come next, a text may be completed with that tree. -/
theorem Reader.TakesTree.exists_isComplete {r : Reader} (h : r.TakesTree extent)
    (hone : extent = .one → r.AtMostOne) (t : Tree) : ∃ ts, IsComplete extent ts ∧
      ts.flatMap Tree.lexemes =
        r.lexemes ++ (t.lexemes ++ List.replicate r.frames.length .closing) := by
  obtain ⟨u, hu⟩ := exists_closed r.frames t
  refine ⟨r.finished.reverse ++ [u], ⟨by simp, fun hextent => ?_⟩, ?_⟩
  · have hfinished : r.finished = [] := by
      rcases hone hextent with hfinished | ⟨-, hframes, -⟩
      · exact hfinished
      · rcases h.room with hroom | hmany | hfinished
        · exact absurd hframes hroom
        · exact absurd (hmany.symm.trans hextent) (by simp)
        · exact hfinished
    simp [hfinished]
  · simp [hu, Reader.lexemes, h.named]

theorem spells_closings (n : Nat) :
    Spells (List.replicate n ')') (List.replicate n .closing) ∧
      EndsLabel (List.replicate n ')') := by
  induction n with
  | zero => exact ⟨.nil, by rintro d ⟨⟩⟩
  | succ n ih => exact ⟨.closing ih.1, by rintro d ⟨⟩; rfl⟩

end Completed

section Viable

variable {r : Reader} {u : String}

theorem Extent.Begins.of_append (h : extent.Begins (front ++ back)) : extent.Begins front := by
  obtain ⟨rest, haccepts⟩ := h
  exact ⟨back ++ rest, by rwa [← String.append_assoc]⟩

/-- A text goes on as the trees do that it is completed to. -/
theorem IsComplete.begins (hts : IsComplete extent ts) {more : List Char}
    (hlexemes : ts.flatMap Tree.lexemes = taken.map Token.lexeme ++ ls)
    (hfront : Spells front.toList (taken.map Token.lexeme)) (hmore : Spells (u.toList ++ more) ls) :
    extent.Begins (front ++ " " ++ u) := by
  have hback : Spells (' ' :: (u.toList ++ more)) ls := .blank rfl hmore
  have hend : EndsLabel (' ' :: (u.toList ++ more)) := by rintro d ⟨⟩; rfl
  refine ⟨String.ofList more, hts.accepts ?_⟩
  rw [hlexemes]
  simpa using hfront.append hback fun _ => hend

/-- Where a tree may come next, every tree leads on to an accepted text. -/
theorem begins_of_takesTree (hr : Reader.Reached extent blankStart taken r)
    (hfront : Spells front.toList (taken.map Token.lexeme)) (htakes : r.TakesTree extent)
    (hu : Spells u.toList t.lexemes) : extent.Begins (front ++ " " ++ u) := by
  obtain ⟨ts, hts, hlexemes⟩ := htakes.exists_isComplete hr.atMostOne t
  obtain ⟨hclosings, hend⟩ := spells_closings r.frames.length
  rw [hr.lexemes_eq] at hlexemes
  exact hts.begins hlexemes hfront (hu.append hclosings fun _ => hend)

/-- After an opening bracket every label leads on to an accepted text: the new node is given a child
and closed, and so are those around it. -/
theorem begins_of_awaitingLabel (hr : Reader.Reached extent blankStart taken r)
    (hfront : Spells front.toList (taken.map Token.lexeme)) (hawaiting : r.awaitingLabel = true)
    (ha : IsReadable a) : extent.Begins (front ++ " " ++ a) := by
  have hfinished (hone : extent = .one) :
      Reader.AtMostOne { r with awaitingLabel := false } := by
    refine (hr.atMostOne hone).imp_right fun h => ?_
    simp [hawaiting] at h
  obtain ⟨ts, hts, hlexemes⟩ :=
    (hr.takesTree hawaiting).exists_isComplete hfinished (.node a [.leaf "x"])
  obtain ⟨hclosings, hend⟩ := spells_closings (r.frames.length + 1)
  have hx : IsReadable "x" := by decide
  have hmore : Spells (a.toList ++ ' ' :: ("x".toList ++
      List.replicate (r.frames.length + 1) ')'))
      (.label a :: .label "x" :: List.replicate (r.frames.length + 1) .closing) :=
    .label ha (by rintro d ⟨⟩; rfl) (.blank rfl (.label hx hend hclosings))
  refine hts.begins ?_ hfront hmore
  rw [hlexemes, ← hr.lexemes_eq, Tree.lexemes_node (by simp)]
  simp [Reader.lexemes, hawaiting, List.replicate_succ]

/-- A text is accepted if its trees are finished. -/
theorem accepts_of_finished (hr : Reader.Reached extent blankStart taken r)
    (hfront : Spells front.toList (taken.map Token.lexeme)) (hframes : r.frames = [])
    (hawaiting : r.awaitingLabel = false) (hfinished : r.finished ≠ []) : extent.Accepts front := by
  have hlexemes : taken.map Token.lexeme = r.finished.reverse.flatMap Tree.lexemes := by
    rw [← hr.lexemes_eq]
    simp [Reader.lexemes, hframes, hawaiting]
  rw [hlexemes] at hfront
  refine IsComplete.accepts ⟨by simpa using hfinished, fun hone => ?_⟩ hfront
  rw [List.length_reverse]
  exact ((hr.atMostOne hone).resolve_left hfinished).1

/-- Whatever expected tokens lead to can be completed. -/
theorem begins_of_reached (hr : Reader.Reached extent blankStart taken r)
    (hfront : Spells front.toList (taken.map Token.lexeme)) : extent.Begins front := by
  have hx : IsReadable "x" := by decide
  cases hawaiting : r.awaitingLabel with
  | true => exact (begins_of_awaitingLabel hr hfront hawaiting hx).of_append.of_append
  | false =>
    by_cases hroom : r.frames ≠ [] ∨ extent = .many ∨ r.finished = []
    · have hleaf : Spells "x".toList (Tree.leaf "x").lexemes :=
        .label hx (by rintro d ⟨⟩) .nil
      exact (begins_of_takesTree hr hfront ⟨hawaiting, hroom⟩ hleaf).of_append.of_append
    · simp only [not_or, ne_eq, not_not] at hroom
      refine ⟨"", ?_⟩
      rw [String.append_empty]
      exact accepts_of_finished hr hfront hroom.1 hawaiting hroom.2.2

end Viable

end Constituency.Brackets

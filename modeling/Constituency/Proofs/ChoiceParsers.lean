import Constituency.Proofs.ReadTrees
import Constituency.Proofs.TextParsers

/-!
# Readers and parsers by ordered choice

The reader of bracketed trees reads what the parser reads and fails as the parser fails. It goes
over the text once and never back, and the parser tries every alternative and keeps the furthest
failure; but wherever the parser looks for a tree, that failure names what the reader expects.
-/

namespace Constituency.Brackets

open TextParser

variable {α : Type} {extent : Extent} {text : List Char} {input next last : Input}
  {failure new : Option Failure} {labelEnd : Option Nat} {r : Reader} {t : Tree} {ts : List Tree}
  {e : SyntaxError} {c : Char} {cs : List Char}

section Tokens

theorem Input.IsSkipped.isReadable (hskipped : input.IsSkipped)
    (hne : input.rest.takeWhile isLabelChar ≠ []) :
    IsReadable (String.ofList (input.rest.takeWhile isLabelChar)) := by
  refine ⟨by simpa using hne, ?_, ?_⟩
  · intro c hc
    exact List.mem_takeWhile_imp (by simpa using hc)
  · intro c hc
    rw [String.toList_ofList] at hc
    obtain ⟨cs, hcs⟩ := List.head?_eq_some_iff.mp hc
    have hhead : input.rest.head? = some c := by
      rw [← List.takeWhile_append_dropWhile (p := isLabelChar) (l := input.rest), hcs]
      rfl
    simpa [IsSkipped, hhead] using hskipped

/-- A label goes as far as it can. -/
theorem Input.IsSkipped.tokens_of_run (hskipped : input.IsSkipped)
    (hne : input.rest.takeWhile isLabelChar ≠ []) :
    input.tokens = ⟨.label (String.ofList (input.rest.takeWhile isLabelChar)), input.position,
      (afterRun isLabelChar input).position⟩ :: (afterRun isLabelChar input).tokens := by
  have hend : EndsLabel (input.rest.dropWhile isLabelChar) := by
    intro c hc
    have hstop := List.head?_dropWhile_not isLabelChar input.rest
    rw [Option.mem_def.mp hc] at hstop
    simpa using hstop
  have hscan : Token.scan input.position _ = _ :=
    scan_label (hskipped.isReadable hne) hend
  rw [String.toList_ofList, List.takeWhile_append_dropWhile] at hscan
  exact hscan

/-- The token in front tells what must be expected. -/
theorem Input.IsSkipped.exists_tokens (hskipped : input.IsSkipped) (hrest : input.rest = c :: cs) :
    ∃ token tokens, input.tokens = token :: tokens ∧ token.start = input.position ∧
      token.lexeme.expectation = .ofChar c := by
  have hblank : isBlank c = false := by simpa [IsSkipped, hrest] using hskipped
  rw [tokens, hrest, Token.scan, if_neg (by simp [hblank])]
  split
  · exact ⟨_, _, rfl, rfl, by simp [*, Lexeme.expectation, Expectation.ofChar]⟩
  · split <;> exact ⟨_, _, rfl, rfl, by simp [*, Lexeme.expectation, Expectation.ofChar]⟩

theorem Input.tokens_of_end (hrest : input.rest = []) : input.tokens = [] := by
  rw [tokens, hrest, Token.scan]

end Tokens

namespace Reader

variable {stop : Nat}

/-- The reader goes on at this position. -/
def readOn (extent : Extent) (text : List Char) (r : Reader) (input : Input) :
    Except SyntaxError (List Tree) :=
  r.readAll extent text input.tokens

theorem readOn_skipBlanks : r.readOn extent text input.skipBlanks = r.readOn extent text input := by
  rw [readOn, Input.tokens_skipBlanks, readOn]

theorem readAll_cons_of_mem {token : Token} {tokens : List Token}
    (h : token.lexeme.expectation ∈ r.expected extent (text.head?.any isBlank)) :
    r.readAll extent text (token :: tokens) = (r.read token).readAll extent text tokens := by
  have hrequire : r.require extent text token.lexeme.expectation token.start = .ok () :=
    require_eq_ok.mpr h
  rw [readAll, hrequire]
  rfl

theorem readOn_opening (hrest : input.rest = '(' :: cs)
    (h : .tree ∈ r.expected extent (text.head?.any isBlank)) :
    r.readOn extent text input =
      (r.read ⟨.opening, input.position, input.position + 1⟩).readOn extent text
        ⟨input.position + 1, cs⟩ := by
  rw [readOn, Input.tokens, hrest, scan_opening]
  exact readAll_cons_of_mem h

theorem readOn_closing (hrest : input.rest = ')' :: cs)
    (h : .closing ∈ r.expected extent (text.head?.any isBlank)) :
    r.readOn extent text input =
      (r.read ⟨.closing, input.position, input.position + 1⟩).readOn extent text
        ⟨input.position + 1, cs⟩ := by
  rw [readOn, Input.tokens, hrest, scan_closing]
  exact readAll_cons_of_mem h

theorem readOn_label (hskipped : input.IsSkipped) (hne : input.rest.takeWhile isLabelChar ≠ [])
    (h : .label ∈ r.expected extent (text.head?.any isBlank)) :
    r.readOn extent text input =
      (r.read ⟨.label (String.ofList (input.rest.takeWhile isLabelChar)), input.position,
        (afterRun isLabelChar input).position⟩).readOn extent text
          (afterRun isLabelChar input) := by
  rw [readOn, hskipped.tokens_of_run hne]
  exact readAll_cons_of_mem h

/-- A reader fails where it does not expect what comes next. -/
theorem exists_readOn_eq_error {expected : List Expectation} (hof : input.IsOf text)
    (hskipped : input.IsSkipped) (hexpected : r.expected extent (text.head?.any isBlank) = expected)
    (h : input.ahead ∉ expected) :
    ∃ e, r.readOn extent text input = .error e ∧ e.position = input.position ∧
      e.failure = misfit r.labelEnd input (expected.map Expectation.text) := by
  subst hexpected
  refine ⟨⟨input.position, input.rest.head?, r.labelEnd == some input.position,
    r.expected extent (text.head?.any isBlank)⟩, ?_, rfl, ?_⟩
  · rw [readOn, ← hof.getElem?_eq]
    cases hrest : input.rest with
    | nil =>
      rw [Input.tokens_of_end hrest, readAll_nil_eq_error, require_eq_error, hof.length_eq hrest]
      simpa [Input.ahead, hrest] using h
    | cons c cs =>
      obtain ⟨token, tokens, htokens, hstart, hkind⟩ := hskipped.exists_tokens hrest
      rw [htokens, readAll_cons_eq_error, require_eq_error, hstart, hkind]
      exact .inl ⟨by simpa [Input.ahead, hrest] using h, rfl⟩
  · simp [SyntaxError.failure, SyntaxError.alternatives, misfit]

theorem read_label {a : String} {start : Nat} (h : r.awaitingLabel = false) :
    r.read ⟨.label a, start, stop⟩ = { r.finish (.leaf a) with labelEnd := some stop } := by
  obtain ⟨finished, frames, awaiting, labelEnd⟩ := r
  obtain rfl : awaiting = false := h
  cases frames <;> rfl

theorem finish_labelEnd :
    { r with labelEnd }.finish t = { r.finish t with labelEnd } := by
  obtain ⟨finished, frames, awaiting, stop⟩ := r
  cases frames <;> rfl

theorem foldl_finish_labelEnd :
    ts.foldl finish { r with labelEnd } = { ts.foldl finish r with labelEnd } := by
  induction ts generalizing r with
  | nil => rfl
  | cons t ts ih => rw [List.foldl_cons, finish_labelEnd, ih, List.foldl_cons]

end Reader

section Following

/-- What the outcome of parsing a tree tells of a reader that may take one: it goes on with the
tree, or there is no tree to start with, or it fails within the tree. -/
inductive Follows (extent : Extent) (text : List Char) (r : Reader) (input : Input) :
    Outcome Tree → Prop where
  | tree (labelEnd : Option Nat) {t : Tree} {next : Input} {failure : Option Failure}
      (shorter : next.rest.length < input.rest.length) (of : next.IsOf text)
      (fits : Fits labelEnd next failure)
      (reads : r.readOn extent text input =
        { r.finish t with labelEnd }.readOn extent text next) :
      Follows extent text r input ⟨some (t, next), failure⟩
  | misfit (start : ∀ c ∈ input.rest.head?, c = ')') : Follows extent text r input
      ⟨none, some (misfit r.labelEnd input ["bracketed tree", "label"])⟩
  | fails {e : SyntaxError} (start : input.rest.head? = some '(')
      (reads : r.readOn extent text input = .error e) (further : input.position < e.position) :
      Follows extent text r input ⟨none, some e.failure⟩

/-- The parser goes along with every reader that may take a tree, if less than `n` characters are
left. -/
def FollowsBelow (extent : Extent) (text : List Char) (p : TextParser Tree) (n : Nat) : Prop :=
  ∀ (r : Reader) (input : Input) (failure : Option Failure), input.rest.length < n →
    input.IsOf text → input.IsSkipped → r.TakesTree extent → Fits r.labelEnd input failure →
      Follows extent text r input (p input failure)

/-- A reader goes on with the trees that were collected, and where they end it has no other tree. -/
structure Collected (extent : Extent) (text : List Char) (r : Reader) (input : Input)
    (ts : List Tree) (last : Input) (failure : Option Failure) (labelEnd : Option Nat) : Prop where
  of : last.IsOf text
  shorter : last.rest.length ≤ input.rest.length
  start : ts = [] → last = input
  skipped : ts ≠ [] → last.IsSkipped
  reads : r.readOn extent text input =
    { ts.foldl Reader.finish r with labelEnd }.readOn extent text last
  stops : Follows extent text { ts.foldl Reader.finish r with labelEnd } last.skipBlanks
    ⟨none, failure⟩

theorem collected_nil (hof : input.IsOf text)
    (hstops : Follows extent text r input.skipBlanks ⟨none, failure⟩) :
    Collected extent text r input [] input failure r.labelEnd where
  of := hof
  shorter := le_rfl
  start _ := rfl
  skipped h := absurd rfl h
  reads := rfl
  stops := hstops

theorem Collected.cons {stop : Option Nat}
    (hshorter : next.skipBlanks.rest.length ≤ input.rest.length)
    (hreads : r.readOn extent text input =
      { r.finish t with labelEnd := stop }.readOn extent text next)
    (h : Collected extent text { r.finish t with labelEnd := stop } next.skipBlanks ts last failure
      labelEnd) : Collected extent text r input (t :: ts) last failure labelEnd where
  of := h.of
  shorter := h.shorter.trans hshorter
  start h := absurd h (List.cons_ne_nil t ts)
  skipped _ := by
    by_cases hts : ts = []
    · rw [h.start hts]
      exact next.isSkipped_skipBlanks
    · exact h.skipped hts
  reads := by
    have hrest := h.reads
    rw [Reader.foldl_finish_labelEnd, Reader.readOn_skipBlanks] at hrest
    exact hreads.trans hrest
  stops := by
    have hstops := h.stops
    rw [Reader.foldl_finish_labelEnd] at hstops
    exact hstops

theorem exists_collected {p : TextParser Tree} {n : Nat} (hp : FollowsBelow extent text p n)
    (hlt : input.rest.length < n) (hof : input.IsOf text) (htakes : r.TakesTrees extent)
    (hfits : Fits r.labelEnd input failure) : ∃ ts last new labelEnd,
      p.padded.collect input failure = (ts, last, new) ∧
        Collected extent text r input ts last new labelEnd := by
  induction hlength : input.rest.length using Nat.strong_induction_on
    generalizing input failure r with
  | _ length ih =>
    have hskip := input.length_skipBlanks_le
    have hfollows := hp r input.skipBlanks failure (hskip.trans_lt hlt) hof.skipBlanks
      input.isSkipped_skipBlanks htakes.takesTree hfits.skipBlanks
    generalize hout : p input.skipBlanks failure = outcome at hfollows
    have hstop := hfollows
    cases hfollows with
    | misfit | fails =>
      exact ⟨[], input, _, r.labelEnd, collect_of_none (padded_of_none hout),
        collected_nil hof hstop⟩
    | @tree stop t next new shorter of fits reads =>
      have hshorter : next.skipBlanks.rest.length < input.rest.length :=
        next.length_skipBlanks_le.trans_lt (shorter.trans_le hskip)
      rw [Reader.readOn_skipBlanks] at reads
      obtain ⟨ts, last, final, labelEnd, hcollect, hcollected⟩ :=
        ih next.skipBlanks.rest.length (hlength ▸ hshorter) (hshorter.trans hlt)
          (r := { r.finish t with labelEnd := stop }) of.skipBlanks
          ⟨(htakes.finish t).named, (htakes.finish t).room⟩ fits.skipBlanks rfl
      exact ⟨t :: ts, last, final, labelEnd,
        collect_of_some (padded_of_some hout) hshorter hcollect, hcollected.cons hshorter.le reads⟩

/-- The place is in the tree that an opening bracket starts. -/
structure Within (text : List Char) (input place : Input) : Prop where
  start : input.rest.head? = some '('
  inputOf : input.IsOf text
  of : place.IsOf text
  skipped : place.IsSkipped
  shorter : place.rest.length < input.rest.length

theorem Within.position_lt {place : Input} (h : Within text input place) :
    input.position < place.position := by
  have hsum := h.inputOf.position_add
  have hsum' := h.of.position_add
  have hshorter := h.shorter
  omega

section Node

variable {place : Input} (hwithin : Within text input place)
include hwithin

/-- Within a tree the parser fails where the reader expects none of what may be there. -/
theorem follows_of_misfit {current : Reader} {expected : List Expectation}
    (hreads : r.readOn extent text input = current.readOn extent text place)
    (hexpected : current.expected extent (text.head?.any isBlank) = expected)
    (h : place.ahead ∉ expected) :
    Follows extent text r input
      ⟨none, some (misfit current.labelEnd place (expected.map Expectation.text))⟩ := by
  obtain ⟨e, herror, hposition, hfailure⟩ :=
    Reader.exists_readOn_eq_error hwithin.of hwithin.skipped hexpected h
  rw [← hfailure]
  exact .fails hwithin.start (hreads.trans herror) (hposition ▸ hwithin.position_lt)

/-- There is no tree where a bracket was opened and no label follows. -/
theorem follows_of_nameless (hrun : place.rest.takeWhile isLabelChar = [])
    (hreads : r.readOn extent text input =
      { r with awaitingLabel := true, labelEnd := none }.readOn extent text place) :
    Follows extent text r input ⟨none, some (misfit none place ["label"])⟩ := by
  have hexpected : Reader.expected extent (text.head?.any isBlank)
      { r with awaitingLabel := true, labelEnd := none } = [.label] := rfl
  refine follows_of_misfit hwithin hreads hexpected ?_
  rcases hwithin.skipped.cases with hnil | ⟨cs, hcs⟩ | ⟨cs, hcs⟩ | hne
  · simp [Input.ahead, hnil]
  · simp [Input.ahead, hcs, Expectation.ofChar]
  · simp [Input.ahead, hcs, Expectation.ofChar]
  · exact absurd hrun hne

variable {a : String} (hnamed : r.awaitingLabel = false)
include hnamed

/-- A node is closed where its children end. -/
theorem exists_closing (hne : ts ≠ [])
    (hreads : r.readOn extent text input =
      { r with frames := ⟨a, ts.reverse⟩ :: r.frames, labelEnd }.readOn extent text place)
    (hstops : Follows extent text { r with frames := ⟨a, ts.reverse⟩ :: r.frames, labelEnd } place
      ⟨none, failure⟩) :
    ∃ result new, input.position < new.position ∧
      Follows extent text r input ⟨result, some new⟩ ∧
      (do let _ ← just ')'
          return .node a ts : TextParser Tree) place failure = ⟨result, some new⟩ := by
  obtain ⟨t, rest, hreverse⟩ := List.exists_cons_of_ne_nil (List.reverse_ne_nil_iff.mpr hne)
  have hexpected : Reader.expected extent (text.head?.any isBlank)
      { r with frames := ⟨a, ts.reverse⟩ :: r.frames, labelEnd } = [.tree, .label, .closing] := by
    simp [Reader.expected, hnamed, hreverse]
  cases hstops with
  | misfit start =>
    cases hrest : place.rest with
    | nil =>
      have hfail : just ')' place
          (some (misfit labelEnd place ["bracketed tree", "label"])) =
            ⟨none, some (misfit labelEnd place ["bracketed tree", "label", "')'"])⟩ :=
        (just_of_head_ne (by simp [hrest])).trans (fail_of_misfit (by decide) (by decide))
      exact ⟨none, _, hwithin.position_lt,
        follows_of_misfit hwithin hreads hexpected
          (Input.ahead_notMem start (by decide) (by simp [hrest])), bind_of_none hfail⟩
    | cons c cs =>
      obtain rfl : c = ')' := start c (by simp [hrest])
      have hread : Reader.read { r with frames := ⟨a, ts.reverse⟩ :: r.frames, labelEnd }
          ⟨.closing, place.position, place.position + 1⟩ =
            { r.finish (.node a ts) with labelEnd := none } := by
        obtain ⟨finished, frames, awaiting, stop⟩ := r
        cases frames <;> simp [Reader.read, Reader.finish]
      refine ⟨some (.node a ts, ⟨place.position + 1, cs⟩), _, hwithin.position_lt, ?_,
        bind_of_some (just_of_head hrest)⟩
      refine .tree none ?_ (hwithin.of.after [')'] hrest) ?_ ?_
      · have hshorter := hwithin.shorter
        rw [hrest, List.length_cons] at hshorter
        exact (Nat.lt_succ_self _).trans hshorter
      · refine fits_of_forall_lt ?_
        rintro f ⟨⟩
        exact Nat.lt_succ_self _
      · rw [hreads, Reader.readOn_closing hrest (by simp [hexpected]), hread]
  | @fails e start reads further =>
    have hfail : just ')' place (some e.failure) = ⟨none, some e.failure⟩ :=
      (just_of_head_ne (by simp [start])).trans (fail_of_further further)
    have hfurther := hwithin.position_lt.trans further
    exact ⟨none, e.failure, hfurther, .fails hwithin.start (hreads.trans reads) hfurther,
      bind_of_none hfail⟩

/-- The children of a node and its closing bracket. -/
theorem exists_node {p : TextParser Tree} {n : Nat} (hp : FollowsBelow extent text p n)
    (hn : place.rest.length < n) (hfits : Fits labelEnd place failure)
    (hreads : r.readOn extent text input =
      { r with frames := ⟨a, []⟩ :: r.frames, labelEnd }.readOn extent text place) :
    ∃ result new, input.position < new.position ∧
      Follows extent text r input ⟨result, some new⟩ ∧
      (do let children ← p.padded.repeated 1
          let _ ← just ')'
          return .node a children : TextParser Tree) place failure = ⟨result, some new⟩ := by
  have hopened : Reader.TakesTrees extent
      { r with frames := ⟨a, []⟩ :: r.frames, labelEnd } := ⟨hnamed, .inl (List.cons_ne_nil _ _)⟩
  obtain ⟨ts, last, new, stop, hcollect, hcollected⟩ :=
    exists_collected hp hn hwithin.of hopened hfits
  have hlast : last.IsSkipped := by
    by_cases hts : ts = []
    · exact hcollected.start hts ▸ hwithin.skipped
    · exact hcollected.skipped hts
  have hwithin : Within text input last := {
    hwithin with
    of := hcollected.of
    skipped := hlast
    shorter := hcollected.shorter.trans_lt hwithin.shorter }
  have hfilled : ts.foldl Reader.finish { r with frames := ⟨a, []⟩ :: r.frames, labelEnd } =
      { r with frames := ⟨a, ts.reverse ++ []⟩ :: r.frames, labelEnd } :=
    Reader.foldl_finish_open rfl
  have hreads := hreads.trans hcollected.reads
  have hstops := hcollected.stops
  rw [hfilled, List.append_nil] at hreads
  rw [hlast.skipBlanks_eq, hfilled, List.append_nil] at hstops
  by_cases hne : ts = []
  · subst hne
    have hfail := repeated_of_lt hcollect (show 0 < 1 by decide)
    cases hstops with
    | misfit start =>
      have hexpected : Reader.expected extent (text.head?.any isBlank)
          { r with frames := ⟨a, []⟩ :: r.frames, labelEnd := stop } = [.tree, .label] := by
        simp [Reader.expected, hnamed]
      exact ⟨none, _, hwithin.position_lt,
        follows_of_misfit hwithin hreads hexpected
          (Input.ahead_notMem start (by decide) fun _ => by decide), bind_of_none hfail⟩
    | @fails e start reads further =>
      have hfurther := hwithin.position_lt.trans further
      exact ⟨none, e.failure, hfurther, .fails hwithin.start (hreads.trans reads) hfurther,
        bind_of_none hfail⟩
  · obtain ⟨result, final, hposition, hfollows, hclosing⟩ :=
      exists_closing hwithin hnamed hne hreads hstops
    exact ⟨result, final, hposition, hfollows,
      (bind_of_some (repeated_of_le hcollect (List.length_pos_iff.mpr hne))).trans hclosing⟩

/-- The label of a node and what follows it. -/
theorem exists_named {p : TextParser Tree} {n : Nat} (hp : FollowsBelow extent text p n)
    (hn : place.rest.length < n) (hrun : place.rest.takeWhile isLabelChar ≠ [])
    (hreads : r.readOn extent text input =
      { r with awaitingLabel := true, labelEnd := none }.readOn extent text place) :
    ∃ result new, input.position < new.position ∧
      Follows extent text r input ⟨result, some new⟩ ∧
      (do let children ← p.padded.repeated 1
          let _ ← just ')'
          return .node (String.ofList (place.rest.takeWhile isLabelChar)) children :
            TextParser Tree) (afterRun isLabelChar place).skipBlanks
          (some (Failure.furthest none ⟨(afterRun isLabelChar place).position,
            (afterRun isLabelChar place).rest.head?, ["something else"]⟩)) =
        ⟨result, some new⟩ := by
  let after : Input := afterRun isLabelChar place
  have hlength : after.skipBlanks.rest.length < place.rest.length :=
    after.length_skipBlanks_le.trans_lt (length_afterRun_lt hrun)
  have hafter : after.IsOf text := hwithin.of.after _ (List.takeWhile_append_dropWhile).symm
  have hwithin' : Within text input after.skipBlanks := {
    hwithin with
    of := hafter.skipBlanks
    skipped := after.isSkipped_skipBlanks
    shorter := hlength.trans hwithin.shorter }
  have hfits : Fits (some after.position) after.skipBlanks
      (some (Failure.furthest none ⟨after.position, after.rest.head?, ["something else"]⟩)) :=
    (fits_afterRun hrun (by simp)).skipBlanks
  have hexpected : Reader.expected extent (text.head?.any isBlank)
      { r with awaitingLabel := true, labelEnd := none } = [.label] := rfl
  have hread : Reader.read { r with awaitingLabel := true, labelEnd := none }
      ⟨.label (String.ofList (place.rest.takeWhile isLabelChar)), place.position,
        after.position⟩ =
      { r with
        frames := ⟨String.ofList (place.rest.takeWhile isLabelChar), []⟩ :: r.frames
        labelEnd := some after.position } := by
    simp [Reader.read, hnamed]
  have hreads := hreads.trans (Reader.readOn_label hwithin.skipped hrun (by simp [hexpected]))
  rw [hread] at hreads
  exact exists_node hwithin' hnamed hp (hlength.trans hn) hfits
    (hreads.trans Reader.readOn_skipBlanks.symm)

end Node

section Trees

variable {p : TextParser Tree} (hp : FollowsBelow extent text p input.rest.length)
  (hof : input.IsOf text) (htakes : r.TakesTree extent)
include hp hof htakes

/-- An opening bracket leads into a tree. -/
theorem exists_bracketed (hrest : input.rest = '(' :: cs) : ∃ result new,
    input.position < new.position ∧ Follows extent text r input ⟨result, some new⟩ ∧
      bracketed p input none = ⟨result, some new⟩ := by
  let opened : Input := ⟨input.position + 1, cs⟩
  have hshorter : opened.skipBlanks.rest.length < input.rest.length := by
    refine opened.length_skipBlanks_le.trans_lt ?_
    rw [hrest]
    exact Nat.lt_succ_self _
  have hopened : opened.IsOf text := hof.after ['('] hrest
  have hwithin : Within text input opened.skipBlanks :=
    ⟨by rw [hrest]; rfl, hof, hopened.skipBlanks, opened.isSkipped_skipBlanks, hshorter⟩
  have hreads : r.readOn extent text input =
      { r with awaitingLabel := true, labelEnd := none }.readOn extent text opened.skipBlanks := by
    rw [Reader.readOn_skipBlanks]
    exact Reader.readOn_opening hrest (htakes.expected _).1
  by_cases hrun : opened.skipBlanks.rest.takeWhile isLabelChar = []
  · have hlabel : label.padded opened none =
        ⟨none, some (misfit none opened.skipBlanks ["label"])⟩ :=
      padded_of_none ((label_of_misfit hrun).trans (fail_of_fits fits_none (by decide)))
    exact ⟨none, _, hwithin.position_lt, follows_of_nameless hwithin hrun hreads,
      (bind_of_some (just_of_head hrest)).trans (bind_of_none hlabel)⟩
  · have hlabel : label.padded opened none = _ := padded_of_some (label_of_run hrun)
    obtain ⟨result, new, hposition, hfollows, hnode⟩ :=
      exists_named hwithin htakes.named hp hshorter hrun hreads
    exact ⟨result, new, hposition, hfollows,
      (bind_of_some (just_of_head hrest)).trans ((bind_of_some hlabel).trans hnode)⟩

theorem follows_treeBody_of_opening (hrest : input.rest = '(' :: cs)
    (hfits : Fits r.labelEnd input failure) :
    Follows extent text r input (treeBody p input failure) := by
  obtain ⟨result, new, hposition, hfollows, hbracketed⟩ := exists_bracketed hp hof htakes hrest
  have hfurthest : Failure.furthest failure new = new :=
    furthest_eq_of_forall_lt fun f hf => (hfits.position_le f hf).trans_lt hposition
  have hlabelled : labelled "bracketed tree" (bracketed p) input failure =
      ⟨result, some (Failure.furthest failure new)⟩ := labelled_of_lt hbracketed hposition
  rw [hfurthest] at hlabelled
  cases result with
  | some read =>
    have hbody : treeBody p input failure = ⟨some read, some new⟩ := orElse_of_some hlabelled
    rw [hbody]
    exact hfollows
  | none =>
    -- A label is tried, too, but its failure is where the bracket was opened.
    have hrun : input.rest.takeWhile isLabelChar = [] := by
      simp [hrest, isLabelChar, labelEnds]
    have hlabel : label input (some new) = ⟨none, some new⟩ :=
      (label_of_misfit hrun).trans (fail_of_further hposition)
    have hbody : treeBody p input failure = ⟨none, some new⟩ :=
      (orElse_of_none hlabelled).trans (map_of_none hlabel)
    rw [hbody]
    exact hfollows

omit hp in
/-- Without an opening bracket the tree is a label. -/
theorem follows_treeBody_of_label (hopening : input.rest.head? ≠ some '(')
    (hskipped : input.IsSkipped) (hfits : Fits r.labelEnd input failure) :
    Follows extent text r input (treeBody p input failure) := by
  have hbracketed : bracketed p input none =
      ⟨none, some ⟨input.position, input.rest.head?, ["'('"]⟩⟩ :=
    bind_of_none (just_of_head_ne hopening)
  have hlabelled : labelled "bracketed tree" (bracketed p) input failure =
      ⟨none, some (misfit r.labelEnd input ["bracketed tree"])⟩ := by
    rw [labelled_of_eq hbracketed rfl, hfits.furthest_eq (by decide)]
  have hbody : treeBody p input failure =
      (Tree.leaf <$> label) input (some (misfit r.labelEnd input ["bracketed tree"])) :=
    orElse_of_none hlabelled
  by_cases hrun : input.rest.takeWhile isLabelChar = []
  · have hlabel : label input (some (misfit r.labelEnd input ["bracketed tree"])) =
        ⟨none, some (misfit r.labelEnd input ["bracketed tree", "label"])⟩ :=
      (label_of_misfit hrun).trans (fail_of_misfit (by decide) (by decide))
    rw [hbody, map_of_none hlabel]
    refine .misfit fun c hc => ?_
    rcases hskipped.cases with hnil | ⟨cs, hcs⟩ | ⟨cs, hcs⟩ | hne
    · simp [hnil] at hc
    · exact absurd (by rw [hcs]; rfl) hopening
    · simpa [hcs, eq_comm] using hc
    · exact absurd hrun hne
  · rw [hbody, map_of_some (label_of_run hrun)]
    refine .tree (some (afterRun isLabelChar input).position)
      (length_afterRun_lt hrun) (hof.after _ (List.takeWhile_append_dropWhile).symm) ?_ ?_
    · refine fits_afterRun hrun ?_
      rintro f ⟨⟩
      exact le_rfl
    · rw [Reader.readOn_label hskipped hrun (htakes.expected _).2, Reader.read_label htakes.named]

/-- The parser of a tree goes along with the reader, if it does within the tree. -/
theorem follows_treeBody (hskipped : input.IsSkipped) (hfits : Fits r.labelEnd input failure) :
    Follows extent text r input (treeBody p input failure) := by
  by_cases hopening : input.rest.head? = some '('
  · obtain ⟨cs, hrest⟩ := List.head?_eq_some_iff.mp hopening
    exact follows_treeBody_of_opening hp hof htakes hrest hfits
  · exact follows_treeBody_of_label hof htakes hopening hskipped hfits

end Trees

theorem followsBelow_recursive (n : Nat) : FollowsBelow extent text (recursive treeBody) n := by
  intro r input failure hlt hof hskipped htakes hfits
  clear hlt
  induction hlength : input.rest.length using Nat.strong_induction_on
    generalizing r input failure with
  | _ length ih =>
    rw [recursive]
    refine follows_treeBody ?_ hof htakes hskipped hfits
    intro r' next new hshorter hof' hskipped' htakes' hfits'
    simpa only [if_pos hshorter] using
      ih next.rest.length (hlength ▸ hshorter) r' next new hof' hskipped' htakes' hfits' rfl

end Following

section Texts

variable {source : String} {p : TextParser α} {a : α} {expected : List Expectation}

/-- Where the parser has read all that it can, the text ends, or both fail. -/
theorem parse_of_last (h : p ⟨0, source.toList⟩ none = ⟨some (a, last), failure⟩)
    (hof : last.IsOf source.toList) (hskipped : last.IsSkipped)
    (hexpected : r.expected extent (source.toList.head?.any isBlank) = expected)
    (hend : .endOfInput ∈ expected) (hahead : last.rest ≠ [] → last.ahead ∉ expected)
    (hfail : last.rest ≠ [] → (fail "end of input" : TextParser Unit) last failure =
      ⟨none, some (misfit r.labelEnd last (expected.map Expectation.text))⟩)
    (f : List Tree → α) (hfinished : f r.finished.reverse = a) :
    p.parse source =
      ((r.readOn extent source.toList last).map f).mapError SyntaxError.failure := by
  by_cases hrest : last.rest = []
  · have hreads : r.readOn extent source.toList last = .ok r.finished.reverse := by
      rw [Reader.readOn, Input.tokens_of_end hrest]
      exact Reader.readAll_nil_eq_ok.mpr ⟨hexpected ▸ hend, rfl⟩
    rw [parse_of_some h hrest, hreads, ← hfinished]
    rfl
  · obtain ⟨e, herror, -, hfailure⟩ :=
      Reader.exists_readOn_eq_error hof hskipped hexpected (hahead hrest)
    rw [parse_of_rest h hrest (hfail hrest), herror, ← hfailure]
    rfl

theorem readOne_eq : readOne source =
    (Reader.readOn .one source.toList {} ⟨0, source.toList⟩).map fun ts => ts.headD default :=
  rfl

theorem readMany_eq :
    readMany source = (Reader.readOn .many source.toList {} ⟨0, source.toList⟩).map id :=
  (id_map (f := Except SyntaxError) _).symm

/-- The reader of one tree is the parser of trees, on every text and with the same errors. -/
theorem parse_tree (source : String) :
    TextParser.tree.parse source = (readOne source).mapError SyntaxError.failure := by
  let start : Input := ⟨0, source.toList⟩
  have hof : start.IsOf source.toList := Input.isOf_start source.toList
  have hfollows : Follows .one source.toList {} start.skipBlanks _ :=
    followsBelow_recursive _ {} start.skipBlanks none (Nat.lt_succ_self _) hof.skipBlanks
      start.isSkipped_skipBlanks ⟨rfl, .inr (.inr rfl)⟩ fits_none
  generalize hout : recursive treeBody start.skipBlanks none = outcome at hfollows
  rw [readOne_eq, ← Reader.readOn_skipBlanks]
  cases hfollows with
  | @tree labelEnd t next failure shorter of fits reads =>
    have hparse : TextParser.tree start none = ⟨some (t, next.skipBlanks), failure⟩ :=
      padded_of_some hout
    have hexpected : Reader.expected .one (source.toList.head?.any isBlank)
        { Reader.finish {} t with labelEnd } = [.endOfInput] := rfl
    rw [reads, ← Reader.readOn_skipBlanks]
    exact parse_of_last hparse of.skipBlanks next.isSkipped_skipBlanks hexpected (by decide)
      (fun hrest => mt List.mem_singleton.mp (Input.ahead_ne_endOfInput hrest))
      (fun _ => fail_of_fits fits.skipBlanks (by decide)) _ rfl
  | misfit hstart =>
    have hexpected : Reader.expected .one (source.toList.head?.any isBlank) {} =
        [.tree, .label] := rfl
    obtain ⟨e, herror, -, hfailure⟩ := Reader.exists_readOn_eq_error hof.skipBlanks
      start.isSkipped_skipBlanks hexpected
      (Input.ahead_notMem hstart (by decide) fun _ => by decide)
    have hparse := parse_of_none (padded_of_none hout)
    rw [herror]
    exact hparse.trans (congrArg Except.error hfailure.symm)
  | fails _ reads _ =>
    rw [reads]
    exact parse_of_none (padded_of_none hout)

/-- Blanks in front of the first tree are skipped to look for it. If there is none, they stand
again, but the failure behind them is what is reported. -/
theorem parse_of_blank_start (hblank : source.toList.head?.any isBlank = true)
    (h : p ⟨0, source.toList⟩ none = ⟨some (a, ⟨0, source.toList⟩),
      some (misfit labelEnd (Input.skipBlanks ⟨0, source.toList⟩) ["bracketed tree", "label"])⟩)
    (hstart : ∀ c ∈ (Input.skipBlanks ⟨0, source.toList⟩).rest.head?, c = ')')
    (f : List Tree → α) :
    p.parse source = ((Reader.readOn .many source.toList { labelEnd }
      ⟨0, source.toList⟩).map f).mapError SyntaxError.failure := by
  let start : Input := ⟨0, source.toList⟩
  have hfurther : start.position < start.skipBlanks.position := by
    refine start.lt_skipBlanks_or_eq.resolve_right fun heq => ?_
    have hskipped := start.isSkipped_skipBlanks
    rw [heq] at hskipped
    exact absurd (hblank.symm.trans hskipped) (by decide)
  have hrest : start.rest ≠ [] := by
    intro hrest
    simp [start] at hrest
    simp [hrest] at hblank
  have hexpected : Reader.expected .many (source.toList.head?.any isBlank)
      { labelEnd } = [.tree, .label] := by
    simp [Reader.expected, hblank]
  obtain ⟨e, herror, -, hfailure⟩ := Reader.exists_readOn_eq_error
    (Input.isOf_start source.toList).skipBlanks start.isSkipped_skipBlanks hexpected
    (Input.ahead_notMem hstart (by decide) fun _ => by decide)
  rw [← Reader.readOn_skipBlanks, herror, parse_of_rest h hrest (fail_of_further hfurther)]
  exact congrArg Except.error hfailure.symm

/-- The reader of many trees is the parser of any number of them. -/
theorem parse_trees (source : String) : (TextParser.tree.repeated 0).parse source =
    (readMany source).mapError SyntaxError.failure := by
  let start : Input := ⟨0, source.toList⟩
  have hof : start.IsOf source.toList := Input.isOf_start source.toList
  have htakes : Reader.TakesTrees .many {} := ⟨rfl, .inr rfl⟩
  obtain ⟨ts, last, new, stop, hcollect, hcollected⟩ := exists_collected
    (followsBelow_recursive (start.rest.length + 1)) (Nat.lt_succ_self _) hof htakes fits_none
  have hparse : TextParser.tree.repeated 0 start none = ⟨some (ts, last), new⟩ :=
    repeated_of_le hcollect (Nat.zero_le _)
  have hdone : ts.foldl Reader.finish {} = { finished := ts.reverse ++ [] } :=
    Reader.foldl_finish_outside rfl
  have hstops := hcollected.stops
  rw [readMany_eq, hcollected.reads]
  rw [hdone, List.append_nil] at hstops ⊢
  cases hstops with
  | @fails e hstart reads further =>
    have hrest : last.rest ≠ [] := by
      intro hrest
      simp [Input.skipBlanks, hrest] at hstart
    have hfurther : last.position < e.position := (Nat.le_add_right _ _).trans_lt further
    rw [← Reader.readOn_skipBlanks, reads, parse_of_rest hparse hrest (fail_of_further hfurther)]
    rfl
  | misfit hstart =>
    by_cases hblank : ts = [] ∧ source.toList.head?.any isBlank = true
    · obtain ⟨rfl, hblank⟩ := hblank
      obtain rfl : last = start := hcollected.start rfl
      exact parse_of_blank_start hblank hparse hstart id
    · have hskipped : last.IsSkipped := by
        by_cases hts : ts = []
        · rw [hcollected.start hts]
          have hnone : source.toList.head?.any isBlank = false := by simpa [hts] using hblank
          exact hnone
        · exact hcollected.skipped hts
      have hexpected : Reader.expected .many (source.toList.head?.any isBlank)
          { finished := ts.reverse, labelEnd := stop } = [.tree, .label, .endOfInput] := by
        cases hreverse : ts.reverse with
        | nil => simp_all [Reader.expected]
        | cons t ts => rfl
      rw [hskipped.skipBlanks_eq] at hstart hparse
      refine parse_of_last hparse hcollected.of hskipped hexpected (by decide) (fun hrest => ?_)
        (fun _ => fail_of_misfit (by decide) (by decide)) id (List.reverse_reverse ts)
      obtain ⟨c, cs, hcs⟩ := List.exists_cons_of_ne_nil hrest
      obtain rfl : c = ')' := hstart c (by simp [hcs])
      simp [Input.ahead, hcs, Expectation.ofChar]

end Texts

end Constituency.Brackets
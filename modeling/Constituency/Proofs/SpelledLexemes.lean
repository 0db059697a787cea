import Mathlib.Data.List.TakeWhile
import Constituency.Brackets.Token

/-!
# Spelled lexemes

What a text of brackets, labels and blanks says, independently of the way it is scanned. A text
spells exactly one list of lexemes, and scanning finds it.
-/

namespace Constituency.Brackets

/-- The label can be written down and read again: it is not empty, has no character that ends a
label, and does not start with a blank. Other blanks may stand within it. -/
def IsReadable (label : String) : Prop :=
  label ≠ "" ∧ (∀ c ∈ label.toList, isLabelChar c = true) ∧
    ∀ c ∈ label.toList.head?, isBlank c = false

-- The instances are named so that only the label's own characters are looked at.
instance (label : String) : Decidable (IsReadable label) :=
  @instDecidableAnd _ _ inferInstance
    (@instDecidableAnd _ _ (List.decidableBAll _ _) (Option.decidableForallMem _))

/-- A label ends in front of this text. -/
def EndsLabel (cs : List Char) : Prop :=
  ∀ c ∈ cs.head?, isLabelChar c = false

/-- A text spells lexemes. Brackets stand for themselves, a label goes on as far as it can, and
blanks may stand in front of every lexeme and at the end. -/
inductive Spells : List Char → List Lexeme → Prop where
  | nil : Spells [] []
  | blank {c : Char} {cs : List Char} {ls : List Lexeme} (hblank : isBlank c = true)
      (rest : Spells cs ls) : Spells (c :: cs) ls
  | opening {cs : List Char} {ls : List Lexeme} (rest : Spells cs ls) :
      Spells ('(' :: cs) (.opening :: ls)
  | closing {cs : List Char} {ls : List Lexeme} (rest : Spells cs ls) :
      Spells (')' :: cs) (.closing :: ls)
  | label {a : String} {cs : List Char} {ls : List Lexeme} (hreadable : IsReadable a)
      (hend : EndsLabel cs) (rest : Spells cs ls) : Spells (a.toList ++ cs) (.label a :: ls)

section Scanning

variable {c : Char} {cs : List Char} {ls : List Lexeme} {a : String} {pos : Nat}

theorem isLabelChar_eq_false_iff : isLabelChar c = false ↔ c ∈ labelEnds := by
  simp [isLabelChar]

/-- Where a label may start, it starts with a label character. -/
theorem isLabelChar_of_start (hblank : isBlank c = false) (hopening : c ≠ '(')
    (hclosing : c ≠ ')') : isLabelChar c = true := by
  by_contra h
  have hmem := isLabelChar_eq_false_iff.mp (Bool.not_eq_true _ ▸ h)
  simp only [labelEnds, List.mem_cons, List.not_mem_nil, or_false] at hmem
  rcases hmem with rfl | rfl | rfl | rfl | rfl | rfl
  · exact hopening rfl
  · exact hclosing rfl
  all_goals exact absurd hblank (by decide)

theorem IsReadable.exists_cons (h : IsReadable a) :
    ∃ c cs, a.toList = c :: cs ∧ isBlank c = false ∧ c ≠ '(' ∧ c ≠ ')' ∧
      ∀ d ∈ cs, isLabelChar d = true := by
  obtain ⟨hne, hchars, hstart⟩ := h
  cases ha : a.toList with
  | nil => exact absurd (String.toList_eq_nil_iff.mp ha) hne
  | cons c cs =>
    rw [ha] at hchars hstart
    obtain ⟨hc, hcs⟩ := List.forall_mem_cons.mp hchars
    refine ⟨c, cs, rfl, hstart c rfl, ?_, ?_, hcs⟩
    · rintro rfl
      cases hc
    · rintro rfl
      cases hc

/-- Scanning a text finds lexemes that it spells. -/
theorem spells_scan (pos : Nat) (cs : List Char) :
    Spells cs ((Token.scan pos cs).map Token.lexeme) := by
  fun_induction Token.scan pos cs with
  | case1 => exact .nil
  | case2 pos c cs hblank ih => exact .blank hblank ih
  | case3 pos cs _ ih => exact .opening ih
  | case4 pos cs _ _ ih => exact .closing ih
  | case5 pos c cs hblank hopening hclosing run stop ih =>
    have hblank : isBlank c = false := by simpa using hblank
    have hc := isLabelChar_of_start hblank hopening hclosing
    have hrun : ∀ d ∈ run, isLabelChar d = true := fun d hd => List.mem_takeWhile_imp hd
    have hreadable : IsReadable (String.ofList (c :: run)) := by
      refine ⟨by simp, ?_, ?_⟩
      · simpa using ⟨hc, hrun⟩
      · simpa using hblank
    have hend : EndsLabel (cs.dropWhile isLabelChar) := by
      intro d hd
      have hstop := List.head?_dropWhile_not isLabelChar cs
      rw [Option.mem_def.mp hd] at hstop
      simpa using hstop
    have htext : c :: cs = (String.ofList (c :: run)).toList ++ cs.dropWhile isLabelChar := by
      simp [run]
    rw [htext]
    exact .label hreadable hend ih

theorem scan_blank (hblank : isBlank c = true) :
    Token.scan pos (c :: cs) = Token.scan (pos + 1) cs := by
  rw [Token.scan, if_pos hblank]

theorem scan_opening : Token.scan pos ('(' :: cs) =
    ⟨.opening, pos, pos + 1⟩ :: Token.scan (pos + 1) cs := by
  rw [Token.scan, if_neg (by decide), if_pos rfl]

theorem scan_closing : Token.scan pos (')' :: cs) =
    ⟨.closing, pos, pos + 1⟩ :: Token.scan (pos + 1) cs := by
  rw [Token.scan, if_neg (by decide), if_neg (by decide), if_pos rfl]

theorem scan_label (hreadable : IsReadable a) (hend : EndsLabel cs) :
    Token.scan pos (a.toList ++ cs) =
      ⟨.label a, pos, pos + a.toList.length⟩ :: Token.scan (pos + a.toList.length) cs := by
  obtain ⟨c, run, ha, hblank, hopening, hclosing, hrun⟩ := hreadable.exists_cons
  have htake : (run ++ cs).takeWhile isLabelChar = run := by
    rw [List.takeWhile_append_of_pos hrun]
    cases cs with
    | nil => simp
    | cons d cs => simp [hend d rfl]
  have hdrop : (run ++ cs).dropWhile isLabelChar = cs := by
    rw [List.dropWhile_append_of_pos hrun]
    cases cs with
    | nil => rfl
    | cons d cs => simp [hend d rfl]
  have hlength : pos + 1 + run.length = pos + a.toList.length := by
    rw [ha, List.length_cons]
    omega
  rw [← hlength, ha, List.cons_append, Token.scan, if_neg (by simp [hblank]), if_neg hopening,
    if_neg hclosing]
  simp only [htake, hdrop, ← ha, String.ofList_toList]

theorem scan_of_spells (h : Spells cs ls) (pos : Nat) :
    (Token.scan pos cs).map Token.lexeme = ls := by
  induction h generalizing pos with
  | nil => rw [Token.scan, List.map_nil]
  | blank hblank _ ih => rw [scan_blank hblank, ih]
  | opening _ ih => rw [scan_opening, List.map_cons, ih]
  | closing _ ih => rw [scan_closing, List.map_cons, ih]
  | label hreadable hend _ ih => rw [scan_label hreadable hend, List.map_cons, ih]

/-- The lexemes of a text are all that it spells. -/
theorem spells_iff {text : String} : Spells text.toList ls ↔ lexemes text = ls := by
  constructor
  · intro h
    exact scan_of_spells h 0
  · rintro rfl
    exact spells_scan 0 text.toList

/-- What spells nothing is empty, unless it starts with a blank. -/
theorem Spells.eq_nil (h : Spells cs []) (hstart : cs.head?.any isBlank = false) : cs = [] := by
  cases h with
  | nil => rfl
  | blank hblank _ => simp [hblank] at hstart

/-- Only readable labels are spelled. -/
theorem Spells.readable (h : Spells cs ls) (ha : .label a ∈ ls) : IsReadable a := by
  induction h with
  | nil => cases ha
  | blank _ _ ih => exact ih ha
  | opening _ ih | closing _ ih => exact ih (by simpa using ha)
  | label hreadable _ _ ih =>
    rcases List.mem_cons.mp ha with he | ha
    · cases he
      exact hreadable
    · exact ih ha

end Scanning

end Constituency.Brackets

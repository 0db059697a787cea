import Constituency.Tree.Basic
import Constituency.Brackets.Blank

/-!
# Tokens of bracketed text

A label is a maximal run of characters other than brackets, space, tab, carriage return and line
feed. Blank characters are skipped wherever a token may start, so that the more unusual ones are
part of a label once it has started.
-/

namespace Constituency.Brackets

inductive Lexeme where
  | opening
  | closing
  | label (text : String)
deriving DecidableEq, Repr

/-- A lexeme with the half-open range of character positions it was read from. -/
structure Token where
  lexeme : Lexeme
  start : Nat
  stop : Nat
deriving DecidableEq, Repr

/-- The characters that end a label. -/
def labelEnds : List Char :=
  ['(', ')', ' ', '\t', '\r', '\n']

def isLabelChar (c : Char) : Bool :=
  !labelEnds.contains c

namespace Token

/-- The tokens of a text whose first character stands at position `pos`. -/
def scan (pos : Nat) : List Char → List Token
  | [] => []
  | c :: cs =>
    if isBlank c then scan (pos + 1) cs
    else if c = '(' then ⟨.opening, pos, pos + 1⟩ :: scan (pos + 1) cs
    else if c = ')' then ⟨.closing, pos, pos + 1⟩ :: scan (pos + 1) cs
    else
      let rest := cs.takeWhile isLabelChar
      let stop := pos + 1 + rest.length
      ⟨.label (String.ofList (c :: rest)), pos, stop⟩ :: scan stop (cs.dropWhile isLabelChar)
termination_by cs => cs.length
decreasing_by
  all_goals simp only [List.length_cons]
  all_goals have := (List.dropWhile_sublist (l := cs) isLabelChar).length_le
  all_goals omega

end Token

/-- The lexemes of a text. -/
def lexemes (text : String) : List Lexeme :=
  (Token.scan 0 text.toList).map Token.lexeme

end Constituency.Brackets

namespace Constituency.Tree

open Brackets (Lexeme)

/-- The lexemes that denote a tree: its label if it is a leaf, otherwise its label and the lexemes
of its children in brackets. -/
def lexemes : Tree → List Lexeme :=
  fold fun label parts =>
    if parts.isEmpty then [.label label]
    else .opening :: .label label :: parts.flatten ++ [.closing]

@[simp] theorem lexemes_leaf {word : String} : (leaf word).lexemes = [.label word] := rfl

theorem lexemes_node {a : String} {ts : List Tree} (h : ts ≠ []) :
    (node a ts).lexemes = .opening :: .label a :: ts.flatMap lexemes ++ [.closing] := by
  simp [lexemes, h, List.flatMap_def]

end Constituency.Tree

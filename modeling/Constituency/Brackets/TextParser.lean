import Constituency.Brackets.Reader

/-!
# Parsers by ordered choice

Bracketed trees by a grammar of characters. A parser tries its alternatives one after the other and
goes back to where they start. The failure that got furthest is kept all the time, also while the
parser goes on, and tells in the end why a text is no tree.
-/

namespace Constituency.Brackets

/-- What is left of a text from a position on. -/
structure Input where
  position : Nat
  rest : List Char

namespace Input

def skipBlanks (input : Input) : Input :=
  ⟨input.position + (input.rest.takeWhile isBlank).length, input.rest.dropWhile isBlank⟩

/-- The tokens of what is left. -/
def tokens (input : Input) : List Token :=
  Token.scan input.position input.rest

end Input

/-- A position where nothing fits, the character there (none at the end of the text), and what would
have fitted. -/
structure Failure where
  position : Nat
  found : Option Char
  expected : List String
deriving DecidableEq, Repr

namespace Failure

/-- What would have fitted according to either of two failures at one position. The shorter list
comes last, without what the longer one has. -/
def merge (f g : Failure) : Failure :=
  let (longer, shorter) :=
    if f.expected.length < g.expected.length then (g.expected, f.expected)
    else (f.expected, g.expected)
  ⟨f.position, f.found.or g.found, longer ++ shorter.filter fun name => !longer.contains name⟩

/-- The failure that is further, or both as one if they are at the same position. -/
def furthest : Option Failure → Failure → Failure
  | none, g => g
  | some f, g =>
    if f.position = g.position then f.merge g
    else if g.position < f.position then f
    else g

end Failure

/-- What was read and what is left, unless the parser failed, and the furthest failure so far. -/
structure Outcome (α : Type) where
  result : Option (α × Input)
  failure : Option Failure

/-- A parser is given the furthest failure up to where it starts. -/
def TextParser (α : Type) : Type :=
  Input → Option Failure → Outcome α

namespace TextParser

variable {α β : Type}

instance : Monad TextParser where
  pure a input failure := ⟨some (a, input), failure⟩
  bind p next input failure :=
    match p input failure with
    | ⟨some (a, input), failure⟩ => next a input failure
    | ⟨none, failure⟩ => ⟨none, failure⟩

def fail (name : String) : TextParser α := fun input failure =>
  ⟨none, some (Failure.furthest failure ⟨input.position, input.rest.head?, [name]⟩)⟩

def satisfying (accepts : Char → Bool) (name : String) : TextParser Char := fun input failure =>
  match input.rest with
  | [] => fail name input failure
  | c :: rest =>
    if accepts c then ⟨some (c, ⟨input.position + 1, rest⟩), failure⟩
    else fail name input failure

def just (c : Char) : TextParser Char :=
  satisfying (· == c) ("'" ++ c.toString ++ "'")

/-- A character that is none of these. What it may be has no name. -/
def noneOf (cs : List Char) : TextParser Char :=
  satisfying (!cs.contains ·) "something else"

def endOfInput : TextParser Unit := fun input failure =>
  if input.rest.isEmpty then ⟨some ((), input), failure⟩
  else fail "end of input" input failure

/-- The second parser starts where the first one started. -/
def orElse (p q : TextParser α) : TextParser α := fun input failure =>
  match p input failure with
  | ⟨none, failure⟩ => q input failure
  | done => done

/-- Blanks before and after do not matter. -/
def padded (p : TextParser α) : TextParser α := fun input failure =>
  match p input.skipBlanks failure with
  | ⟨some (a, next), failure⟩ => ⟨some (a, next.skipBlanks), failure⟩
  | failed => failed

/-- Parses as often as possible. What is left starts where the parser failed for the first time. -/
def collect (p : TextParser α) (input : Input) (failure : Option Failure) :
    List α × Input × Option Failure :=
  match p input failure with
  | ⟨none, failure⟩ => ([], input, failure)
  | ⟨some (a, next), failure⟩ =>
    if next.rest.length < input.rest.length then
      let (as, last, failure) := collect p next failure
      (a :: as, last, failure)
    else ([a], next, failure)
termination_by input.rest.length

def repeated (least : Nat) (p : TextParser α) : TextParser (List α) := fun input failure =>
  let (as, last, failure) := p.collect input failure
  if least ≤ as.length then ⟨some (as, last), failure⟩ else ⟨none, failure⟩

/-- A failure right where the parser starts is called by its name. -/
def labelled (name : String) (p : TextParser α) : TextParser α := fun input failure =>
  match p input none with
  | ⟨result, none⟩ => ⟨result, failure⟩
  | ⟨result, some new⟩ =>
    let named := if new.position = input.position then { new with expected := [name] } else new
    ⟨result, some (Failure.furthest failure named)⟩

/-- A parser that may call itself, once something has been read. -/
def recursive (body : TextParser α → TextParser α) (input : Input) (failure : Option Failure) :
    Outcome α :=
  body (fun next failure =>
    if next.rest.length < input.rest.length then recursive body next failure
    else ⟨none, failure⟩) input failure
termination_by input.rest.length

def label : TextParser String :=
  labelled "label" (String.ofList <$> (noneOf labelEnds).repeated 1)

def bracketed (tree : TextParser Tree) : TextParser Tree := do
  let _ ← just '('
  let a ← label.padded
  let children ← tree.padded.repeated 1
  let _ ← just ')'
  return .node a children

def treeBody (tree : TextParser Tree) : TextParser Tree :=
  (labelled "bracketed tree" (bracketed tree)).orElse (Tree.leaf <$> label)

def tree : TextParser Tree :=
  padded (recursive treeBody)

/-- What a parser reads that has to read the whole text. -/
def parse (p : TextParser α) (text : String) : Except Failure α :=
  match (do let a ← p; endOfInput; return a : TextParser α) ⟨0, text.toList⟩ none with
  | ⟨some (a, _), _⟩ => .ok a
  | ⟨none, failure⟩ => .error (failure.getD ⟨0, none, []⟩)

end TextParser

/-- The error as a failure to parse. -/
def SyntaxError.failure (e : SyntaxError) : Failure :=
  ⟨e.position, e.found, e.alternatives⟩

end Constituency.Brackets

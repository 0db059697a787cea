import Constituency.Brackets.Token

/-!
# Reading bracketed trees

The reader goes over the tokens of a text and keeps the nodes that are still open. What may come
next in a state is a list of expectations, and a token is accepted when its expectation is in that
list; so an error tells what would have been accepted in its place.
-/

namespace Constituency.Brackets

/-- What a text holds: exactly one tree, or any number of them one after the other. -/
inductive Extent where
  | one
  | many
deriving DecidableEq, Repr

inductive Expectation where
  | tree
  | label
  | closing
  | endOfInput
deriving DecidableEq, Repr

def Expectation.text : Expectation → String
  | .tree => "bracketed tree"
  | .label => "label"
  | .closing => "')'"
  | .endOfInput => "end of input"

/-- What a state must expect to accept the lexeme. -/
def Lexeme.expectation : Lexeme → Expectation
  | .opening => .tree
  | .closing => .closing
  | .label _ => .label

/-- Why a text is not bracketed trees: the position where no continuation fits, the character there
(none at the end of the text), whether a label ends right there, and what would fit. -/
structure SyntaxError where
  position : Nat
  found : Option Char
  afterLabel : Bool
  expected : List Expectation
deriving DecidableEq, Repr

/-- Alternatives in a sentence: `a`, `a, or b`, `a, b, or c`. -/
def alternatives : List String → String
  | [] => ""
  | [a] => a
  | [a, b] => a ++ ", or " ++ b
  | a :: rest => a ++ ", " ++ alternatives rest

/-- A label that ends at the position of the error could have gone on, which adds an alternative
without a name. -/
def SyntaxError.alternatives (e : SyntaxError) : List String :=
  (if e.afterLabel then ["something else"] else []) ++ e.expected.map Expectation.text

def SyntaxError.message (e : SyntaxError) : String :=
  let found := match e.found with
    | some c => "'" ++ c.toString ++ "'"
    | none => "end of input"
  "Malformed tree: found " ++ found ++ " expected " ++ Brackets.alternatives e.alternatives

/-- A node whose closing bracket has not been read, with its children from right to left. -/
structure Frame where
  label : String
  children : List Tree

/-- The reader between two tokens: the finished trees from right to left, the open nodes from the
inside out, whether an opening bracket still waits for its label, and the end of the token read last
if that was a label. -/
structure Reader where
  finished : List Tree := []
  frames : List Frame := []
  awaitingLabel : Bool := false
  labelEnd : Option Nat := none

namespace Reader

/-- What may come next. A text of many trees may end before its first tree only if it is empty:
`blankStart` tells that it starts with a blank. -/
def expected (extent : Extent) (blankStart : Bool) (r : Reader) : List Expectation :=
  if r.awaitingLabel then [.label]
  else match r.frames, extent, r.finished with
    | ⟨_, []⟩ :: _, _, _ => [.tree, .label]
    | _ :: _, _, _ => [.tree, .label, .closing]
    | [], .one, [] => [.tree, .label]
    | [], .one, _ :: _ => [.endOfInput]
    | [], .many, [] => if blankStart then [.tree, .label] else [.tree, .label, .endOfInput]
    | [], .many, _ :: _ => [.tree, .label, .endOfInput]

/-- Adds a finished tree to the innermost open node, or to the finished trees if there is none. -/
def finish (r : Reader) (t : Tree) : Reader :=
  match r.frames with
  | [] => { r with finished := t :: r.finished }
  | frame :: outer => { r with frames := { frame with children := t :: frame.children } :: outer }

/-- Reads a token that is expected. -/
def read (r : Reader) (token : Token) : Reader :=
  match token.lexeme with
  | .opening => { r with awaitingLabel := true, labelEnd := none }
  | .label text =>
    let r := { r with labelEnd := some token.stop }
    if r.awaitingLabel then { r with awaitingLabel := false, frames := ⟨text, []⟩ :: r.frames }
    else r.finish (.leaf text)
  | .closing =>
    match r.frames with
    | [] => r
    | frame :: outer =>
      { r with frames := outer, labelEnd := none }.finish (.node frame.label frame.children.reverse)

/-- Fails unless the state expects what stands at `position` of the text. -/
def require (r : Reader) (extent : Extent) (text : List Char) (next : Expectation)
    (position : Nat) : Except SyntaxError Unit :=
  let expected := r.expected extent (text.head?.any isBlank)
  if next ∈ expected then .ok ()
  else .error
    { position, found := text[position]?, afterLabel := r.labelEnd == some position, expected }

/-- Reads the rest of the tokens of a text up to its end. -/
def readAll (extent : Extent) (text : List Char) (r : Reader) : List Token →
    Except SyntaxError (List Tree)
  | [] => do
    r.require extent text .endOfInput text.length
    return r.finished.reverse
  | token :: rest => do
    r.require extent text token.lexeme.expectation token.start
    (r.read token).readAll extent text rest

end Reader

/-- The trees of a text, of which there may be none only if the text is empty. -/
def readMany (text : String) : Except SyntaxError (List Tree) :=
  Reader.readAll .many text.toList {} (Token.scan 0 text.toList)

/-- The tree that makes up a text. The end of the text is expected only after the first tree, and
then nothing else is, so there is exactly one. -/
def readOne (text : String) : Except SyntaxError Tree := do
  let trees ← Reader.readAll .one text.toList {} (Token.scan 0 text.toList)
  return trees.headD default

end Constituency.Brackets

import Constituency.Probability
import Constituency.Production
import Constituency.Tally

/-!
# Lexicons

A lexicon says which tags there are, in the order in which they are to be tried, and how probable a
word is under a tag. `TagCounts` estimates one from trees.
-/

namespace Constituency

structure Lexicon (π : Type) where
  tags : List String
  /-- The probability of a word under a tag. -/
  score : (word tag : String) → π

/-- The taggings of a treebank, counted. `reference` holds the taggings after whose tags unknown
words are distributed; `openClass` tells whether unknown words have a probability at all. -/
structure TagCounts where
  tags : Std.TreeMap String Nat
  words : Std.TreeMap String Nat
  taggings : Std.TreeMap Tagging Nat
  reference : Std.TreeMap String Nat
  referenceTotal : Nat
  openClass : Bool := true

namespace TagCounts

variable {π σ : Type}

/-- Unknown words resemble the words seen once. If there are none, they resemble any word. -/
def ofTaggings (taggings : List Tagging) : TagCounts :=
  let words := tally (taggings.map Tagging.word)
  let once := taggings.filter fun t => words.getD t.word 0 == 1
  let reference := if once.isEmpty then taggings else once
  { tags := tally (taggings.map Tagging.tag)
    words
    taggings := tally taggings
    reference := tally (reference.map Tagging.tag)
    referenceTotal := reference.length }

def ofTrees (trees : List Tree) : TagCounts :=
  ofTaggings (trees.flatMap Tree.taggings)

def isKnown (counts : TagCounts) (word : String) : Bool :=
  counts.words.contains word

def wordCount (counts : TagCounts) : Nat :=
  counts.words.size

/-- What an unknown word gets from all tags together. -/
def unknownWeight (π : Type) [Probability π σ] : π :=
  Probability.ofRatio 1 1000

/-- The estimate for a word under a tag of the treebank: of a known word its share of the tag's
occurrences, of an unknown one the tag's share of the reference, weighted. -/
def estimate [Probability π σ] (counts : TagCounts) (word tag : String) : π :=
  if counts.isKnown word then
    match counts.taggings[(⟨tag, word⟩ : Tagging)]? with
    | some n => Probability.ofRatio n (counts.tags.getD tag 0)
    | none => Probability.zero
  else if counts.openClass then
    match counts.reference[tag]? with
    | some n => unknownWeight π * Probability.ofRatio n counts.referenceTotal
    | none => Probability.zero
  else Probability.zero

def score [Probability π σ] (counts : TagCounts) (word tag : String) : π :=
  if counts.tags.contains tag then Probability.clamp (counts.estimate word tag)
  else Probability.zero

def toLexicon (π : Type) [Probability π σ] (counts : TagCounts) : Lexicon π where
  tags := counts.tags.keys
  score := counts.score

end TagCounts

end Constituency

import Constituency.Chart.Basic
import Constituency.Grammar
import Constituency.Lexicon

/-!
# Filling a chart

Spans are filled from the shorter to the longer and from left to right. Over a word its tags come
first, over a longer span the binary rules at every split; then unary rules are followed until no
score over the span improves.
-/

namespace Constituency

/-- Why a chart was not filled: a lexicon's score that is no probability, or unary rules that were
still improving a span when their rounds were used up. -/
inductive FillError (π : Type) where
  | invalidProbability (e : InvalidProbability π)
  | divergence (span : Span) (rounds : Nat)
deriving DecidableEq, Repr

namespace Chart

variable {π σ : Type}

/-- What the lexicon offers for the word at position `i`: each tag with a positive score. -/
def tagOffers [Probability π σ] (lexicon : Lexicon π) (word : String) (i : Nat) :
    Except (InvalidProbability π) (List (Constituent × Entry σ)) :=
  let scored := lexicon.tags.map fun tag => (tag, lexicon.score word tag)
  (scored.filter fun (_, p) => !Probability.isZero p).mapM fun (tag, p) =>
    (Probability.score p).map fun score =>
      (⟨tag, ⟨i, i + 1⟩⟩, { score, backpointer := .terminal (.word word i) })

/-- Two neighbouring constituents under a binary rule, if the chart has both. -/
def join? [Score σ] (chart : Chart σ) (span : Span) (split : Nat) (rule : BinaryRule σ) :
    Option (Constituent × Entry σ) := do
  let left : Constituent := ⟨rule.left, ⟨span.start, split⟩⟩
  let right : Constituent := ⟨rule.right, ⟨split, span.stop⟩⟩
  let leftScore ← chart.score? left
  let rightScore ← chart.score? right
  return (⟨rule.parent, span⟩,
    { score := leftScore + rightScore + rule.score, backpointer := .binary left right })

/-- What the binary rules offer at a split. Rules are looked up from the side with fewer labels. -/
def splitOffers [Score σ] (grammar : Grammar σ) (chart : Chart σ) (span : Span) (split : Nat) :
    List (Constituent × Entry σ) :=
  let left := chart.seen ⟨span.start, split⟩
  let right := chart.seen ⟨split, span.stop⟩
  let rules :=
    if right.size < left.size then
      right.toList.flatMap fun label =>
        (grammar.binaryByRight label).filter fun rule => left.contains rule.left
    else
      left.toList.flatMap fun label =>
        (grammar.binaryByLeft label).filter fun rule => right.contains rule.right
  rules.filterMap (chart.join? span split)

/-- Offers what the binary rules make of the shorter spans, from the first split to the last. -/
def combine [Score σ] (grammar : Grammar σ) (chart : Chart σ) (span : Span) : Chart σ :=
  let splits := (List.range (span.stop - span.start - 1)).map (span.start + 1 + ·)
  chart.offerAll (splits.flatMap (splitOffers grammar chart span))

/-- A chart within a round of unary rules, and the labels that the round has improved so far. -/
structure Promotion (σ : Type) where
  chart : Chart σ
  improved : Std.TreeSet String := ∅

/-- Offers the parent of a unary rule over a child with the given score. -/
def Promotion.apply [Score σ] (child : Constituent) (score : σ) (p : Promotion σ)
    (rule : UnaryRule σ) : Promotion σ :=
  let parent : Constituent := ⟨rule.parent, child.span⟩
  let entry : Entry σ := { score := score + rule.score, backpointer := .unary child }
  if p.chart.improves parent entry.score then
    { chart := p.chart.insert parent entry, improved := p.improved.insert rule.parent }
  else p

/-- Follows every unary rule up from a label, with the score it has by now. -/
def Promotion.follow [Score σ] (grammar : Grammar σ) (span : Span) (possibleOnly : Bool)
    (p : Promotion σ) (label : String) : Promotion σ :=
  let child : Constituent := ⟨label, span⟩
  match p.chart.score? child with
  | none => p
  | some score =>
    if possibleOnly && Score.isImpossible score then p
    else (grammar.unaryByChild label).foldl (Promotion.apply child score) p

/-- One round of unary rules over a span, up from the labels of the agenda in ascending order. -/
def promote [Score σ] (grammar : Grammar σ) (span : Span) (possibleOnly : Bool)
    (agenda : Std.TreeSet String) (chart : Chart σ) : Promotion σ :=
  agenda.toList.foldl (Promotion.follow grammar span possibleOnly) { chart }

/-- Rounds of unary rules until one improves nothing, or `none` if that takes more rounds than
there are. Each round goes up from the labels that the one before has improved. -/
def closeFrom? [Score σ] (grammar : Grammar σ) (span : Span) (possibleOnly : Bool) :
    (rounds : Nat) → (agenda : Std.TreeSet String) → Chart σ → Option (Chart σ)
  | 0, agenda, chart => if agenda.isEmpty then some chart else none
  | rounds + 1, agenda, chart =>
    if agenda.isEmpty then some chart
    else
      let p := promote grammar span possibleOnly agenda chart
      closeFrom? grammar span possibleOnly rounds p.improved p.chart

/-- Closes a span under unary rules. With `possibleOnly`, labels with an impossible score are not
followed. -/
def close [Score σ] (grammar : Grammar σ) (rounds : Nat) (span : Span) (possibleOnly : Bool)
    (chart : Chart σ) : Except (FillError π) (Chart σ) :=
  match closeFrom? grammar span possibleOnly rounds (chart.seen span) chart with
  | some chart => .ok chart
  | none => .error (.divergence span rounds)

/-- Fills the span of the word at position `i`. -/
def fillWord [Score σ] [Probability π σ] (grammar : Grammar σ) (lexicon : Lexicon π)
    (rounds : Nat) (chart : Chart σ) (word : String) (i : Nat) :
    Except (FillError π) (Chart σ) := do
  let offers ← (tagOffers lexicon word i).mapError .invalidProbability
  (chart.offerAll offers).close grammar rounds ⟨i, i + 1⟩ true

/-- Fills a span of several words. -/
def fillSpan [Score σ] (grammar : Grammar σ) (rounds : Nat) (chart : Chart σ) (span : Span) :
    Except (FillError π) (Chart σ) :=
  (chart.combine grammar span).close grammar rounds span false

/-- The spans of several words in a sentence of `n` words, in the order in which they are filled. -/
def wideSpans (n : Nat) : List Span :=
  (List.range (n - 1)).flatMap fun extra =>
    (List.range (n - extra - 1)).map fun start => ⟨start, start + extra + 2⟩

/-- The chart of a sentence. -/
def fill [Score σ] [Probability π σ] (grammar : Grammar σ) (lexicon : Lexicon π) (rounds : Nat)
    (sentence : List String) : Except (FillError π) (Chart σ) := do
  let chart ← sentence.zipIdx.foldlM
    (fun chart (word, i) => chart.fillWord grammar lexicon rounds word i) {}
  (wideSpans sentence.length).foldlM (fillSpan grammar rounds) chart

end Chart

end Constituency

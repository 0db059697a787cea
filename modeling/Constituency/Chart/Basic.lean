import Constituency.Constituent
import Constituency.Probability
import Std.Data.TreeMap
import Std.Data.TreeSet

/-!
# Charts

A chart holds the constituents found in a sentence, each with its best score so far and a
backpointer to the parts that earned it. Beside the entries it keeps the labels seen over each span.
-/

namespace Constituency

/-- The parts of a constituent: the word under a tag, or the children of a rule. -/
inductive Backpointer where
  | terminal (word : Constituent)
  | unary (child : Constituent)
  | binary (left right : Constituent)
deriving DecidableEq, Repr

def Backpointer.children : Backpointer → List Constituent
  | terminal word => [word]
  | unary child => [child]
  | binary left right => [left, right]

structure Entry (σ : Type) where
  score : σ
  backpointer : Backpointer
deriving DecidableEq, Repr

structure Chart (σ : Type) where
  entries : Std.TreeMap Constituent (Entry σ) := ∅
  labels : Std.TreeMap Span (Std.TreeSet String) := ∅

namespace Chart

variable {σ : Type}

def get? (chart : Chart σ) (c : Constituent) : Option (Entry σ) :=
  chart.entries[c]?

def score? (chart : Chart σ) (c : Constituent) : Option σ :=
  (chart.get? c).map Entry.score

def size (chart : Chart σ) : Nat :=
  chart.entries.size

def isEmpty (chart : Chart σ) : Bool :=
  chart.entries.isEmpty

/-- All entries, by span and then by label. -/
def toList (chart : Chart σ) : List (Constituent × Entry σ) :=
  chart.entries.toList

/-- The labels seen over a span, if there are any. -/
def seen? (chart : Chart σ) (span : Span) : Option (Std.TreeSet String) :=
  chart.labels[span]?

/-- The labels seen over a span. -/
def seen (chart : Chart σ) (span : Span) : Std.TreeSet String :=
  (chart.seen? span).getD ∅

/-- Whether the score is better than the one in the chart, or the first one. -/
def improves [Score σ] (chart : Chart σ) (c : Constituent) (score : σ) : Bool :=
  match chart.score? c with
  | some old => !decide (score ≤ old)
  | none => true

/-- Enters a constituent, whatever the chart says about it. -/
def insert (chart : Chart σ) (c : Constituent) (entry : Entry σ) : Chart σ where
  entries := chart.entries.insert c entry
  labels := chart.labels.insert c.span ((chart.seen c.span).insert c.label)

/-- Enters a constituent if that improves the chart. -/
def offer [Score σ] (chart : Chart σ) (c : Constituent) (entry : Entry σ) : Chart σ :=
  if chart.improves c entry.score then chart.insert c entry else chart

def offerAll [Score σ] (chart : Chart σ) (offers : List (Constituent × Entry σ)) : Chart σ :=
  offers.foldl (fun chart (c, entry) => chart.offer c entry) chart

/-- Whether the labels seen are those of the entries. It is enough that there are as many of them
and that those of the entries are among them. -/
def isCoherent (chart : Chart σ) : Bool :=
  chart.labels.foldl (fun n _ labels => n + labels.size) 0 == chart.entries.size &&
    chart.entries.keys.all fun c => (chart.seen? c.span).any (·.contains c.label)

section Lemmas

variable {chart : Chart σ} {c d : Constituent} {entry : Entry σ} {label : String} {span : Span}

@[simp] theorem get?_empty : ({} : Chart σ).get? c = none := by
  simp [get?]

@[simp] theorem seen?_empty : ({} : Chart σ).seen? span = none := by
  simp [seen?]

theorem get?_insert :
    (chart.insert c entry).get? d = if c = d then some entry else chart.get? d := by
  simp [get?, insert, Std.TreeMap.getElem?_insert]

theorem seen?_insert : (chart.insert c entry).seen? span =
    if c.span = span then some ((chart.seen c.span).insert c.label) else chart.seen? span := by
  simp [seen?, insert, Std.TreeMap.getElem?_insert]

theorem mem_seen_insert :
    label ∈ (chart.insert c entry).seen span ↔ c = ⟨label, span⟩ ∨ label ∈ chart.seen span := by
  obtain ⟨a, other⟩ := c
  simp only [seen, seen?, insert, Std.TreeMap.getElem?_insert]
  by_cases h : other = span
  · subst h
    simp [Std.TreeSet.mem_insert]
  · simp [h]

theorem offer_of_improves [Score σ] (h : chart.improves c entry.score = true) :
    chart.offer c entry = chart.insert c entry := by
  simp [offer, h]

theorem offer_of_not_improves [Score σ] (h : chart.improves c entry.score = false) :
    chart.offer c entry = chart := by
  simp [offer, h]

end Lemmas

end Chart

end Constituency

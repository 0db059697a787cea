/-!
# Constituents

Positions lie between the words of a sentence: the word `i` stands between the positions `i` and
`i + 1`. A word itself is a constituent too, over the empty span at its place.
-/

namespace Constituency

structure Span where
  start : Nat
  stop : Nat
deriving DecidableEq, Repr

structure Constituent where
  label : String
  span : Span
deriving DecidableEq, Repr

instance : Ord Span where
  compare := compareLex (compareOn Span.start) (compareOn Span.stop)

/-- By span and then by label. -/
instance : Ord Constituent where
  compare := compareLex (compareOn Constituent.span) (compareOn Constituent.label)

instance : Std.TransOrd Span :=
  inferInstanceAs (Std.TransCmp (compareLex _ _))

instance : Std.LawfulEqOrd Span where
  eq_of_compare {a b} h := by
    have h := compareLex_eq_eq.mp h
    cases a
    cases b
    simpa [compareOn] using h

instance : Std.TransOrd Constituent :=
  inferInstanceAs (Std.TransCmp (compareLex _ _))

instance : Std.LawfulEqOrd Constituent where
  eq_of_compare {a b} h := by
    have h := compareLex_eq_eq.mp h
    cases a
    cases b
    simp only [compareOn, Std.LawfulEqOrd.compare_eq_iff_eq] at h
    simpa using And.comm.mp h

namespace Constituent

/-- The word at position `i`. -/
def word (w : String) (i : Nat) : Constituent :=
  ⟨w, ⟨i, i⟩⟩

def isWord (c : Constituent) : Bool :=
  c.span.start == c.span.stop

instance : ToString Constituent where
  toString c := c.label ++ "[" ++ toString c.span.start ++ ".." ++ toString c.span.stop ++ "]"

/-- Whether `a` comes no later than `b` by label and then by span. -/
def byLabel (a b : Constituent) : Bool :=
  (compareLex (compareOn Constituent.label) (compareOn Constituent.span) a b).isLE

end Constituent

end Constituency

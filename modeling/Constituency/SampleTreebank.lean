/-!
# Sample treebanks

Small treebanks in bracketed text, to try a parser on.
-/

namespace Constituency.SampleTreebank

/-- Simple English sentences with flat phrases. -/
def sentences : String :=
  "\n".intercalate [
    "(ROOT (S (NP (DT the) (NN dog)) (VP (VBD saw) (NP (DT a) (NN cat))) (. .)))",
    "(ROOT (S (NP (DT the) (NN cat)) (VP (VBD chased) (NP (DT the) (JJ small) (NN dog))) (. .)))",
    "(ROOT (S (NP (NNP Mary)) (VP (VBD saw) (NP (DT the) (NN dog)) (PP (IN with) (NP (DT a) (NN telescope)))) (. .)))",
    "(ROOT (S (NP (DT a) (NN man)) (VP (VBD walked)) (. .)))",
    "(ROOT (S (NP (NNP John)) (VP (VBD gave) (NP (NNP Mary)) (NP (DT a) (NN book))) (. .)))",
    "(ROOT (S (NP (NP (DT the) (NN book)) (PP (IN on) (NP (DT the) (NN table)))) (VP (VBD fell)) (. .)))",
    "(ROOT (NP (DT the) (JJ big) (JJ red) (NN dog)))"]

/-- Sentences with function tags, an index and an empty element. -/
def functionTags : String :=
  "\n".intercalate [
    "(ROOT (S (NP-SBJ (PRP they)) (VP (VBD left) (NP-TMP (NN yesterday))) (. .)))",
    "(ROOT (S (NP-SBJ=1 (DT the) (NNS dogs)) (VP (VBD barked)) (. .)))",
    "(ROOT (S (NP-SBJ (PRP she)) (VP (VBD said) (SBAR (-NONE- 0) (S (NP-SBJ (PRP they)) (VP (VBD left))))) (. .)))"]

end Constituency.SampleTreebank

import Constituency.Proofs.CoarserParses
import Constituency.Proofs.FloatShares

/-!
# Floating-point shares of unknown words

The share of an unknown word is weighted. Weight and share are far enough from zero for their
product to be rounded to a positive number, and its logarithm is bounded like that of a share. So
floating-point numbers reckon as the results on trained parsers ask for, and those hold of them.
-/

namespace Constituency

open Float.Model Float.Model.UnpackedFloat
open Rounding

namespace Rounding

/-- The product of numbers up to one, in units of the least magnitude. -/
theorem mul_mul_two_pow_le {q r s t n : Nat} (hq : q * 2 ^ s ≤ 2 ^ n) (hr : r * 2 ^ t ≤ 2 ^ n)
    (hst : n ≤ s + t) : q * r * 2 ^ (s + t - n) ≤ 2 ^ n := by
  refine Nat.le_of_mul_le_mul_right ?_ (Nat.two_pow_pos n)
  calc q * r * 2 ^ (s + t - n) * 2 ^ n
      = q * r * 2 ^ (s + t) := by rw [Nat.mul_assoc, ← Nat.pow_add, Nat.sub_add_cancel hst]
    _ = q * 2 ^ s * (r * 2 ^ t) := by ring
    _ ≤ 2 ^ n * 2 ^ n := Nat.mul_le_mul hq hr

variable {u v : UnpackedFloat} {a b j k : Nat}

/-- The product of two numbers up to one that are not too small. -/
theorem HasCode.exists_mul (hu : HasCode .positive u j) (hv : HasCode .positive v k)
    (hj : j ≤ one) (hk : k ≤ one) (haj : a * 2 ^ 52 ≤ j) (hbk : b * 2 ^ 52 ≤ k) (ha : 2 ≤ a)
    (hb : 2 ≤ b) (hab : scale + 2 ≤ a + b) :
    ∃ i ≤ one, HasCode .positive (u.mul Format.binary64 v) i := by
  obtain ⟨q, s, hqpos, rfl, hjcode, hq, hs⟩ := hu
  obtain ⟨r, t, hrpos, rfl, hkcode, hr, ht⟩ := hv
  have hqfull : 2 ^ 52 ≤ q := hs (by omega)
  have hrfull : 2 ^ 52 ≤ r := ht (by omega)
  have hst : scale ≤ s + t := by omega
  have hscale : scale = 1074 := rfl
  have hexponent : (s : Int) - 1074 + ((t : Int) - 1074) =
      ((s + t - scale : Nat) : Int) - 1074 := by omega
  have hlog : 52 ≤ (q * r).log2 := by
    refine (Nat.le_log2 (Nat.mul_pos hqpos hrpos).ne').mpr ?_
    exact hqfull.trans (Nat.le_mul_of_pos_right q hrpos)
  have hexcess : s + t - scale ≤ excess (q * r * 2 ^ (s + t - scale)) := by
    rw [excess, log2_mul_two_pow (Nat.mul_pos hqpos hrpos).ne']
    omega
  have hround : HasCode .positive (roundWithAccuracy Format.binary64 .positive (q * r)
      ((s + t - scale : Nat) - 1074) .exact) (code (q * r * 2 ^ (s + t - scale))) :=
    hasCode_roundWithAccuracy (Nat.mul_pos hqpos hrpos).ne' hexcess
  have hle : q * r * 2 ^ (s + t - scale) ≤ magnitude one := by
    have hjm := magnitude_mono hj
    have hkm := magnitude_mono hk
    rw [hjcode, magnitude_of_lt hq hs, magnitude_one] at hjm
    rw [hkcode, magnitude_of_lt hr ht, magnitude_one] at hkm
    rw [magnitude_one]
    exact mul_mul_two_pow_le hjm hkm hst
  refine ⟨_, (code_mono hle).trans_eq (code_magnitude one), ?_⟩
  simp only [UnpackedFloat.mul, hexponent]
  exact hround

end Rounding

/-- The share of an unknown word is positive and no more than one. -/
theorem exists_isPositive_unknownShare {part whole : Nat} (hpos : 0 < part) (hle : part ≤ whole)
    (hwhole : whole < 2 ^ 53) : ∃ k ≤ one, IsPositive (unknownShare Float part whole) k := by
  have hfloors : 2 ≤ 968 ∧ scale + 2 ≤ 968 + 968 ∧ one < top := by decide
  obtain ⟨j, hj, hweight, hjfloor⟩ :=
    exists_isPositive_ofRatio (show 0 < 1 by decide) (show 1 ≤ 1000 by decide) (by decide)
  obtain ⟨k, hk, hshare, hkfloor⟩ := exists_isPositive_ofRatio hpos hle hwhole
  obtain ⟨i, hi, hcode⟩ := hweight.hasCode.exists_mul hshare.hasCode hj hk hjfloor hkfloor
    hfloors.1 hfloors.1 hfloors.2.1
  have hproduct : IsPositive (TagCounts.unknownWeight Float * Probability.ofRatio part whole) i :=
    isPositive_pack hcode (hi.trans_lt hfloors.2.2)
  refine ⟨i, hi, ?_⟩
  rw [unknownShare, hproduct.clamp_eq hi]
  exact hproduct

-- The same bound as for the shares of known words.
variable (hlog : ∀ x : Float, 0 < x → x ≤ 1 → -1024 ≤ x.log) {limit : Nat}
  (hlimit : limit < 2 ^ 53)
include hlog hlimit

theorem WordSum.isBounded {n : Nat} {score : LogProbability} (h : WordSum Float limit n score)
    (hn : n < 2 ^ 53) : IsBounded score n := by
  induction h with
  | tag h =>
    obtain ⟨part, whole, hpos, hle, hwhole, rfl | rfl⟩ := h
    · exact ShareSum.isBounded hlog hlimit (.share hpos hle hwhole) hn
    · obtain ⟨k, hk, hx⟩ := exists_isPositive_unknownShare hpos hle (hwhole.trans_lt hlimit)
      exact isBounded_log hlog hx.zero_lt ((hx.le_iff isPositive_one).mpr hk)
  | rule _ hpos hle hwhole ih =>
    exact (ih (by omega)).add
      (ShareSum.isBounded hlog hlimit (.share hpos hle hwhole) (by decide)) hn

/-- Floating-point numbers reckon with unknown words, too. -/
theorem reckonsUnknown_float : ReckonsUnknown Float limit where
  toReckons := reckons_float hlog hlimit
  isValid_unknown hpos hle hwhole := by
    obtain ⟨k, hk, hx⟩ := exists_isPositive_unknownShare hpos hle (hwhole.trans_lt hlimit)
    exact hx.isValid hk
  isZero_unknown hpos hle hwhole := by
    obtain ⟨k, _, hx⟩ := exists_isPositive_unknownShare hpos hle (hwhole.trans_lt hlimit)
    exact hx.isZero
  possible_wordSum hsum hn :=
    (hsum.isBounded hlog hlimit (hn.trans_lt hlimit)).possible (hn.trans_lt hlimit)

omit hlimit

namespace Model

variable {config config' : Config} {treebank : List Tree}
  (hsize : ((markedTrees config treebank).flatMap Tree.subtrees).length < 2 ^ 53)
include hsize

/-- Training trees are found again, or better ones, when the scores are floating-point numbers. -/
theorem exists_floatParse_of_mem_treebank (hne : treebank ≠ [])
    (htagged : ∀ t ∈ treebank, t.IsTagged) (hvertical : config.markovization.vertical ≠ 0)
    (hrounds : (nodeLabels (markedTrees config treebank)).card ≤ config.maxRounds) :
    ∃ model : Model LogProbability, train Float config treebank = .ok model ∧
      ∀ t ∈ treebank, t.isLeaf = false → t.label = config.root →
        ∃ d gold parse, t.markovize config.markovization = .ok d ∧
          Parser.Records model.rules.toRules (model.parser Float).lexicon t.words
            ((model.parser Float).root t.words) d gold ∧
          (model.parser Float).parse? t.words = .ok (some parse) ∧
          parse.tree.words = t.words ∧ gold ≤ parse.score := by
  have hreckons : Reckons Float ((markedTrees config treebank).flatMap Tree.subtrees).length :=
    reckons_float hlog hsize
  obtain ⟨model, htrain, htrained⟩ := exists_isTrained hne hvertical hreckons
  refine ⟨model, htrain, fun t ht hnode hroot => ?_⟩
  exact htrained.exists_parse hvertical hrounds hreckons ht (htagged t ht) hnode hroot

/-- Lower orders lose no parse when the scores are floating-point numbers. -/
theorem exists_floatParse_of_coarser (hne : treebank ≠ [])
    (hclean : ∀ t ∈ treebank, t.IsClean) (hroot : Label.IsClean config.root)
    (hsame : config'.root = config.root)
    (hcoarser : config'.markovization.Coarser config.markovization)
    (hvertical : config'.markovization.vertical ≠ 0) :
    ∃ model model' : Model LogProbability, train Float config treebank = .ok model ∧
      train Float config' treebank = .ok model' ∧
      ∀ (openClass : Bool) (sentence : List String) (parse : Parse LogProbability)
        (chart : Chart LogProbability),
        ((model.withOpenClass openClass).parser Float).parse? sentence = .ok (some parse) →
        ((model'.withOpenClass openClass).parser Float).fillChart sentence = .ok chart →
        ∃ parse', ((model'.withOpenClass openClass).parser Float).parse? sentence =
          .ok (some parse') := by
  have hsize' := hsize
  rw [← length_markedTrees_coarser hclean hcoarser hvertical] at hsize'
  have hfine : config.markovization.vertical ≠ 0 := by
    have hle := hcoarser.vertical
    omega
  obtain ⟨model, htrain, htrained⟩ := exists_isTrained hne hfine (reckons_float hlog hsize)
  obtain ⟨model', htrain', htrained'⟩ :=
    exists_isTrained hne hvertical (reckons_float hlog hsize')
  refine ⟨model, model', htrain, htrain', fun openClass sentence parse chart hparse hfill => ?_⟩
  exact htrained.exists_parse_of_finer htrained' hclean hroot hsame hcoarser hvertical
    (reckonsUnknown_float hlog hsize) hparse hfill

end Model

end Constituency

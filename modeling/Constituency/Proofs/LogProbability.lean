import Constituency.LogProbability
import Constituency.Proofs.FloatRounding
import Constituency.Proofs.Score

/-!
# Floating-point scores

Logarithms of probabilities are in the reverse order of their codes, and a sum has the code of the
rounded sum of magnitudes. Floating-point scores thus obey the laws of scores, though their sums are
neither exact nor associative.
-/

namespace Constituency

open Float.Model Float.Model.UnpackedFloat
open Rounding

/-- The number is zero or negative, and apart from the sign its bits are the code. -/
def Reads (x : Float) (k : Nat) : Prop :=
  k ≤ top ∧ x.toBits.toNat = if k = 0 then 0 else 2 ^ 63 + k

section Reads

variable {x y : Float} {j k : Nat}

/-- A floating-point number is known by its bits. -/
theorem eq_of_toNat_toBits (h : x.toBits.toNat = y.toBits.toNat) : x = y := by
  have hbits : x.toBits = y.toBits := UInt64.toNat_inj.mp h
  obtain ⟨⟨_, _⟩⟩ := x
  obtain ⟨⟨_, _⟩⟩ := y
  cases hbits
  rfl

theorem le_iff_unpack : x ≤ y ↔ x.toModel.unpack.le y.toModel.unpack = true :=
  decide_eq_true_iff

theorem lt_iff_unpack : x < y ↔ x.toModel.unpack.lt y.toModel.unpack = true :=
  decide_eq_true_iff

theorem Reads.inj (hx : Reads x k) (hy : Reads y k) : x = y :=
  eq_of_toNat_toBits (hx.2.trans hy.2.symm)

theorem Reads.bits (hx : Reads x k) (hk : 0 < k) :
    x.toModel.toBits.toBitVec.toNat = 2 ^ 63 + k := by
  have h := hx.2
  rwa [if_neg (by omega)] at h

theorem Reads.zero : Reads 0 0 :=
  ⟨Nat.zero_le _, by decide +kernel⟩

/-- What a code stands for. -/
inductive Shape : UnpackedFloat → Nat → Prop where
  | zero : Shape (.zero .positive) 0
  | finite {u : UnpackedFloat} {k : Nat} (h : HasCode .negative u k) (hpos : 0 < k)
      (hlt : k < top) : Shape u k
  | infinite : Shape (.infinity .negative) top

theorem Reads.shape (hx : Reads x k) : Shape x.toModel.unpack k := by
  rcases Nat.eq_zero_or_pos k with rfl | hpos
  · rw [hx.inj .zero]
    exact .zero
  · rcases Nat.lt_or_eq_of_le hx.1 with hlt | rfl
    · exact .finite (hasCode_unpack (hx.bits hpos) hpos hlt) hpos hlt
    · rw [Float.Model.unpack, unpack_of_toNat_top (hx.bits hpos)]
      exact .infinite

theorem Shape.le_iff {u v : UnpackedFloat} (hu : Shape u j) (hv : Shape v k) :
    u.le v = true ↔ k ≤ j := by
  cases hu with
  | zero =>
    cases hv with
    | zero => simp [UnpackedFloat.le, UnpackedFloat.compare]
    | finite h hpos hlt =>
      obtain ⟨q, s, hq, rfl, rfl, _⟩ := h
      simp [UnpackedFloat.le, UnpackedFloat.compare]
      omega
    | infinite => simp [UnpackedFloat.le, UnpackedFloat.compare, top]
  | finite h hpos hlt =>
    cases hv with
    | zero =>
      obtain ⟨q, s, hq, rfl, rfl, _⟩ := h
      simp [UnpackedFloat.le, UnpackedFloat.compare]
    | finite h' _ _ => exact h.le_iff h'
    | infinite =>
      obtain ⟨q, s, hq, rfl, rfl, _⟩ := h
      simp [UnpackedFloat.le, UnpackedFloat.compare]
      omega
  | infinite =>
    cases hv with
    | zero => simp [UnpackedFloat.le, UnpackedFloat.compare]
    | finite h hpos hlt =>
      obtain ⟨q, s, hq, rfl, rfl, _⟩ := h
      simp [UnpackedFloat.le, UnpackedFloat.compare]
      omega
    | infinite => simp [UnpackedFloat.le, UnpackedFloat.compare]; decide

theorem Reads.le_iff (hx : Reads x j) (hy : Reads y k) : x ≤ y ↔ k ≤ j :=
  le_iff_unpack.trans (hx.shape.le_iff hy.shape)

theorem Shape.isInf_iff {u : UnpackedFloat} (hu : Shape u k) : u.isInf = true ↔ k = top := by
  cases hu with
  | zero => simp [UnpackedFloat.isInf, top]
  | finite h hpos hlt =>
    obtain ⟨q, s, hq, rfl, -⟩ := h
    simp [UnpackedFloat.isInf]
    omega
  | infinite => simp [UnpackedFloat.isInf]

theorem Reads.isInf_iff (hx : Reads x k) : x.isInf = true ↔ k = top :=
  hx.shape.isInf_iff

theorem reads_pack {u : UnpackedFloat} (hu : HasCode .negative u k) :
    Reads (.ofModel (.pack u)) (min k top) := by
  have hpos : 0 < k := by
    obtain ⟨q, s, hq, _, rfl, _⟩ := hu
    omega
  have htop : 0 < top := by decide
  refine ⟨Nat.min_le_right k top, ?_⟩
  rw [if_neg (by omega)]
  exact hu.toNat_pack

theorem reads_pack_infinity (h : top ≤ k) :
    Reads (.ofModel (.pack (.infinity .negative))) (min k top) := by
  rw [Nat.min_eq_right h]
  exact ⟨le_refl _, by decide +kernel⟩

/-- A sum overflows if one of its parts has. -/
theorem top_le_code (h : j = top ∨ k = top) : top ≤ code (magnitude j + magnitude k) := by
  have hm : magnitude top ≤ magnitude j + magnitude k := by
    rcases h with rfl | rfl
    · exact Nat.le_add_right _ _
    · exact Nat.le_add_left _ _
  calc top = code (magnitude top) := (code_magnitude top).symm
    _ ≤ code (magnitude j + magnitude k) := code_mono hm

/-- Zero and infinity are added without rounding. -/
theorem Shape.reads_add {u v : UnpackedFloat} (hu : Shape u j) (hv : Shape v k) :
    Reads (.ofModel (.pack (u.add Format.binary64 v)))
      (min (code (magnitude j + magnitude k)) top) := by
  cases hu with
  | zero =>
    rw [magnitude_zero, Nat.zero_add, code_magnitude]
    cases hv with
    | zero => exact .zero
    | finite h _ _ =>
      have hadd : UnpackedFloat.add Format.binary64 (.zero .positive) v = v := by
        obtain ⟨q, s, hq, rfl, -⟩ := h
        rfl
      exact hadd.symm ▸ reads_pack h
    | infinite => exact reads_pack_infinity (le_refl _)
  | finite h _ _ =>
    cases hv with
    | zero =>
      rw [magnitude_zero, Nat.add_zero, code_magnitude]
      have hadd : UnpackedFloat.add Format.binary64 u (.zero .positive) = u := by
        obtain ⟨q, s, hq, rfl, -⟩ := h
        rfl
      exact hadd.symm ▸ reads_pack h
    | finite h' _ _ => exact reads_pack (h.add h')
    | infinite =>
      obtain ⟨q, s, hq, rfl, -⟩ := h
      exact reads_pack_infinity (top_le_code (.inr rfl))
  | infinite =>
    cases hv with
    | zero => exact reads_pack_infinity (top_le_code (.inl rfl))
    | finite h _ _ =>
      obtain ⟨q, s, hq, rfl, -⟩ := h
      exact reads_pack_infinity (top_le_code (.inl rfl))
    | infinite => exact reads_pack_infinity (top_le_code (.inl rfl))

theorem Reads.add (hx : Reads x j) (hy : Reads y k) :
    Reads (x + y) (min (code (magnitude j + magnitude k)) top) :=
  hx.shape.reads_add hy.shape

theorem Shape.compare_zero {u : UnpackedFloat} (hu : Shape u k) (hk : 0 < k) :
    u.compare (.zero .positive) = some .lt := by
  cases hu with
  | zero => exact absurd hk (Nat.lt_irrefl 0)
  | finite h _ _ =>
    obtain ⟨q, s, hq, rfl, -⟩ := h
    rfl
  | infinite => rfl

theorem Reads.nonpositive (hx : Reads x k) : x < 0 ∨ x = 0 := by
  rcases Nat.eq_zero_or_pos k with rfl | hk
  · exact .inr (hx.inj .zero)
  · exact .inl (decide_eq_true (beq_iff_eq.mpr (hx.shape.compare_zero hk)))

/-- What is negative has a code. -/
theorem exists_reads_of_neg (h : x < 0) : ∃ k, Reads x k := by
  have hcompare : x.toModel.unpack.compare (.zero .positive) = some .lt :=
    eq_of_beq (of_decide_eq_true h)
  have of_bits {n : Nat} (hn : 0 < n) (htop : n ≤ top) (hbits : x.toBits.toNat = 2 ^ 63 + n) :
      ∃ k, Reads x k :=
    ⟨n, htop, by rw [if_neg (by omega), hbits]⟩
  cases hu : x.toModel.unpack with
  | infinity s =>
    cases s with
    | negative => exact of_bits (by decide) (le_refl _) (toNat_of_unpack_infinity hu)
    | positive => simp [hu, UnpackedFloat.compare] at hcompare
  | notANumber => simp [hu, UnpackedFloat.compare] at hcompare
  | zero s => simp [hu, UnpackedFloat.compare] at hcompare
  | finite s q e hq =>
    cases s with
    | negative =>
      obtain ⟨hlow, hhigh⟩ := toNat_of_unpack_finite hu
      have hbits : x.toBits.toNat = x.toModel.toBits.toBitVec.toNat := rfl
      exact of_bits (n := x.toModel.toBits.toBitVec.toNat - 2 ^ 63) (by omega) (by omega)
        (by omega)
    | positive => simp [hu, UnpackedFloat.compare] at hcompare

end Reads

namespace LogProbability

theorem exists_reads (a : LogProbability) : ∃ k, Reads a.value k := by
  rcases a.nonpositive with hneg | hzero
  · exact exists_reads_of_neg hneg
  · exact ⟨0, hzero ▸ .zero⟩

theorem value_ofFloat {x : Float} (h : x < 0 ∨ x = 0) : (ofFloat x).value = x := by
  unfold ofFloat
  split
  · rfl
  · exact (h.resolve_left ‹_›).symm

variable {a b : LogProbability} {j k : Nat}

theorem reads_add (ha : Reads a.value j) (hb : Reads b.value k) :
    Reads (a + b).value (min (code (magnitude j + magnitude k)) top) := by
  change Reads (ofFloat (a.value + b.value)).value _
  have h := ha.add hb
  rwa [value_ofFloat h.nonpositive]

theorem ext_value (h : a.value = b.value) : a = b := by
  cases a
  cases b
  cases h
  rfl

theorem le_iff (ha : Reads a.value j) (hb : Reads b.value k) : a ≤ b ↔ k ≤ j :=
  ha.le_iff hb

/-- A sum is no greater than its first part: rounding does not go below what is representable. -/
theorem le_code_add (j k : Nat) : j ≤ code (magnitude j + magnitude k) :=
  calc j = code (magnitude j) := (code_magnitude j).symm
    _ ≤ code (magnitude j + magnitude k) := code_mono (Nat.le_add_right _ _)

instance : LawfulScore LogProbability where
  le_refl a := by
    obtain ⟨k, ha⟩ := a.exists_reads
    exact (le_iff ha ha).mpr (le_refl k)
  le_trans a b c hab hbc := by
    obtain ⟨i, ha⟩ := a.exists_reads
    obtain ⟨j, hb⟩ := b.exists_reads
    obtain ⟨k, hc⟩ := c.exists_reads
    exact (le_iff ha hc).mpr (le_trans ((le_iff hb hc).mp hbc) ((le_iff ha hb).mp hab))
  le_antisymm a b hab hba := by
    obtain ⟨j, ha⟩ := a.exists_reads
    obtain ⟨k, hb⟩ := b.exists_reads
    obtain rfl : j = k := le_antisymm ((le_iff hb ha).mp hba) ((le_iff ha hb).mp hab)
    exact ext_value (ha.inj hb)
  le_total a b := by
    obtain ⟨j, ha⟩ := a.exists_reads
    obtain ⟨k, hb⟩ := b.exists_reads
    exact (le_total k j).imp (le_iff ha hb).mpr (le_iff hb ha).mpr
  add_le_add {a b c d} hab hcd := by
    obtain ⟨i, ha⟩ := a.exists_reads
    obtain ⟨j, hb⟩ := b.exists_reads
    obtain ⟨k, hc⟩ := c.exists_reads
    obtain ⟨l, hd⟩ := d.exists_reads
    have hmagnitude := Nat.add_le_add (magnitude_mono ((le_iff ha hb).mp hab))
      (magnitude_mono ((le_iff hc hd).mp hcd))
    have hcode := code_mono hmagnitude
    exact (le_iff (reads_add ha hc) (reads_add hb hd)).mpr (by omega)
  add_le_left a b := by
    obtain ⟨j, ha⟩ := a.exists_reads
    obtain ⟨k, hb⟩ := b.exists_reads
    have hcode := le_code_add j k
    have htop := ha.1
    exact (le_iff (reads_add ha hb) ha).mpr (by omega)
  add_le_right a b := by
    obtain ⟨j, ha⟩ := a.exists_reads
    obtain ⟨k, hb⟩ := b.exists_reads
    have hcode := le_code_add k j
    have htop := hb.1
    rw [Nat.add_comm] at hcode
    exact (le_iff (reads_add ha hb) hb).mpr (by omega)
  le_of_isImpossible {a} b h := by
    obtain ⟨j, ha⟩ := a.exists_reads
    obtain ⟨k, hb⟩ := b.exists_reads
    obtain rfl := ha.isInf_iff.mp h
    exact (le_iff ha hb).mpr hb.1

end LogProbability

end Constituency

import Std.Data.TreeMap

/-!
# Tallies

How often each value occurs in a list.
-/

namespace Constituency

def tally {α : Type} [Ord α] (l : List α) : Std.TreeMap α Nat :=
  l.foldl (fun counts a => counts.insert a (counts.getD a 0 + 1)) ∅

theorem getD_foldl_tally {α : Type} [Ord α] [Std.TransOrd α] [Std.LawfulEqOrd α] [DecidableEq α]
    (l : List α) (counts : Std.TreeMap α Nat) (a : α) :
    (l.foldl (fun counts a => counts.insert a (counts.getD a 0 + 1)) counts).getD a 0 =
      counts.getD a 0 + l.count a := by
  induction l generalizing counts with
  | nil => simp
  | cons b l ih =>
    rw [List.foldl_cons, ih, Std.TreeMap.getD_insert, List.count_cons]
    by_cases h : b = a
    · subst h; simp; omega
    · simp [h]

theorem getD_tally {α : Type} [Ord α] [Std.TransOrd α] [Std.LawfulEqOrd α] [DecidableEq α]
    (l : List α) (a : α) : (tally l).getD a 0 = l.count a := by
  simp [tally, getD_foldl_tally]

theorem mem_foldl_tally {α : Type} [Ord α] [Std.TransOrd α] [Std.LawfulEqOrd α] (l : List α)
    (counts : Std.TreeMap α Nat) (a : α) :
    a ∈ l.foldl (fun counts a => counts.insert a (counts.getD a 0 + 1)) counts ↔
      a ∈ counts ∨ a ∈ l := by
  induction l generalizing counts with
  | nil => simp
  | cons b l ih =>
    rw [List.foldl_cons, ih, Std.TreeMap.mem_insert, Std.LawfulEqCmp.compare_eq_iff_eq,
      List.mem_cons, eq_comm]
    simp only [or_assoc, or_left_comm]

theorem mem_tally {α : Type} [Ord α] [Std.TransOrd α] [Std.LawfulEqOrd α] {l : List α} {a : α} :
    a ∈ tally l ↔ a ∈ l := by
  simp [tally, mem_foldl_tally]

theorem getElem?_tally {α : Type} [Ord α] [Std.TransOrd α] [Std.LawfulEqOrd α] [DecidableEq α]
    (l : List α) (a : α) : (tally l)[a]? = if a ∈ l then some (l.count a) else none := by
  split
  · rename_i h
    rw [← getD_tally, Std.TreeMap.getElem?_eq_some_getD (mem_tally.mpr h)]
  · rename_i h
    exact Std.TreeMap.getElem?_eq_none fun hmem => h (mem_tally.mp hmem)

theorem mem_toList_tally {α : Type} [Ord α] [Std.TransOrd α] [Std.LawfulEqOrd α] [DecidableEq α]
    {l : List α} {a : α} {n : Nat} : (a, n) ∈ (tally l).toList ↔ a ∈ l ∧ n = l.count a := by
  rw [Std.TreeMap.mem_toList_iff_getElem?_eq_some, getElem?_tally]
  split <;> simp_all [eq_comm]

theorem toList_tally {α : Type} [Ord α] [Std.TransOrd α] [Std.LawfulEqOrd α] [DecidableEq α]
    (l : List α) : (tally l).toList = (tally l).keys.map fun a => (a, l.count a) := by
  have hcount : ∀ entry ∈ (tally l).toList, (entry.1, l.count entry.1) = entry := by
    intro (a, n) hentry
    rw [(mem_toList_tally.mp hentry).2]
  rw [← Std.TreeMap.map_fst_toList_eq_keys, List.map_map]
  exact ((List.map_congr_left hcount).trans (List.map_id' _)).symm

end Constituency

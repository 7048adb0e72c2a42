/-!
# Ranks in a sorted list

The element at position `i` of a sorted list has at most `i` elements below it
and more than `i` elements up to it, whatever ties there are. Sorting forgets
the order of the input, so both counts are those of the input.
-/

namespace Lib

section
variable {α : Type} [LE α] [DecidableLE α] [Std.IsLinearOrder α]

omit [Std.IsLinearOrder α] in
theorem mergeSort_ne_nil {l : List α} (h : l ≠ []) : l.mergeSort (· ≤ ·) ≠ [] := by
  rw [← List.length_pos_iff, List.length_mergeSort]
  exact List.length_pos_iff.mpr h

theorem pairwise_sort (l : List α) : (l.mergeSort (· ≤ ·)).Pairwise (· ≤ ·) := by
  have h := @List.pairwise_mergeSort α (fun a b => decide (a ≤ b)) ?_ ?_ l
  · simpa using h
  · intro a b c hab hbc
    simp only [decide_eq_true_eq] at hab hbc ⊢
    exact Std.le_trans hab hbc
  · intro a b
    simpa using Std.le_total (a := a) (b := b)

theorem sort_eq_of_perm {l l' : List α} (h : l.Perm l') : l.mergeSort (· ≤ ·) = l'.mergeSort (· ≤ ·) := by
  refine List.Perm.eq_of_pairwise ?_ (pairwise_sort l) (pairwise_sort l') ?_
  · intro a b _ _ hab hba
    exact Std.le_antisymm hab hba
  · exact (List.mergeSort_perm l _).trans (h.trans (List.mergeSort_perm l' _).symm)

end

section
variable {α : Type} [LE α] [Std.IsLinearOrder α] {l : List α} (hs : l.Pairwise (· ≤ ·))
include hs

theorem le_of_rank_le {i j : Nat} {x y : α} (hx : l[i]? = some x) (hy : l[j]? = some y) (h : i ≤ j) : x ≤ y := by
  obtain ⟨hi, rfl⟩ := List.getElem?_eq_some_iff.mp hx
  obtain ⟨hj, rfl⟩ := List.getElem?_eq_some_iff.mp hy
  rcases Nat.lt_or_eq_of_le h with h | rfl
  · exact List.pairwise_iff_getElem.mp hs i j hi hj h
  · exact Std.le_refl _

theorem rank_lt_countP_le [DecidableLE α] {i : Nat} {x : α} (hx : l[i]? = some x) : i < l.countP (· ≤ x) := by
  have hi := (List.getElem?_eq_some_iff.mp hx).1
  have htake : (l.take (i + 1)).countP (· ≤ x) = (l.take (i + 1)).length := by
    rw [List.countP_eq_length]
    intro y hy
    obtain ⟨k, hk⟩ := List.mem_iff_getElem?.mp hy
    rw [List.getElem?_take] at hk
    split at hk
    · rename_i hlt
      simpa using le_of_rank_le hs hk hx (Nat.lt_succ_iff.mp hlt)
    · cases hk
  calc i < (l.take (i + 1)).length := by rw [List.length_take]; omega
    _ = (l.take (i + 1)).countP (· ≤ x) := htake.symm
    _ ≤ (l.take (i + 1)).countP (· ≤ x) + (l.drop (i + 1)).countP (· ≤ x) := Nat.le_add_right _ _
    _ = l.countP (· ≤ x) := by rw [← List.countP_append, List.take_append_drop]

theorem countP_lt_le_rank [LT α] [DecidableLT α] [Std.LawfulOrderLT α] {i : Nat} {x : α} (hx : l[i]? = some x) :
    l.countP (· < x) ≤ i := by
  have hdrop : (l.drop i).countP (· < x) = 0 := by
    rw [List.countP_eq_zero]
    intro y hy
    obtain ⟨k, hk⟩ := List.mem_iff_getElem?.mp hy
    rw [List.getElem?_drop] at hk
    simpa using Std.not_lt.mpr (le_of_rank_le hs hx hk (Nat.le_add_right i k))
  calc l.countP (· < x) = (l.take i).countP (· < x) + (l.drop i).countP (· < x) := by
        rw [← List.countP_append, List.take_append_drop]
    _ = (l.take i).countP (· < x) := by rw [hdrop, Nat.add_zero]
    _ ≤ (l.take i).length := List.countP_le_length
    _ ≤ i := List.length_take_le i l

end

end Lib

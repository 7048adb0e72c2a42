/-!
# Windows closed by an index test

A loop gathers elements and closes its window at every index that `d` divides.
The first window closes at index `0` with one element; the others are the
whole chunks of what follows, and a rest that fills no chunk is in none.
-/

namespace Lib

section
variable {α : Type}

def windows (d : Nat) : Nat → List α → List α → List (List α)
  | _, _, [] => []
  | i, tmp, a :: l =>
    if i % d = 0 then (tmp ++ [a]) :: windows d (i + 1) [] l
    else windows d (i + 1) (tmp ++ [a]) l

/-- The elements after index `(k - 1) * d` up to index `k * d`. -/
def window (d : Nat) (l : List α) : Nat → List α
  | 0 => l.take 1
  | k + 1 => (l.drop (k * d + 1)).take d

def chunks (d : Nat) (l : List α) : List (List α) := (List.range (l.length / d)).map fun k => (l.drop (k * d)).take d

section
variable {d : Nat} (hd : 0 < d)
include hd

theorem succ_mod_cases (i : Nat) :
    (i + 1) % d = 0 ∧ i % d + 1 = d ∨ (i + 1) % d ≠ 0 ∧ (i + 1) % d = i % d + 1 := by
  have hmod : (i + 1) % d = (i % d + 1) % d := (Nat.mod_add_mod i d 1).symm
  rcases Nat.lt_or_eq_of_le (Nat.mod_lt i hd) with h | h
  · right
    rw [hmod, Nat.mod_eq_of_lt h]
    exact ⟨Nat.succ_ne_zero _, rfl⟩
  · left
    have h : i % d + 1 = d := h
    rw [hmod, h, Nat.mod_self]
    exact ⟨rfl, rfl⟩

theorem chunks_append {a : List α} (ha : a.length = d) (l : List α) : chunks d (a ++ l) = a :: chunks d l := by
  unfold chunks
  rw [List.length_append, ha, Nat.add_comm, Nat.add_div_right _ hd, List.range_succ_eq_map, List.map_cons, List.map_map]
  refine congr (congrArg _ ?_) (List.map_congr_left fun k _ => ?_)
  · simp [← ha]
  · simp only [Function.comp, Nat.succ_eq_add_one, Nat.add_mul, Nat.one_mul]
    rw [Nat.add_comm (k * d), ← List.drop_drop, List.drop_left' ha]

omit hd in
theorem chunks_one (l : List α) : chunks 1 l = l.map fun a => [a] := by
  induction l with
  | nil => simp [chunks]
  | cons a l ih =>
    have h := chunks_append Nat.one_pos (show [a].length = 1 from rfl) l
    rw [List.singleton_append] at h
    rw [h, ih, List.map_cons]

theorem windows_eq_chunks : ∀ (l : List α) (i : Nat) (tmp : List α), tmp.length = i % d →
    windows d (i + 1) tmp l = chunks d (tmp ++ l)
  | [], i, tmp, h => by
    have hlt : tmp.length < d := h ▸ Nat.mod_lt i hd
    simp [windows, chunks, Nat.div_eq_of_lt hlt]
  | a :: l, i, tmp, h => by
    have happ : tmp ++ a :: l = (tmp ++ [a]) ++ l := by simp
    rw [windows, happ]
    rcases succ_mod_cases hd i with ⟨hz, hfull⟩ | ⟨hz, hmod⟩
    · have hlen : (tmp ++ [a]).length = d := by simp [h, hfull]
      rw [if_pos hz, windows_eq_chunks l (i + 1) [] (by simp [hz]), List.nil_append, chunks_append hd hlen]
    · rw [if_neg hz]
      exact windows_eq_chunks l (i + 1) (tmp ++ [a]) (by simp [h, hmod])

theorem windows_cons (a : α) (l : List α) : windows d 0 [] (a :: l) = [a] :: chunks d l := by
  rw [windows, if_pos (Nat.zero_mod d), windows_eq_chunks hd l 0 [] (by simp)]
  rfl

/-- **The windows.** One for each multiple of `d` below the length. -/
theorem windows_eq (l : List α) :
    windows d 0 [] l = (List.range ((l.length + d - 1) / d)).map (window d l) := by
  cases l with
  | nil => simp [windows, Nat.div_eq_of_lt (show d - 1 < d by omega)]
  | cons a l =>
    have hcount : ((a :: l).length + d - 1) / d = l.length / d + 1 := by
      rw [List.length_cons, Nat.add_right_comm, Nat.add_sub_cancel, Nat.add_div_right _ hd]
    rw [windows_cons hd, hcount, List.range_succ_eq_map, List.map_cons, List.map_map]
    rfl

end

section
variable {d : Nat} {l : List α} {k : Nat} (hk : k < (l.length + d - 1) / d)
include hk

theorem lt_of_window : k * d < l.length := by
  have hle := Nat.mul_le_of_le_div d (k + 1) _ hk
  rw [Nat.add_mul, Nat.one_mul] at hle
  rcases Nat.eq_zero_or_pos d with rfl | hd
  · simp at hk
  · omega

theorem getLast?_window : (window d l k).getLast? = l[k * d]? := by
  have hlt := lt_of_window hk
  cases k with
  | zero =>
    rw [Nat.zero_mul] at hlt ⊢
    cases l with
    | nil => simp at hlt
    | cons a l => simp [window]
  | succ k =>
    rw [Nat.add_mul, Nat.one_mul] at hlt ⊢
    rcases Nat.eq_zero_or_pos d with rfl | hd
    · simp at hk
    · have hlen : (window d l (k + 1)).length = d := by
        simp only [window, List.length_take, List.length_drop]
        omega
      rw [List.getLast?_eq_getElem?, hlen, window, List.getElem?_take_of_lt (by omega), List.getElem?_drop]
      congr 1
      omega

theorem window_ne_nil : window d l k ≠ [] := by
  intro h
  have hlast := getLast?_window hk
  rw [h, List.getElem?_eq_getElem (lt_of_window hk)] at hlast
  cases hlast

omit hk in
theorem mem_window {x : α} (hx : x ∈ window d l k) :
    ∃ j, l[j]? = some x ∧ j ≤ k * d ∧ (k ≠ 0 → (k - 1) * d < j) := by
  obtain ⟨i, hi⟩ := List.mem_iff_getElem?.mp hx
  cases k with
  | zero =>
    rw [window, List.getElem?_take] at hi
    split at hi
    · exact ⟨i, hi, by omega, by simp⟩
    · cases hi
  | succ k =>
    rw [window, List.getElem?_take] at hi
    split at hi
    · rw [List.getElem?_drop] at hi
      refine ⟨k * d + 1 + i, hi, ?_, fun _ => ?_⟩
      · rw [Nat.add_mul, Nat.one_mul]
        omega
      · rw [Nat.add_sub_cancel]
        omega
    · cases hi

end

end

end Lib

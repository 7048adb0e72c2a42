import IoTester.Lib.Ranks
import IoTester.TailPosix
import IoTester.TailSpdkReport
import IoTester.DetailSound

/-!
# Percentiles

Three programs sort a vector and take the element at the whole part of
`p * size`: `detail.cc` and `spdk.cc` for any `p`, the POSIX workers for two
fixed percentiles, in microseconds. The element is a quantile of the vector.
-/

namespace IoTester

open Detail (tailIndex tailIndex_lt)

theorem tailIndex_ratio (a b n : Nat) : tailIndex ((a : Rat) / b) n = a * n / b := by
  have hmul : (n : Rat) * ((a : Rat) / b) = ((a * n : Nat) : Rat) / (b : Nat) := by
    push_cast
    ring
  have hfloor : (((a * n : Nat) : Rat) / (b : Nat)).floor = ((a * n / b : Nat) : Int) :=
    Rat.floor_natCast_div_natCast (a * n) b
  unfold tailIndex
  rw [hmul, hfloor, Int.toNat_natCast]

section
variable {p : Rat} (h0 : 0 ≤ p) (n : Nat)
include h0

theorem tailIndex_le : (tailIndex p n : Rat) ≤ n * p := by
  have hnonneg : 0 ≤ ⌊(n : Rat) * p⌋ := Int.floor_nonneg.mpr (by positivity)
  have hcast : ((tailIndex p n : Int) : Rat) = (⌊(n : Rat) * p⌋ : Int) := congrArg _ (Int.toNat_of_nonneg hnonneg)
  calc (tailIndex p n : Rat) = (⌊(n : Rat) * p⌋ : Int) := by exact_mod_cast hcast
    _ ≤ n * p := Int.floor_le _

omit h0 in
theorem lt_tailIndex_succ : (n : Rat) * p < tailIndex p n + 1 := by
  have hcast : ⌊(n : Rat) * p⌋ ≤ (tailIndex p n : Int) := Int.self_le_toNat _
  calc (n : Rat) * p < (⌊(n : Rat) * p⌋ : Int) + 1 := Int.lt_floor_add_one _
    _ ≤ tailIndex p n + 1 := by
      have : ((⌊(n : Rat) * p⌋ : Int) : Rat) ≤ (tailIndex p n : Int) := by exact_mod_cast hcast
      simpa using this

omit h0 in
theorem tailIndex_mono {q : Rat} (h : p ≤ q) : tailIndex p n ≤ tailIndex q n := by
  have hmul : (n : Rat) * p ≤ n * q := mul_le_mul_of_nonneg_left h (Nat.cast_nonneg n)
  have hfloor : ⌊(n : Rat) * p⌋ ≤ ⌊(n : Rat) * q⌋ := Int.floor_mono hmul
  exact Int.toNat_le_toNat hfloor

end

/-- What the three programs print for percentile `p` of a vector. -/
structure Prints (v : List UInt64) (p : Rat) (x : UInt64) : Prop where
  detail : Detail.getTailLatency (v.mergeSort (· ≤ ·)) p = .ok (.tail p x (tailIndex p v.length) v.length)
  spdk : TailSpdk.getTailLatency (v.mergeSort (· ≤ ·)) p = .ok ⟨p, x, tailIndex p v.length, v.length⟩
  p99 : p = 99 / 100 → ∀ savePath tag o, (TailPosix.report savePath tag o v).p99 = some (x / 1000)
  p999 : p = 999 / 1000 → ∀ savePath tag o, (TailPosix.report savePath tag o v).p999 = some (x / 1000)

section
variable {v : List UInt64} {p : Rat} {x : UInt64}

theorem prints_iff : Prints v p x ↔ (v.mergeSort (· ≤ ·))[tailIndex p v.length]? = some x := by
  have hlen : (v.mergeSort (· ≤ ·)).length = v.length := List.length_mergeSort v
  constructor
  · intro h
    have hd := h.detail
    rw [Detail.getTailLatency_def, hlen] at hd
    split at hd
    · rename_i y hy
      cases hd
      exact hy
    · cases hd
  · intro h
    refine ⟨?_, ?_, ?_, ?_⟩
    · rw [Detail.getTailLatency_def, hlen, h]
    · unfold TailSpdk.getTailLatency
      unfold tailIndex at h
      simp only [hlen, h]
      rfl
    · rintro rfl savePath tag o
      have hidx : tailIndex (99 / 100) v.length = 99 * v.length / 100 := tailIndex_ratio 99 100 v.length
      rw [hidx] at h
      simp [TailPosix.report, h]
    · rintro rfl savePath tag o
      have hidx : tailIndex (999 / 1000) v.length = 999 * v.length / 1000 := tailIndex_ratio 999 1000 v.length
      rw [hidx] at h
      simp [TailPosix.report, h]

theorem exists_prints (hne : v ≠ []) (h0 : 0 ≤ p) (h1 : p < 1) : ∃ x, Prints v p x := by
  have hlt : tailIndex p v.length < (v.mergeSort (· ≤ ·)).length := by
    rw [List.length_mergeSort]
    exact tailIndex_lt h0 h1 (List.length_pos_iff.mpr hne)
  exact ⟨_, prints_iff.mpr (List.getElem?_eq_getElem hlt)⟩

theorem Prints.perm (h : Prints v p x) {v' : List UInt64} (hp : v'.Perm v) : Prints v' p x := by
  rw [prints_iff] at h ⊢
  rw [Lib.sort_eq_of_perm hp, hp.length_eq]
  exact h

end

/-- **Percentiles are quantiles.** For every `p` in `[0, 1)` the programs find
a sample with at most `n * p` samples below it and more than `n * p` samples
up to it. It depends on the samples only, and grows with `p`. -/
theorem tail_is_quantile {v : List UInt64} (hne : v ≠ []) {p : Rat} (h0 : 0 ≤ p) (h1 : p < 1) :
    tailIndex p v.length < v.length ∧ ∃ x ∈ v, Prints v p x ∧
      (v.countP (· < x) : Rat) ≤ v.length * p ∧ v.length * p < (v.countP (· ≤ x) : Rat) ∧
      (∀ v' : List UInt64, v'.Perm v → Prints v' p x) ∧
      ∀ q y, p ≤ q → q < 1 → Prints v q y → x ≤ y := by
  obtain ⟨x, hx⟩ := exists_prints hne h0 h1
  have hget := prints_iff.mp hx
  have hperm := List.mergeSort_perm v (fun a b => decide (a ≤ b))
  have hs := Lib.pairwise_sort v
  refine ⟨tailIndex_lt h0 h1 (List.length_pos_iff.mpr hne), x, ?_, hx, ?_, ?_, fun v' => hx.perm, ?_⟩
  · exact hperm.mem_iff.mp (List.mem_of_getElem? hget)
  · have hcount := Lib.countP_lt_le_rank hs hget
    rw [hperm.countP_eq] at hcount
    calc (v.countP (· < x) : Rat) ≤ tailIndex p v.length := by exact_mod_cast hcount
      _ ≤ v.length * p := tailIndex_le h0 v.length
  · have hcount := Lib.rank_lt_countP_le hs hget
    rw [hperm.countP_eq] at hcount
    calc (v.length : Rat) * p < tailIndex p v.length + 1 := lt_tailIndex_succ v.length
      _ ≤ v.countP (· ≤ x) := by exact_mod_cast hcount
  · intro q y hpq _ hy
    exact Lib.le_of_rank_le hs hget (prints_iff.mp hy) (tailIndex_mono v.length hpq)

theorem tail_is_quantile_ties : ∃ x ∈ [7, 3, 7, 7], Prints [7, 3, 7, 7] (1 / 4) x ∧
    (([7, 3, 7, 7] : List UInt64).countP (· < x) : Rat) ≤ 4 * (1 / 4) := by
  obtain ⟨_, x, hx, hprints, hbelow, _⟩ := @tail_is_quantile [7, 3, 7, 7] (by simp) (1 / 4) (by norm_num) (by norm_num)
  exact ⟨x, hx, hprints, by simpa using hbelow⟩

end IoTester

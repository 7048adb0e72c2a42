import IoTester.Lib.Rounding
import IoTester.TailTime
import Mathlib.Data.Nat.Cast.Order.Field

/-!
# Percentiles and averages in `double`

The programs compute the index of a percentile and `detail.cc` the average of a
window in `double`. Here is the arithmetic of `detail.cc` with every operation
rounded, and what it has in common with the exact one: on files of up to `2 ^ 39`
samples with a sum below `2 ^ 53` nothing is lost.
-/

namespace IoTester.Detail

open Lib

/-! ## The functions as they are computed -/

namespace InDouble

/-- `(size_t)(1.0 * size * p)`, for the literal `p`. -/
def index (p : ℚ) (size : ℕ) : ℕ := ⌊fl 53 (fl 53 (1 * fl 53 size) * fl 53 p)⌋₊

/-- `(size_t)(p * size)`, as the workers of `tail_latency/posix.cc` have it. -/
def workerIndex (p : ℚ) (size : ℕ) : ℕ := ⌊fl 53 (fl 53 p * fl 53 size)⌋₊

def avg (vecTmp : List UInt64) : UInt64 :=
  let sum := vecTmp.foldl (fun avg v => fl 53 (avg + fl 53 v.toNat)) 0
  UInt64.ofNat ⌊fl 53 (sum / fl 53 vecTmp.length)⌋₊

def arithmetic : Arithmetic := ⟨fl 53, fun p => fl 53 (100 * fl 53 p), index⟩

def detailHandler (fs : Files) (name : Text) (interval : Int) : Except Fault (Files × List Line) :=
  arithmetic.detailHandler avg fs name interval

end InDouble

/-! ## The index of a percentile -/

theorem floor_fl_int {x : ℚ} {k : ℕ} (hk : k < 2 ^ 53) (herr : |x - k| ≤ k / 2 ^ 55) : ⌊fl 53 x⌋₊ = k := by
  rcases Nat.eq_zero_or_pos k with rfl | hpos
  · have hx : x = 0 := by simpa using herr
    simp [hx]
  · have hpos : (0 : ℚ) < k := by exact_mod_cast hpos
    rw [fl_eq_natCast hk, Nat.floor_natCast]
    norm_num at herr ⊢
    linarith

theorem floor_fl_between {x y : ℚ} {k : ℕ} (hy : y ≤ 2 ^ 39) (herr : |x - y| ≤ y / 2 ^ 55)
    (hlo : k + 1 / 10000 ≤ y) (hhi : y ≤ k + 1 - 1 / 10000) : ⌊fl 53 x⌋₊ = k := by
  obtain ⟨hbelow, habove⟩ := abs_le.mp herr
  norm_num at hy hbelow habove
  refine floor_fl ?_ ?_ ?_
  · linarith
  · norm_num
    linarith
  · norm_num
    linarith

/-- A product that is an integer is met exactly, and any other is further from the
next integer than all errors together. -/
theorem floor_product {a b n : ℕ} (hb : 0 < b) (hsize : b ≤ 10000) (hab : a ≤ b) (hn : n ≤ 2 ^ 39)
    (hp : |fl 53 (a / b) - a / b| ≤ a / b / 2 ^ 55) : ⌊fl 53 (n * fl 53 (a / b))⌋₊ = a * n / b := by
  have hbpos : (0 : ℚ) < b := by exact_mod_cast hb
  have hb' : (b : ℚ) ≤ 10000 := by exact_mod_cast hsize
  have herr : |n * fl 53 (a / b) - n * (a / b)| ≤ n * (a / b) / 2 ^ 55 := by
    rw [← mul_sub, abs_mul, Nat.abs_cast, mul_div_assoc]
    exact mul_le_mul_of_nonneg_left hp (Nat.cast_nonneg n)
  have hsplit : (n * (a / b) : ℚ) = (a * n / b : ℕ) + (a * n % b : ℕ) / b := by
    have hdiv : ((b * (a * n / b) + a * n % b : ℕ) : ℚ) = (a * n : ℕ) := congrArg _ (Nat.div_add_mod (a * n) b)
    push_cast at hdiv ⊢
    field_simp
    linarith
  rw [hsplit] at herr
  by_cases hr : a * n % b = 0
  · rw [hr, Nat.cast_zero, zero_div, add_zero] at herr
    refine floor_fl_int ?_ herr
    have hle : a * n / b ≤ n := Nat.div_le_of_le_mul (Nat.mul_le_mul_right n hab)
    omega
  · have hone : (1 : ℚ) ≤ (a * n % b : ℕ) := by exact_mod_cast Nat.pos_of_ne_zero hr
    have hlast : ((a * n % b : ℕ) : ℚ) + 1 ≤ b := by exact_mod_cast Nat.mod_lt (a * n) hb
    refine floor_fl_between ?_ herr ?_ ?_
    · rw [← hsplit]
      refine le_trans (mul_le_of_le_one_right (Nat.cast_nonneg n) ?_) (by exact_mod_cast hn)
      exact (div_le_one hbpos).mpr (by exact_mod_cast hab)
    · rw [add_le_add_iff_left, div_le_div_iff₀ (by norm_num) hbpos]
      linarith
    · rw [add_sub_assoc, add_le_add_iff_left, div_le_iff₀ hbpos]
      linarith

theorem reported_ratio : ∀ p ∈ reported, p = (p.num.toNat : ℚ) / p.den ∧ p.den ≤ 10000 ∧ p.num.toNat ≤ p.den ∧
    |fl 53 p - p| ≤ p / 2 ^ 55 := by decide +kernel

theorem floor_percent {p : ℚ} (hp : p ∈ reported) {n : ℕ} (hn : n ≤ 2 ^ 39) :
    ⌊fl 53 (n * fl 53 p)⌋₊ = tailIndex p n := by
  obtain ⟨hratio, hsize, hab, herr⟩ := reported_ratio p hp
  rw [hratio] at herr ⊢
  rw [floor_product p.den_pos hsize hab hn herr, tailIndex_ratio]

theorem index_eq {p : ℚ} (hp : p ∈ reported) {n : ℕ} (hn : n ≤ 2 ^ 39) : InDouble.index p n = tailIndex p n := by
  have hsize : fl 53 n = n := fl_natCast (by omega)
  rw [InDouble.index, hsize, one_mul, hsize, floor_percent hp hn]

theorem workerIndex_eq {p : ℚ} (hp : p ∈ reported) {n : ℕ} (hn : n ≤ 2 ^ 39) :
    InDouble.workerIndex p n = tailIndex p n := by
  have hsize : fl 53 n = n := fl_natCast (by omega)
  rw [InDouble.workerIndex, hsize, mul_comm, floor_percent hp hn]

/-- **Percentiles in `double`.** For up to `2 ^ 39` samples, the element at the
index that a program computes in `double` is the one that it prints in exact
arithmetic, in either order of the factors. -/
theorem percentile_in_double {v : List UInt64} (hne : v ≠ []) (hlen : v.length ≤ 2 ^ 39) {p : ℚ} (hp : p ∈ reported) :
    ∃ x, Prints v p x ∧ (v.mergeSort (· ≤ ·))[InDouble.index p v.length]? = some x ∧
      (v.mergeSort (· ≤ ·))[InDouble.workerIndex p v.length]? = some x := by
  obtain ⟨h0, h1⟩ := reported_range p hp
  obtain ⟨x, hx⟩ := exists_prints hne h0 h1
  refine ⟨x, hx, ?_, ?_⟩
  · rw [index_eq hp hlen]
    exact prints_iff.mp hx
  · rw [workerIndex_eq hp hlen]
    exact prints_iff.mp hx

theorem percentile_in_double_hundred :
    ∃ x, Prints (List.replicate 100 7) (99 / 100) x ∧
      ((List.replicate 100 (7 : UInt64)).mergeSort (· ≤ ·))[InDouble.index (99 / 100) 100]? = some x := by
  obtain ⟨x, hx, hindex, _⟩ := percentile_in_double (v := List.replicate 100 7) (by decide)
    (by rw [List.length_replicate]; decide) (show 99 / 100 ∈ reported by decide +kernel)
  rw [List.length_replicate] at hindex
  exact ⟨x, hx, hindex⟩

/-! ## The average of a window -/

def total (v : List UInt64) : ℕ := (v.map UInt64.toNat).sum

theorem total_append (u v : List UInt64) : total (u ++ v) = total u + total v := by simp [total]

theorem foldl_total : ∀ (v : List UInt64) {k : ℕ}, k + total v < 2 ^ 53 →
    v.foldl (fun avg x => fl 53 (avg + fl 53 x.toNat)) (k : ℚ) = (k + total v : ℕ)
  | [], k, _ => rfl
  | x :: v, k, h => by
    have hcons : total (x :: v) = x.toNat + total v := by simp [total]
    rw [hcons] at h ⊢
    have hstep : fl 53 (k + fl 53 x.toNat) = (k + x.toNat : ℕ) := by
      rw [fl_natCast (show x.toNat < 2 ^ 53 by omega), ← Nat.cast_add, fl_natCast (by omega)]
    rw [List.foldl_cons, hstep, foldl_total v (by omega), Nat.add_assoc]

/-- The error of the quotient is less than one part of the divisor, and so is the
distance to the next integer. -/
theorem floor_quotient {m n : ℕ} (hn : 0 < n) (hm : m < 2 ^ 53) : ⌊fl 53 (m / n : ℚ)⌋₊ = m / n := by
  have hpos : (0 : ℚ) < n := by exact_mod_cast hn
  have hm' : (m : ℚ) < 2 ^ 53 := by exact_mod_cast hm
  have hnext : (m : ℚ) + 1 ≤ ((m / n : ℕ) + 1) * n := by
    exact_mod_cast Nat.succ_le_of_lt (Nat.lt_mul_of_div_lt (Nat.lt_succ_self (m / n)) hn)
  refine floor_fl Nat.cast_div_le ?_ ?_
  · refine lt_of_le_of_lt (div_le_self (Nat.cast_nonneg m) ?_) hm'
    exact_mod_cast hn
  · calc (m / n : ℚ) + m / n / 2 ^ 53 = ((m : ℚ) + m / 2 ^ 53) / n := by ring
      _ < ((m : ℚ) + 1) / n := by
        rw [div_lt_div_iff_of_pos_right hpos, add_lt_add_iff_left, div_lt_one (by positivity)]
        exact hm'
      _ ≤ ((m / n : ℕ) : ℚ) + 1 := (div_le_iff₀ hpos).mpr hnext

theorem mean_eq {v : List UInt64} (hlen : v.length < 2 ^ 64) (htotal : total v < 2 ^ 53) :
    mean v = UInt64.ofNat (total v / v.length) := by
  have hzero : (0 : UInt64).toNat + total v = total v := Nat.zero_add _
  have hsum := TailPosix.toNat_foldl_add v 0 (show (0 : UInt64).toNat + total v < 2 ^ 64 by omega)
  have hquot : total v / v.length < 2 ^ 64 := lt_of_le_of_lt (Nat.div_le_self _ _) (by omega)
  rw [← UInt64.toNat_inj, mean, UInt64.toNat_div, hsum, UInt64.toNat_ofNat_of_lt' hlen, UInt64.toNat_ofNat_of_lt' hquot]
  exact congrArg (· / v.length) hzero

theorem avg_eq {v : List UInt64} (hne : v ≠ []) (hlen : v.length ≤ 2 ^ 39) (htotal : total v < 2 ^ 53) :
    InDouble.avg v = mean v := by
  have hfold := foldl_total v (k := 0) (by omega)
  rw [Nat.cast_zero, Nat.zero_add] at hfold
  rw [mean_eq (by omega) htotal]
  simp only [InDouble.avg, hfold]
  rw [fl_natCast (show v.length < 2 ^ 53 by omega), floor_quotient (List.length_pos_iff.mpr hne) htotal]

/-! ## The analysis of a file -/

theorem percents_zero_iff : ∀ p ∈ percents, fl 53 p = 0 ↔ p = 0 := by decide +kernel

theorem percents_text : ∀ p ∈ percents, twoDecimals (fl 53 (100 * fl 53 p)) = twoDecimals (100 * p) := by
  decide +kernel

theorem mem_reported : ∀ p ∈ percents, p ≠ 0 → p ∈ reported := by decide +kernel

theorem total_sort (v : List UInt64) : total (v.mergeSort (· ≤ ·)) = total v :=
  ((List.mergeSort_perm v _).map UInt64.toNat).sum_eq

namespace InDouble

variable {p : ℚ} (hp : p ∈ percents)

include hp in
theorem newName_eq (name : Text) : arithmetic.newName name p = Detail.newName name p := by
  have hsuffix : arithmetic.suffix p = Detail.suffix p := by
    show (if fl 53 p = 0 then _ else '_' :: twoDecimals (fl 53 (100 * fl 53 p)) ++ ['t', 'h']) =
      if p = 0 then _ else '_' :: twoDecimals (100 * p) ++ ['t', 'h']
    rw [percents_text p hp]
    exact if_congr (percents_zero_iff p hp) rfl rfl
  rw [Arithmetic.newName, hsuffix, newName_def]

include hp in
theorem summary_eq {v : List UInt64} (hne : v ≠ []) (hlen : v.length ≤ 2 ^ 39) (htotal : total v < 2 ^ 53) :
    arithmetic.summary avg p v = Detail.summary mean p v := by
  rw [summary_def]
  unfold Arithmetic.summary
  dsimp only
  by_cases hzero : p = 0
  · rw [if_pos (show arithmetic.value p = 0 from (percents_zero_iff p hp).mpr hzero), if_pos hzero,
      avg_eq (mergeSort_ne_nil hne) (by rwa [List.length_mergeSort]) (by rwa [total_sort])]
  · have hindex : arithmetic.index p v.length = tailIndex p v.length := index_eq (mem_reported p hp hzero) hlen
    rw [if_neg (show ¬ arithmetic.value p = 0 from mt (percents_zero_iff p hp).mp hzero), if_neg hzero,
      List.length_mergeSort, hindex]

include hp in
theorem tailLoop_eq (interval : UInt64) : ∀ (vec tmp : List UInt64) (i : ℕ), (tmp ++ vec).length ≤ 2 ^ 39 →
    total (tmp ++ vec) < 2 ^ 53 →
    arithmetic.tailLoop avg p interval i tmp vec = Detail.tailLoop mean p interval i tmp vec
  | [], _, _, _, _ => rfl
  | v :: vec, tmp, i, hlen, htotal => by
    have hsplit : tmp ++ v :: vec = (tmp ++ [v]) ++ vec := by simp
    rw [hsplit] at hlen htotal
    have hrest := tailLoop_eq interval vec (tmp ++ [v]) (i + 1) hlen htotal
    rw [List.length_append] at hlen
    rw [total_append] at htotal
    have hwindow := summary_eq hp (show tmp ++ [v] ≠ [] by simp) (by omega) (by omega)
    have hnext := tailLoop_eq interval vec [] (i + 1) (by rw [List.nil_append]; omega) (by rw [List.nil_append]; omega)
    simp only [Arithmetic.tailLoop, tailLoop_cons, hrest, hnext, hwindow]

section
variable {vec : List UInt64} (hlen : vec.length ≤ 2 ^ 39) (htotal : total vec < 2 ^ 53)
include hlen htotal

theorem tailLatencyHandlers_eq (name : Text) (interval : UInt64) : ∀ (ps : List ℚ) (fs : Files),
    (∀ p ∈ ps, p ∈ percents) →
    arithmetic.tailLatencyHandlers avg name vec interval ps fs = Detail.tailLatencyHandlers mean name vec interval ps fs
  | [], _, _ => rfl
  | p :: ps, fs, hps => by
    have hp := hps p List.mem_cons_self
    have hrest := fun fs' => tailLatencyHandlers_eq name interval ps fs' fun _ hp' => hps _ (List.mem_cons_of_mem p hp')
    simp only [Arithmetic.tailLatencyHandlers, Arithmetic.tailLatencyHandler, tailLatencyHandlers_cons,
      tailLatencyHandler_def, hrest, tailLoop_eq hp interval vec [] 0 hlen htotal, newName_eq hp]

omit htotal in
theorem getTailLatency_eq {p : ℚ} (hp : p ∈ reported) :
    arithmetic.getTailLatency vec p = Detail.getTailLatency vec p := by
  have hindex : arithmetic.index p vec.length = tailIndex p vec.length := index_eq hp hlen
  rw [getTailLatency_def, Arithmetic.getTailLatency, hindex]

end

end InDouble

/-- **Nothing is lost in `double`.** For a file of at most `2 ^ 39` samples with a sum
below `2 ^ 53`, the files and the lines of `detail_handler` are those of exact
arithmetic, with the average of each window without its fraction. -/
theorem double_exact {fs : Files} {name : Text} (hlen : (readFromFile fs name).length ≤ 2 ^ 39)
    (htotal : total (readFromFile fs name) < 2 ^ 53) (interval : Int) :
    InDouble.detailHandler fs name interval = detailHandler mean fs name interval := by
  have htails : reported.mapM (InDouble.arithmetic.getTailLatency ((readFromFile fs name).mergeSort (· ≤ ·))) =
      reported.mapM (getTailLatency ((readFromFile fs name).mergeSort (· ≤ ·))) :=
    mapM_congr fun p hp => InDouble.getTailLatency_eq (by rwa [List.length_mergeSort]) hp
  have hwindows := InDouble.tailLatencyHandlers_eq hlen htotal name (UInt64.ofInt interval) percents fs fun _ hp => hp
  unfold reported at htails
  simp only [InDouble.detailHandler, Arithmetic.detailHandler, detailHandler_def, hwindows, htails]

theorem double_exact_two_samples :
    readFromFile (single ['a'] ['5', '\n', '8', '\n']) ['a'] = [5, 8] ∧
      InDouble.detailHandler (single ['a'] ['5', '\n', '8', '\n']) ['a'] 2 =
        detailHandler mean (single ['a'] ['5', '\n', '8', '\n']) ['a'] 2 := by
  have hread : readFromFile (single ['a'] ['5', '\n', '8', '\n']) ['a'] = [5, 8] := by decide +kernel
  exact ⟨hread, double_exact (by rw [hread]; decide) (by rw [hread]; decide) 2⟩

end IoTester.Detail

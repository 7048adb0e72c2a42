import IoTester.Lib.Rounding
import IoTester.TailSpdkSound

/-!
# The share of reads in `double`

`atof` rounds the ratio that the user has written, and the product with the depth
is rounded once more before its fraction is dropped. Options range over all
rational ratios, so the computation in `double` is that of other options, whose
exact product is the rounded one.
-/

namespace IoTester.TailSpdk

open Lib

/-- The options of the program for a ratio as it is written. The conversion of the
depth to `double` is exact. -/
def WorkerOptions.inDouble (o : WorkerOptions) : WorkerOptions :=
  { o with readRatio := fl 53 (fl 53 o.readRatio * o.ioDepth) / o.ioDepth }

theorem numRead_eq_floor {o : WorkerOptions} (h : 0 ≤ o.readRatio * o.ioDepth) :
    o.numRead = ⌊o.readRatio * o.ioDepth⌋ := by
  have hnum : 0 ≤ (o.readRatio * o.ioDepth).num := Rat.num_nonneg.mpr h
  rw [WorkerOptions.numRead, Rat.floor_def', Int.tdiv_eq_ediv_of_nonneg hnum]

/-! ## One product -/

section
variable {r : ℚ} (h0 : 0 ≤ r) (h1 : r ≤ 1) {d : ℕ} (hd : d ≤ 64)
include h0 h1 hd

theorem product_range : 0 ≤ fl 53 (fl 53 r * d) ∧ fl 53 (fl 53 r * d) ≤ d := by
  have hd' : (d : ℚ) ≤ 64 := by exact_mod_cast hd
  have hr0 : 0 ≤ fl 53 r := fl_nonneg h0 (lt_of_le_of_lt h1 (by norm_num))
  have hr1 : fl 53 r ≤ 1 := by
    have hone := fl_le (p := 53) (k := 1) h0 (by norm_num) (by rwa [Nat.cast_one])
    rwa [Nat.cast_one] at hone
  have hx0 : 0 ≤ fl 53 r * d := mul_nonneg hr0 (Nat.cast_nonneg d)
  have hx1 : fl 53 r * d ≤ d := mul_le_of_le_one_left (Nat.cast_nonneg d) hr1
  exact ⟨fl_nonneg hx0 (by linarith), fl_le hx0 (by omega) hx1⟩

omit hd in
theorem product_error : |fl 53 (fl 53 r * d) - r * d| ≤ d / 2 ^ 51 := by
  have hwithin : Within 53 2 (fl 53 (fl 53 r * d)) (r * d) :=
    ((Within.refl h0).fl.mul (Within.refl (Nat.cast_nonneg d))).fl
  have hle : r * d ≤ d := mul_le_of_le_one_left (Nat.cast_nonneg d) h1
  refine le_trans (hwithin.abs_sub_le (by norm_num)) ?_
  norm_num
  linarith

end

/-- Two numbers whose difference is small have the same integer part, or lie on two
sides of an integer. -/
theorem floor_eq_or {x y e : ℚ} (h : |x - y| ≤ e) (he : e < 1) :
    ⌊x⌋ = ⌊y⌋ ∨ ∃ k : ℤ, |y - k| ≤ e ∧ (⌊y⌋ = k ∧ ⌊x⌋ = k - 1 ∨ ⌊y⌋ = k - 1 ∧ ⌊x⌋ = k) := by
  obtain ⟨hbelow, habove⟩ := abs_le.mp h
  rcases lt_trichotomy ⌊x⌋ ⌊y⌋ with hlt | heq | hgt
  · have hx : x < ⌊y⌋ := Int.floor_lt.mp hlt
    have hy := Int.floor_le y
    have hnext : ⌊y⌋ - 1 ≤ ⌊x⌋ := by
      rw [Int.le_floor]
      push_cast
      linarith
    refine .inr ⟨⌊y⌋, ?_, .inl ⟨rfl, by omega⟩⟩
    rw [abs_of_nonneg (by linarith)]
    linarith
  · exact .inl heq
  · have hy : y < ⌊x⌋ := Int.floor_lt.mp hgt
    have hx := Int.floor_le x
    have hnext : ⌊x⌋ - 1 ≤ ⌊y⌋ := by
      rw [Int.le_floor]
      push_cast
      linarith
    refine .inr ⟨⌊x⌋, ?_, .inr ⟨by omega, rfl⟩⟩
    rw [abs_of_nonpos (by linarith)]
    linarith

/-! ## The options of the program -/

theorem product_inDouble (o : WorkerOptions) :
    o.inDouble.readRatio * o.inDouble.ioDepth = fl 53 (fl 53 o.readRatio * o.ioDepth) := by
  -- without requests no ratio has another product
  by_cases hzero : (o.ioDepth : ℚ) = 0
  · simp [WorkerOptions.inDouble, hzero]
  · exact div_mul_cancel₀ _ hzero

/-- Written with two decimals, a ratio whose product with the depth is an integer is
lost in one case. -/
theorem hundredths : ∀ h < 101, ∀ d < 65, 100 ∣ h * d →
    (⌊fl 53 (fl 53 ((h : ℕ) / 100) * (d : ℕ))⌋ ≠ ((h * d / 100 : ℕ) : ℤ) ↔ h = 58 ∧ d = 50) := by
  decide +kernel

/-- Any other product of two decimals is too far from an integer to be lost. -/
theorem dvd_of_near {h d : ℕ} (hd : d ≤ 64) {k : ℤ} (hnear : |(h / 100 : ℚ) * d - k| ≤ d / 2 ^ 51) : 100 ∣ h * d := by
  have hd' : (d : ℚ) ≤ 64 := by exact_mod_cast hd
  obtain ⟨hlo, hhi⟩ := abs_le.mp hnear
  norm_num at hlo hhi
  have hlt : ((h * d : ℕ) - 100 * k : ℚ) < 1 := by
    push_cast
    linarith
  have hgt : (-1 : ℚ) < (h * d : ℕ) - 100 * k := by
    push_cast
    linarith
  have hlt' : ((h * d : ℕ) : ℤ) - 100 * k < 1 := by exact_mod_cast hlt
  have hgt' : -1 < ((h * d : ℕ) : ℤ) - 100 * k := by exact_mod_cast hgt
  omega

/-- **The share of reads.** For a ratio between zero and one and a depth that fits the
control blocks, the numbers of reads and writes add up to the depth and neither
is negative. The reads are the integer part of the exact product, unless that is
within `depth / 2 ^ 51` of an integer; then they may be on the other side of it.
Of the ratios with two decimals this happens to `0.58` at a depth of `50`. -/
theorem ratio_in_double (o : WorkerOptions) (h0 : 0 ≤ o.readRatio) (h1 : o.readRatio ≤ 1) (hd0 : 0 ≤ o.ioDepth)
    (hd64 : o.ioDepth ≤ 64) :
    o.inDouble.Fits ∧
    (o.inDouble.numRead = o.numRead ∨ ∃ k : ℤ, |o.readRatio * o.ioDepth - k| ≤ o.ioDepth / 2 ^ 51 ∧
      (o.numRead = k ∧ o.inDouble.numRead = k - 1 ∨ o.numRead = k - 1 ∧ o.inDouble.numRead = k)) ∧
    ∀ h : ℕ, h ≤ 100 → o.readRatio = h / 100 → (o.inDouble.numRead ≠ o.numRead ↔ h = 58 ∧ o.ioDepth = 50) := by
  obtain ⟨d, hdepth⟩ := Int.eq_ofNat_of_zero_le hd0
  have hd : d ≤ 64 := by omega
  have hcast : (o.ioDepth : ℚ) = d := by rw [hdepth, Int.cast_natCast]
  obtain ⟨hz0, hz1⟩ := product_range h0 h1 hd
  have herr := product_error h0 h1 (d := d)
  have hreads : o.numRead = ⌊o.readRatio * d⌋ := by
    rw [← hcast]
    exact numRead_eq_floor (by rw [hcast]; positivity)
  have hreads' : o.inDouble.numRead = ⌊fl 53 (fl 53 o.readRatio * d)⌋ := by
    have hproduct := product_inDouble o
    rw [hcast] at hproduct
    rw [numRead_eq_floor (by rw [hproduct]; exact hz0), hproduct]
  have hfits : o.inDouble.Fits := by
    refine ⟨?_, ?_, ?_⟩
    · rw [hreads']
      exact Int.floor_nonneg.mpr hz0
    · rw [hreads', show o.inDouble.ioDepth = d from hdepth]
      exact Int.floor_le_iff.mpr (lt_of_le_of_lt hz1 (by simp))
    · exact hd64
  have heither : o.inDouble.numRead = o.numRead ∨ ∃ k : ℤ, |o.readRatio * d - k| ≤ d / 2 ^ 51 ∧
      (o.numRead = k ∧ o.inDouble.numRead = k - 1 ∨ o.numRead = k - 1 ∧ o.inDouble.numRead = k) := by
    rw [hreads, hreads']
    refine floor_eq_or herr ?_
    have hd' : (d : ℚ) ≤ 64 := by exact_mod_cast hd
    norm_num
    linarith
  rw [hcast]
  refine ⟨hfits, heither, fun h hh hratio => ?_⟩
  rw [hratio] at hreads hreads' heither
  by_cases hdvd : 100 ∣ h * d
  · have hfloor : ⌊(h / 100 : ℚ) * d⌋ = ((h * d / 100 : ℕ) : ℤ) := by
      obtain ⟨k, hk⟩ := hdvd
      have hexact : (h / 100 : ℚ) * d = k := by
        have hcast : ((h * d : ℕ) : ℚ) = (100 * k : ℕ) := congrArg _ hk
        push_cast at hcast
        linarith
      rw [hexact, Int.floor_natCast, hk, Nat.mul_div_cancel_left k (by norm_num)]
    rw [hreads, hreads', hfloor, hundredths h (by omega) d (by omega) hdvd, hdepth]
    exact and_congr_right fun _ => by omega
  · refine iff_of_false (fun hne => ?_) (fun heq => ?_)
    · rcases heither with heq | ⟨k, hnear, _⟩
      · exact hne heq
      · exact hdvd (dvd_of_near hd hnear)
    · obtain ⟨rfl, hdepth'⟩ := heq
      have : d = 50 := by omega
      exact hdvd (by rw [this]; decide)

theorem ratio_in_double_lost_read :
    ∃ o : WorkerOptions, o.inDouble.Fits ∧ o.readRatio = 58 / 100 ∧ o.ioDepth = 50 ∧ o.inDouble.numRead ≠ o.numRead := by
  have hlost := ratio_in_double ⟨50, 58 / 100, 0, 512, 512, 0⟩ (by norm_num) (by norm_num) (by norm_num) (by norm_num)
  exact ⟨_, hlost.1, rfl, rfl, (hlost.2.2 58 (by norm_num) (by norm_num)).mpr ⟨rfl, rfl⟩⟩

end IoTester.TailSpdk

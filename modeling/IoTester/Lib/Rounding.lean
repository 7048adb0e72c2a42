import Mathlib.Algebra.Order.Ring.Pow
import Mathlib.Data.Int.Log
import Mathlib.Data.Rat.Floor
import Mathlib.Tactic.Linarith
import Mathlib.Tactic.FieldSimp
import Mathlib.Tactic.Positivity
import Mathlib.Tactic.Ring

/-!
# Rounding to a binary precision

`fl p x` is the number with a significand of `p` bits that is nearest to `x`, with
ties to the even significand. There is no bound on exponents: for `p = 53` it is
the result of an IEEE 754 operation on `double` whose exact result is `x`, as long
as that result is neither subnormal nor too large.
-/

namespace Lib

def roundEven (x : ℚ) : ℤ :=
  if x - ⌊x⌋ < 1 / 2 then ⌊x⌋
  else if 1 / 2 < x - ⌊x⌋ then ⌊x⌋ + 1
  else if ⌊x⌋ % 2 = 0 then ⌊x⌋ else ⌊x⌋ + 1

/-- The distance of neighbours among the numbers of `p` bits around `x`. -/
def ulp (p : ℕ) (x : ℚ) : ℚ := 2 ^ (Int.log 2 |x| + 1 - p)

def fl (p : ℕ) (x : ℚ) : ℚ := roundEven (x / ulp p x) * ulp p x

/-! ## The nearest integer -/

theorem abs_roundEven_sub_le (x : ℚ) : |roundEven x - x| ≤ 1 / 2 := by
  have hlo := Int.floor_le x
  have hhi := Int.lt_floor_add_one x
  unfold roundEven
  rw [abs_le]
  split_ifs <;> push_cast <;> constructor <;> linarith

theorem roundEven_eq {x : ℚ} {n : ℤ} (h : |x - n| < 1 / 2) : roundEven x = n := by
  have hround := abs_le.mp (abs_roundEven_sub_le x)
  have hnear := abs_lt.mp h
  have hlt : ((roundEven x - n : ℤ) : ℚ) < 1 := by
    push_cast
    linarith
  have hgt : (-1 : ℚ) < ((roundEven x - n : ℤ) : ℚ) := by
    push_cast
    linarith
  have hlt' : roundEven x - n < 1 := by exact_mod_cast hlt
  have hgt' : -1 < roundEven x - n := by exact_mod_cast hgt
  omega

theorem roundEven_le {x : ℚ} {n : ℤ} (h : x ≤ n) : roundEven x ≤ n := by
  rcases h.eq_or_lt with rfl | h
  · exact (roundEven_eq (by simp)).le
  · have hfloor : ⌊x⌋ + 1 ≤ n := Int.floor_lt.mpr h
    unfold roundEven
    split_ifs <;> omega

theorem le_roundEven {x : ℚ} {n : ℤ} (h : n ≤ x) : n ≤ roundEven x := by
  have hfloor : n ≤ ⌊x⌋ := Int.le_floor.mpr h
  unfold roundEven
  split_ifs <;> omega

/-! ## One rounding -/

section
variable {p : ℕ} {x : ℚ}

theorem ulp_pos (p : ℕ) (x : ℚ) : 0 < ulp p x := zpow_pos (by norm_num) _

theorem ulp_le (hx : x ≠ 0) : ulp p x * 2 ^ p ≤ 2 * |x| := by
  have hlog : (2 : ℚ) ^ Int.log 2 |x| ≤ |x| := by
    exact_mod_cast Int.zpow_log_le_self (by norm_num) (abs_pos.mpr hx)
  have hulp : ulp p x * 2 ^ p = 2 ^ Int.log 2 |x| * 2 := by
    rw [ulp, ← zpow_natCast, ← zpow_add₀ (by norm_num), sub_add_cancel, zpow_add_one₀ (by norm_num)]
  linarith

theorem lt_ulp (p : ℕ) (x : ℚ) : |x| < ulp p x * 2 ^ p := by
  have hlog : |x| < (2 : ℚ) ^ (Int.log 2 |x| + 1) := by
    exact_mod_cast Int.lt_zpow_succ_log_self (by norm_num) |x|
  rwa [ulp, ← zpow_natCast, ← zpow_add₀ (by norm_num), sub_add_cancel]

/-- An integer is a multiple of the distance of neighbours that is at most one. -/
theorem exists_mul_ulp (hx : x ≠ 0) (hlt : |x| < 2 ^ p) (k : ℤ) : ∃ m : ℤ, (k : ℚ) = m * ulp p x := by
  have hlog : Int.log 2 |x| < p := by
    refine (Int.lt_zpow_iff_log_lt (by norm_num) (abs_pos.mpr hx)).mp ?_
    exact_mod_cast hlt
  obtain ⟨j, hj⟩ := Int.eq_ofNat_of_zero_le (show 0 ≤ (p : ℤ) - (Int.log 2 |x| + 1) by omega)
  refine ⟨k * 2 ^ j, ?_⟩
  have hulp : ulp p x = (2 ^ j)⁻¹ := by
    rw [ulp, show Int.log 2 |x| + 1 - p = -(j : ℤ) by omega, zpow_neg, zpow_natCast]
  rw [hulp]
  push_cast
  field_simp

@[simp] theorem fl_zero : fl p 0 = 0 := by
  have hround : roundEven 0 = 0 := roundEven_eq (by simp)
  rw [fl, zero_div, hround, Int.cast_zero, zero_mul]

theorem abs_fl_sub_le (p : ℕ) (x : ℚ) : |fl p x - x| ≤ |x| / 2 ^ p := by
  by_cases hx : x = 0
  · simp [hx]
  have hulp := ulp_pos p x
  have hround := abs_roundEven_sub_le (x / ulp p x)
  have hfactor : fl p x - x = (roundEven (x / ulp p x) - x / ulp p x) * ulp p x := by
    rw [fl, sub_mul, div_mul_cancel₀ _ hulp.ne']
  rw [hfactor, abs_mul, abs_of_pos hulp, le_div_iff₀ (by positivity)]
  have hle := ulp_le (p := p) hx
  calc |(roundEven (x / ulp p x) : ℚ) - x / ulp p x| * ulp p x * 2 ^ p
      ≤ 1 / 2 * (ulp p x * 2 ^ p) := by
        rw [mul_assoc]
        exact mul_le_mul_of_nonneg_right hround (by positivity)
    _ ≤ |x| := by linarith

theorem fl_le {k : ℕ} (hx : 0 ≤ x) (hk : k < 2 ^ p) (h : x ≤ k) : fl p x ≤ k := by
  rcases hx.eq_or_lt with rfl | hpos
  · simp
  have hulp := ulp_pos p x
  have hlt : |x| < 2 ^ p := by
    rw [abs_of_pos hpos]
    exact lt_of_le_of_lt h (by exact_mod_cast hk)
  obtain ⟨m, hm⟩ := exists_mul_ulp hpos.ne' hlt k
  rw [Int.cast_natCast] at hm
  have hround : roundEven (x / ulp p x) ≤ m := roundEven_le ((div_le_iff₀ hulp).mpr (hm ▸ h))
  rw [fl, hm]
  exact mul_le_mul_of_nonneg_right (by exact_mod_cast hround) hulp.le

theorem le_fl {k : ℕ} (h : k ≤ x) (hlt : x < 2 ^ p) : k ≤ fl p x := by
  rcases (le_trans (Nat.cast_nonneg k) h).eq_or_lt with rfl | hpos
  · simpa using h
  have hulp := ulp_pos p x
  obtain ⟨m, hm⟩ := exists_mul_ulp hpos.ne' (by rwa [abs_of_pos hpos]) k
  rw [Int.cast_natCast] at hm
  have hround : m ≤ roundEven (x / ulp p x) := le_roundEven ((le_div_iff₀ hulp).mpr (hm ▸ h))
  rw [fl, hm]
  exact mul_le_mul_of_nonneg_right (by exact_mod_cast hround) hulp.le

theorem fl_nonneg (hx : 0 ≤ x) (hlt : x < 2 ^ p) : 0 ≤ fl p x := by
  have h := le_fl (k := 0) (by simpa using hx) hlt
  simpa using h

theorem fl_natCast {k : ℕ} (hk : k < 2 ^ p) : fl p k = k :=
  le_antisymm (fl_le (Nat.cast_nonneg k) hk le_rfl) (le_fl le_rfl (by exact_mod_cast hk))

/-- An integer close to `x` is not above the power of two that bounds the numbers
around `x`. -/
theorem le_pow_mul_ulp (hx : 0 < x) {k : ℚ} {m : ℤ} (hm : k = m * ulp p x) (h : |x - k| * (2 ^ p * 2) < k) :
    k ≤ 2 ^ p * ulp p x := by
  have hulp := ulp_pos p x
  have hlt := lt_ulp p x
  rw [abs_of_pos hx] at hlt
  rw [hm]
  refine mul_le_mul_of_nonneg_right ?_ hulp.le
  by_contra hgt
  have hgt : (2 : ℚ) ^ p + 1 ≤ m := by exact_mod_cast not_le.mp hgt
  have hdist : (m - 2 ^ p) * ulp p x ≤ |x - k| := by
    rw [abs_sub_comm]
    refine le_trans ?_ (le_abs_self _)
    rw [hm]
    linarith
  have hmul := mul_le_mul_of_nonneg_right hdist (show (0 : ℚ) ≤ 2 ^ p * 2 by positivity)
  have hlast : (m - 2 ^ p) * (2 ^ p * 2) * ulp p x < m * ulp p x := by linarith
  have hlast := lt_of_mul_lt_mul_right hlast hulp.le
  have hone : (1 : ℚ) ≤ 2 ^ p := one_le_pow₀ (by norm_num)
  nlinarith

/-- A number that is nearer to an integer than half the distance to its lower
neighbour is rounded to the integer. -/
theorem fl_eq_natCast {k : ℕ} (hk : k < 2 ^ p) (h : |x - k| * 2 ^ (p + 1) < k) : fl p x = k := by
  have hkp : (k : ℚ) + 1 ≤ 2 ^ p := by exact_mod_cast hk
  have hpos : 0 < (k : ℚ) := lt_of_le_of_lt (by positivity) h
  have hone : (1 : ℚ) ≤ k := by exact_mod_cast Nat.cast_pos.mp hpos
  rw [pow_succ] at h
  have hnear : |x - k| < 1 / 2 := by
    by_contra hfar
    have := mul_le_mul_of_nonneg_right (not_lt.mp hfar) (show (0 : ℚ) ≤ 2 ^ p * 2 by positivity)
    linarith
  obtain ⟨hlo, hhi⟩ := abs_lt.mp hnear
  have hx : 0 < x := by linarith
  have hulp := ulp_pos p x
  obtain ⟨m, hm⟩ := exists_mul_ulp hx.ne' (show |x| < 2 ^ p by rw [abs_of_pos hx]; linarith) k
  rw [Int.cast_natCast] at hm
  have hround : roundEven (x / ulp p x) = m := by
    apply roundEven_eq
    have hfactor : x / ulp p x - m = (x - k) / ulp p x := by
      rw [hm, sub_div, mul_div_cancel_right₀ _ hulp.ne']
    rw [hfactor, abs_div, abs_of_pos hulp, div_lt_iff₀ hulp]
    have hle := le_pow_mul_ulp hx hm h
    have hlast : |x - k| * 2 * 2 ^ p < ulp p x * 2 ^ p := by linarith
    have hlast := lt_of_mul_lt_mul_right hlast (by positivity)
    linarith
  rw [fl, hround, hm]

theorem floor_fl {k : ℕ} (hk : k ≤ x) (hlt : x < 2 ^ p) (h : x + x / 2 ^ p < k + 1) : ⌊fl p x⌋₊ = k := by
  have hx : 0 ≤ x := le_trans (Nat.cast_nonneg k) hk
  have herr := abs_le.mp (abs_fl_sub_le p x)
  rw [abs_of_nonneg hx] at herr
  rw [Nat.floor_eq_iff (fl_nonneg hx hlt)]
  exact ⟨le_fl hk hlt, by linarith⟩

end

/-! ## Counting roundings -/

/-- `x` comes from `y` by at most `n` relative errors of half a unit in the last
of `p` places. -/
structure Within (p n : ℕ) (x y : ℚ) : Prop where
  nonneg : 0 ≤ x
  exact_nonneg : 0 ≤ y
  lower : (1 - 1 / 2 ^ p) ^ n * y ≤ x
  upper : (1 - 1 / 2 ^ p) ^ n * x ≤ y

theorem keep_nonneg (p : ℕ) : (0 : ℚ) ≤ 1 - 1 / 2 ^ p := by
  rw [sub_nonneg, div_le_one (by positivity)]
  exact one_le_pow₀ (by norm_num)

theorem keep_le_one (p : ℕ) : (1 - 1 / 2 ^ p : ℚ) ≤ 1 := by
  rw [sub_le_self_iff]
  positivity

namespace Within

variable {p n m : ℕ} {x y x' y' : ℚ}

theorem refl (h : 0 ≤ x) : Within p 0 x x := ⟨h, h, by simp, by simp⟩

theorem fl (h : Within p n x y) : Within p (n + 1) (fl p x) y := by
  have herr := abs_le.mp (abs_fl_sub_le p x)
  rw [abs_of_nonneg h.nonneg] at herr
  have hkeep := keep_nonneg p
  have hlower : (1 - 1 / 2 ^ p) * x ≤ Lib.fl p x := by
    rw [sub_mul, one_mul, one_div_mul_eq_div]
    linarith
  have hupper : (1 - 1 / 2 ^ p) * Lib.fl p x ≤ x := by
    calc (1 - 1 / 2 ^ p) * Lib.fl p x ≤ (1 - 1 / 2 ^ p) * ((1 + 1 / 2 ^ p) * x) := by
          refine mul_le_mul_of_nonneg_left ?_ hkeep
          rw [add_mul, one_mul, one_div_mul_eq_div]
          linarith
      _ = x - (1 / 2 ^ p) ^ 2 * x := by ring
      _ ≤ x := sub_le_self _ (mul_nonneg (by positivity) h.nonneg)
  refine ⟨le_trans (mul_nonneg hkeep h.nonneg) hlower, h.exact_nonneg, ?_, ?_⟩
  · calc (1 - 1 / 2 ^ p) ^ (n + 1) * y = (1 - 1 / 2 ^ p) * ((1 - 1 / 2 ^ p) ^ n * y) := by ring
      _ ≤ (1 - 1 / 2 ^ p) * x := mul_le_mul_of_nonneg_left h.lower hkeep
      _ ≤ Lib.fl p x := hlower
  · calc (1 - 1 / 2 ^ p) ^ (n + 1) * Lib.fl p x = (1 - 1 / 2 ^ p) ^ n * ((1 - 1 / 2 ^ p) * Lib.fl p x) := by ring
      _ ≤ (1 - 1 / 2 ^ p) ^ n * x := mul_le_mul_of_nonneg_left hupper (pow_nonneg hkeep n)
      _ ≤ y := h.upper

theorem mono (h : Within p n x y) (hnm : n ≤ m) : Within p m x y := by
  have hpow := pow_le_pow_of_le_one (keep_nonneg p) (keep_le_one p) hnm
  exact ⟨h.nonneg, h.exact_nonneg, le_trans (mul_le_mul_of_nonneg_right hpow h.exact_nonneg) h.lower,
    le_trans (mul_le_mul_of_nonneg_right hpow h.nonneg) h.upper⟩

theorem add (h : Within p n x y) (h' : Within p n x' y') : Within p n (x + x') (y + y') := by
  refine ⟨add_nonneg h.nonneg h'.nonneg, add_nonneg h.exact_nonneg h'.exact_nonneg, ?_, ?_⟩
  · rw [mul_add]
    exact add_le_add h.lower h'.lower
  · rw [mul_add]
    exact add_le_add h.upper h'.upper

theorem mul (h : Within p n x y) (h' : Within p m x' y') : Within p (n + m) (x * x') (y * y') := by
  have hkeep := keep_nonneg p
  refine ⟨mul_nonneg h.nonneg h'.nonneg, mul_nonneg h.exact_nonneg h'.exact_nonneg, ?_, ?_⟩
  · rw [pow_add, mul_mul_mul_comm]
    exact mul_le_mul h.lower h'.lower (mul_nonneg (pow_nonneg hkeep m) h'.exact_nonneg) h.nonneg
  · rw [pow_add, mul_mul_mul_comm]
    exact mul_le_mul h.upper h'.upper (mul_nonneg (pow_nonneg hkeep m) h'.nonneg) h.exact_nonneg

theorem inv (h : Within p n x y) (hx : 0 < x) (hy : 0 < y) : Within p n x⁻¹ y⁻¹ := by
  refine ⟨inv_nonneg.mpr h.nonneg, inv_nonneg.mpr h.exact_nonneg, ?_, ?_⟩
  · rw [← div_eq_mul_inv, div_le_iff₀ hy, ← div_eq_inv_mul, le_div_iff₀ hx]
    exact h.upper
  · rw [← div_eq_mul_inv, div_le_iff₀ hx, ← div_eq_inv_mul, le_div_iff₀ hy]
    exact h.lower

theorem div (h : Within p n x y) (h' : Within p m x' y') (hx : 0 < x') (hy : 0 < y') :
    Within p (n + m) (x / x') (y / y') := by
  rw [div_eq_mul_inv, div_eq_mul_inv]
  exact h.mul (h'.inv hx hy)

theorem pos (h : Within p n x y) (hp : 0 < p) (hy : 0 < y) : 0 < x := by
  have hkeep : (0 : ℚ) < 1 - 1 / 2 ^ p := by
    rw [sub_pos, div_lt_one (by positivity)]
    exact one_lt_pow₀ (by norm_num) hp.ne'
  exact lt_of_lt_of_le (mul_pos (pow_pos hkeep n) hy) h.lower

theorem abs_sub_le (h : Within p n x y) (hn : 2 * n ≤ 2 ^ p) : |x - y| ≤ y * (2 * n / 2 ^ p) := by
  have hbernoulli : (1 : ℚ) - n / 2 ^ p ≤ (1 - 1 / 2 ^ p) ^ n := by
    have hle := one_add_mul_le_pow (a := -(1 / 2 ^ p : ℚ)) (by linarith [keep_nonneg p]) n
    rw [← sub_eq_add_neg] at hle
    refine le_trans (le_of_eq ?_) hle
    ring
  have hhalf : (n : ℚ) / 2 ^ p ≤ 1 / 2 := by
    rw [div_le_div_iff₀ (by positivity) (by norm_num)]
    have : (2 * n : ℚ) ≤ 2 ^ p := by exact_mod_cast hn
    linarith
  have hpos : (0 : ℚ) ≤ n / 2 ^ p := by positivity
  have hlower := le_trans (mul_le_mul_of_nonneg_right hbernoulli h.exact_nonneg) h.lower
  have hupper := le_trans (mul_le_mul_of_nonneg_right hbernoulli h.nonneg) h.upper
  rw [mul_div_assoc]
  set e : ℚ := n / 2 ^ p
  have hx : x ≤ y + y * (2 * e) := by
    have hfactor : x ≤ (1 + 2 * e) * ((1 - e) * x) := by
      have : 0 ≤ e * (1 - 2 * e) * x := mul_nonneg (mul_nonneg hpos (by linarith)) h.nonneg
      linarith
    refine le_trans hfactor (le_trans (mul_le_mul_of_nonneg_left hupper (by linarith)) (le_of_eq ?_))
    ring
  have hye : 0 ≤ y * e := mul_nonneg h.exact_nonneg hpos
  rw [abs_le]
  constructor <;> linarith

end Within

end Lib

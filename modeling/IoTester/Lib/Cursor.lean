/-!
# Cyclic cursors

A cursor starts at `0`, moves by a fixed stride in the arithmetic of a machine
word, and is sent back to `0` by the move that reaches its bound. The test
looks at the new position only, so it is the bound, and not the length of
what is read at a position, that decides where a lap ends.
-/

namespace Lib

structure Cursor where
  stride : Nat
  bound : Nat
  word : Nat
  deriving Repr, DecidableEq

namespace Cursor

def next (c : Cursor) (p : Nat) : Nat :=
  let q := (p + c.stride) % c.word
  if c.bound ≤ q then 0 else q

def pos (c : Cursor) : Nat → Nat
  | 0 => 0
  | k + 1 => c.next (c.pos k)

/-- The number of multiples of the stride below the bound. -/
def lap (c : Cursor) : Nat := (c.bound + c.stride - 1) / c.stride

section
variable (c : Cursor)

@[simp] theorem pos_zero : c.pos 0 = 0 := rfl

theorem pos_succ (k : Nat) : c.pos (k + 1) = c.next (c.pos k) := rfl

theorem next_lt (hb : 0 < c.bound) (p : Nat) : c.next p < c.bound := by
  unfold next
  simp only
  split <;> omega

theorem pos_lt (hb : 0 < c.bound) (k : Nat) : c.pos k < c.bound := by
  cases k with
  | zero => exact hb
  | succ k => exact c.next_lt hb _

theorem pos_eq_zero_or_lt (k : Nat) : c.pos k = 0 ∨ c.pos k < c.bound := by
  rcases Nat.eq_zero_or_pos c.bound with hb | hb
  · cases k with
    | zero => exact .inl rfl
    | succ k => exact .inl (if_pos (by rw [hb]; exact Nat.zero_le _))
  · exact .inr (c.pos_lt hb k)

theorem next_of_lt {p : Nat} (h : p + c.stride < c.bound) (hw : c.bound ≤ c.word) :
    c.next p = p + c.stride := by
  unfold next
  rw [Nat.mod_eq_of_lt (by omega)]
  simp only [Nat.not_le.mpr h, ite_false]

theorem pos_add (hw : c.bound ≤ c.word) (m : Nat) :
    ∀ k, c.pos m + k * c.stride < c.bound → c.pos (m + k) = c.pos m + k * c.stride
  | 0, _ => by simp
  | k + 1, h => by
    rw [Nat.add_mul, Nat.one_mul, ← Nat.add_assoc] at h
    rw [← Nat.add_assoc, pos_succ, pos_add hw m k (by omega), c.next_of_lt h hw, Nat.add_mul, Nat.one_mul,
      Nat.add_assoc]

theorem pos_first_lap (hw : c.bound ≤ c.word) {k : Nat} (h : k * c.stride < c.bound) :
    c.pos k = k * c.stride := by
  have := c.pos_add hw 0 k (by simpa using h)
  simpa using this

/-! ## Laps -/

theorem lt_lap_iff (hs : 0 < c.stride) (r : Nat) : r < c.lap ↔ r * c.stride < c.bound := by
  unfold lap
  rw [Nat.lt_iff_add_one_le, Nat.le_div_iff_mul_le hs, Nat.add_mul, Nat.one_mul]
  omega

theorem lap_pos (hs : 0 < c.stride) (hb : 0 < c.bound) : 0 < c.lap :=
  (c.lt_lap_iff hs 0).mpr (by simpa using hb)

theorem bound_le_lap_mul (hs : 0 < c.stride) : c.bound ≤ c.lap * c.stride := by
  have := mt (c.lt_lap_iff hs c.lap).mpr (Nat.lt_irrefl _)
  omega

theorem lap_fits_of_dvd (hs : 0 < c.stride) (h : c.stride ∣ c.word) (hb : c.bound ≤ c.word) :
    c.lap * c.stride ≤ c.word := by
  obtain ⟨m, hm⟩ := h
  rw [hm, Nat.mul_comm]
  refine Nat.mul_le_mul_left _ ?_
  have : ¬ m < c.lap := by
    rw [c.lt_lap_iff hs, Nat.mul_comm, ← hm]; omega
  omega

theorem lap_fits_of_add_le (h : c.bound + c.stride ≤ c.word) : c.lap * c.stride ≤ c.word :=
  Nat.le_trans (Nat.div_mul_le_self _ _) (by omega)

/-- A lap that passes the end of the word leaves the cursor where the word wraps. -/
theorem pos_lap_of_overflow (hs : 0 < c.stride) (hw : c.bound ≤ c.word) {r : Nat}
    (hr : c.lap * c.stride = c.word + r) (hlt : r < c.bound) : c.pos c.lap = r := by
  have hl := c.lap_pos hs (by omega)
  obtain ⟨m, hm⟩ : ∃ m, c.lap = m + 1 := ⟨c.lap - 1, by omega⟩
  have hlast : c.pos m = m * c.stride := c.pos_first_lap hw ((c.lt_lap_iff hs m).mp (by omega))
  rw [hm, Nat.add_mul, Nat.one_mul] at hr
  rw [hm, pos_succ, hlast]
  unfold next
  rw [hr, Nat.add_mod_left, Nat.mod_eq_of_lt (by omega)]
  exact if_neg (by omega)

/-- **Closed form.** When a lap fits the word, the cursor runs through the
multiples of its stride below the bound, over and over. -/
theorem pos_eq (hs : 0 < c.stride) (hb : 0 < c.bound) (hw : c.lap * c.stride ≤ c.word) (k : Nat) :
    c.pos k = k % c.lap * c.stride := by
  have hl := c.lap_pos hs hb
  have hbw : c.bound ≤ c.word := Nat.le_trans (c.bound_le_lap_mul hs) hw
  induction k with
  | zero => simp
  | succ k ih =>
    rw [pos_succ, ih]
    rcases Nat.lt_or_ge (k % c.lap + 1) c.lap with h | h
    · have hq := (c.lt_lap_iff hs _).mp h
      rw [Nat.add_mul, Nat.one_mul] at hq
      rw [c.next_of_lt hq hbw, Nat.add_mod, Nat.mod_eq_of_lt (show 1 < c.lap by omega), Nat.mod_eq_of_lt h,
        Nat.add_mul, Nat.one_mul]
    · -- the last position of the lap: the move meets the bound or wraps to zero
      have hk : k % c.lap + 1 = c.lap := by have := Nat.mod_lt k hl; omega
      have hm : (k + 1) % c.lap = 0 := by
        rw [← Nat.mod_add_mod, hk, Nat.mod_self]
      have hmove : k % c.lap * c.stride + c.stride = c.lap * c.stride := by
        rw [← hk, Nat.add_mul, Nat.one_mul, hk]
      rw [hm, Nat.zero_mul]
      unfold next
      rw [hmove]
      simp only
      split
      · rfl
      · rename_i hne
        rcases Nat.lt_or_ge (c.lap * c.stride) c.word with hlt | hge
        · rw [Nat.mod_eq_of_lt hlt] at hne
          exact absurd (c.bound_le_lap_mul hs) hne
        · rw [show c.lap * c.stride = c.word by omega, Nat.mod_self]

theorem pos_dvd (hs : 0 < c.stride) (hb : 0 < c.bound) (hw : c.lap * c.stride ≤ c.word) (k : Nat) :
    c.stride ∣ c.pos k := by
  rw [c.pos_eq hs hb hw]; exact Nat.dvd_mul_left _ _

theorem pos_add_lap (hs : 0 < c.stride) (hb : 0 < c.bound) (hw : c.lap * c.stride ≤ c.word) (k : Nat) :
    c.pos (k + c.lap) = c.pos k := by
  rw [c.pos_eq hs hb hw, c.pos_eq hs hb hw, Nat.add_mod_right]

/-- Positions less than a lap apart differ. -/
theorem pos_ne (hs : 0 < c.stride) (hb : 0 < c.bound) (hw : c.lap * c.stride ≤ c.word) {i j : Nat} (hij : i < j)
    (hj : j < i + c.lap) : c.pos i ≠ c.pos j := by
  intro h
  rw [c.pos_eq hs hb hw, c.pos_eq hs hb hw] at h
  have hmod : j % c.lap = i % c.lap := (Nat.eq_of_mul_eq_mul_right hs h).symm
  have hzero := Nat.sub_mod_eq_zero_of_mod_eq hmod
  rw [Nat.mod_eq_of_lt (by omega)] at hzero
  omega

end

end Cursor

end Lib

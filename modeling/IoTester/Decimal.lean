import IoTester.Basic

/-!
# Decimal numbers

What the programs print with `%d`, `%zu` and `<<`, and read back.
-/

namespace IoTester

theorem isDigit_of_mem_decN {n : Nat} {c : Char} (h : c ∈ decN n) : c.isDigit = true :=
  Nat.isDigit_of_mem_toDigits (by decide) (by decide) h

theorem digitsValue_decN (n : Nat) : digitsValue (decN n) = n := Nat.ofDigitChars_ten_toDigits

theorem decN_inj {m n : Nat} (h : decN m = decN n) : m = n := by
  rw [← digitsValue_decN m, h, digitsValue_decN]

theorem isDigit_start {c : Char} (h : c.isDigit = true) : isSpace c = false ∧ c ≠ '-' ∧ c ≠ '+' := by
  simp only [Char.isDigit, Bool.and_eq_true, decide_eq_true_eq] at h
  obtain ⟨h1, h2⟩ := h
  have h1 : 48 ≤ c.toNat := UInt32.le_iff_toNat_le.mp h1
  have h2 : c.toNat ≤ 57 := UInt32.le_iff_toNat_le.mp h2
  refine ⟨?_, ?_, ?_⟩
  · simp [isSpace]
    refine ⟨?_, by omega⟩
    rintro rfl
    simp at h1
  · rintro rfl
    simp at h1
  · rintro rfl
    simp at h1

theorem count_newline_decN (n : Nat) : (decN n).count '\n' = 0 := by
  rw [List.count_eq_zero]
  intro h
  have := isDigit_of_mem_decN h
  simp at this

end IoTester

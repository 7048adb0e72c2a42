import IoTester.Basic

/-!
# The buffers of the workers

`posix_memalign` refuses an alignment that is no power of two or no multiple of
the size of a pointer, and it fails where there is no memory. Nothing looks at
its result: a worker without a buffer goes on with a pointer that was never set.

What the allocator finds is not determined by the program. It is an answer from
outside, an address, and all that is known of it is that a process has no
addresses of more than `56` bits.
-/

namespace IoTester

/-- The address that the allocator finds, if it finds one. -/
abbrev Memory := Option UInt64

/-- The alignments that `posix_memalign` takes. -/
def alignment (bs : UInt64) : Bool := bs ≠ 0 ∧ bs &&& (bs - 1) = 0 ∧ bs % 8 = 0

/-- Does `posix_memalign` give a buffer? -/
def posixMemalign (memory : Memory) (align size : UInt64) : Bool :=
  alignment align && memory.any fun p => p ≠ 0 ∧ p % align = 0 ∧ p.toNat + size.toNat ≤ 2 ^ 56

theorem posixMemalign_iff {memory : Memory} {align size : UInt64} : posixMemalign memory align size = true ↔
    alignment align = true ∧ ∃ p, memory = some p ∧ p ≠ 0 ∧ p % align = 0 ∧ p.toNat + size.toNat ≤ 2 ^ 56 := by
  cases memory <;> simp [posixMemalign]

/-- An address that is a multiple of the alignment is no smaller. -/
theorem add_le_of_posixMemalign {memory : Memory} {align size : UInt64} (h : posixMemalign memory align size = true) :
    align.toNat + size.toNat ≤ 2 ^ 56 := by
  obtain ⟨-, p, -, hp, hmod, hend⟩ := posixMemalign_iff.mp h
  have hmod : p.toNat % align.toNat = 0 := by
    rw [← UInt64.toNat_mod, hmod]
    rfl
  have hle := Nat.le_of_dvd (toNat_pos_iff.mpr hp) (Nat.dvd_of_mod_eq_zero hmod)
  omega

theorem pos_of_posixMemalign {memory : Memory} {align size : UInt64} (h : posixMemalign memory align size = true) :
    0 < align.toNat := by
  have halign := (posixMemalign_iff.mp h).1
  simp only [alignment, decide_eq_true_eq] at halign
  exact toNat_pos_iff.mpr halign.1

/-- The requests for which there can be a buffer. -/
theorem exists_posixMemalign_iff {align size : UInt64} :
    (∃ memory, posixMemalign memory align size = true) ↔
      alignment align = true ∧ align.toNat + size.toNat ≤ 2 ^ 56 := by
  constructor
  · rintro ⟨memory, h⟩
    exact ⟨(posixMemalign_iff.mp h).1, add_le_of_posixMemalign h⟩
  · rintro ⟨halign, hfit⟩
    have hne : align ≠ 0 := by
      simp only [alignment, decide_eq_true_eq] at halign
      exact halign.1
    have hmod : align % align = 0 := by
      rw [← UInt64.toNat_inj, UInt64.toNat_mod, Nat.mod_self]
      rfl
    exact ⟨some align, posixMemalign_iff.mpr ⟨halign, align, rfl, hne, hmod, hfit⟩⟩

end IoTester

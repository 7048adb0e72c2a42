import IoTester.Lib.Machine

/-!
# Fair schedules

A schedule gives a label to every moment; a label that is not possible when
its moment comes leaves the state as it is. Under a schedule that comes back
to every label, a machine gets done if it has a rank that no step raises, and
that some label, which stays the one to wait for, lowers.
-/

namespace Lib

section
variable {σ ℓ : Type} (step : σ → ℓ → Option σ)

def play (s : σ) (sched : Nat → ℓ) : Nat → σ
  | 0 => s
  | n + 1 => (step (play s sched n) (sched n)).getD (play s sched n)

def Fair (sched : Nat → ℓ) : Prop := ∀ l n, ∃ m, n ≤ m ∧ sched m = l

/-- What makes a machine get done under every fair schedule. -/
structure Ranking (Inv Done : σ → Prop) where
  rank : σ → Nat
  Helpful : σ → ℓ → Prop
  helpful : ∀ {s}, Inv s → ¬ Done s → ∃ l, Helpful s l
  lowers : ∀ {s l}, Inv s → Helpful s l → ∃ t, step s l = some t ∧ rank t < rank s
  keeps : ∀ {s l t}, Inv s → step s l = some t →
    rank t < rank s ∨ rank t = rank s ∧ ∀ k, Helpful s k → Helpful t k

end

section
variable {σ ℓ : Type} {step : σ → ℓ → Option σ} {s : σ} {sched : Nat → ℓ}

theorem play_reach (n : Nat) : Reach step (fun _ => True) s (play step s sched n) := by
  induction n with
  | zero => exact .refl
  | succ n ih =>
    cases h : step (play step s sched n) (sched n) with
    | none => simpa [play, h] using ih
    | some t => simpa [play, h] using ih.next trivial h

theorem play_of_stuck {n : Nat} (h : ∀ l, step (play step s sched n) l = none) {m : Nat} (hm : n ≤ m) :
    play step s sched m = play step s sched n := by
  obtain ⟨k, rfl⟩ := Nat.exists_eq_add_of_le hm
  induction k with
  | zero => rfl
  | succ k ih => simp [play, ih (Nat.le_add_right n k), h]

section
variable {Inv Done : σ → Prop} (R : Ranking step Inv Done) (hinv : ∀ n, Inv (play step s sched n))
include R hinv

theorem Ranking.lowered : ∀ (k n : Nat), R.Helpful (play step s sched n) (sched (n + k)) →
    ∃ m, R.rank (play step s sched m) < R.rank (play step s sched n)
  | 0, n, h => by
    obtain ⟨t, ht, hlt⟩ := R.lowers (hinv n) h
    rw [Nat.add_zero] at ht
    refine ⟨n + 1, ?_⟩
    simpa [play, ht] using hlt
  | k + 1, n, h => by
    rw [show n + (k + 1) = n + 1 + k by omega] at h
    cases ht : step (play step s sched n) (sched n) with
    | none =>
      have hsame : play step s sched (n + 1) = play step s sched n := by simp [play, ht]
      rw [← hsame] at h ⊢
      exact lowered k (n + 1) h
    | some t =>
      have hnext : play step s sched (n + 1) = t := by simp [play, ht]
      rcases R.keeps (hinv n) ht with hlt | ⟨heq, hkeep⟩
      · exact ⟨n + 1, hnext ▸ hlt⟩
      · rw [← heq, ← hnext]
        exact lowered k (n + 1) (hnext ▸ hkeep _ h)

/-- **Fair schedules get done.** -/
theorem Ranking.eventually (hfair : Fair sched) : ∃ n, Done (play step s sched n) := by
  -- on a bound for the rank, from any moment
  suffices H : ∀ b n, R.rank (play step s sched n) < b → ∃ m, Done (play step s sched m) from
    H _ 0 (Nat.lt_succ_self _)
  intro b
  induction b with
  | zero => intro n hn; omega
  | succ b ih =>
    intro n hn
    by_cases hd : Done (play step s sched n)
    · exact ⟨n, hd⟩
    · obtain ⟨l, hl⟩ := R.helpful (hinv n) hd
      obtain ⟨m, hm, rfl⟩ := hfair l n
      obtain ⟨k, rfl⟩ := Nat.exists_eq_add_of_le hm
      obtain ⟨m, hlt⟩ := R.lowered hinv k n hl
      exact ih m (by omega)

end

end

end Lib

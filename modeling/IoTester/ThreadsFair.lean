import IoTester.ThreadsSound

/-!
# No thread is overtaken twice

While a thread is in its wait loop the other one can leave its own at most
once: to come back it has to give way, and `turn` then stays as it is. This is
a property of the lock that the threads refine.
-/

namespace IoTester.Threads

open Lib (Side Stage Lock)

def Waiting (s : State) (t : Side) : Prop := (s.loc t).pc = .ldFlag ∨ (s.loc t).pc = .ldTurn

instance (s : State) (t : Side) : Decidable (Waiting s t) := inferInstanceAs (Decidable (_ ∨ _))

/-- How often the other thread leaves its wait loop in a run in which `t` stays
in its own: `none` if the run is not possible or `t` is not in the loop all
the time. -/
def overtakes (max : Nat) (t : Side) : State → List Side → Option Nat
  | s, [] => if Waiting s t then some 0 else none
  | s, u :: us =>
    if Waiting s t then do
      let s' ← step max s u
      let n ← overtakes max t s' us
      some (n + if Waiting s t.other ∧ ¬ Waiting s' t.other then 1 else 0)
    else none

theorem waiting_iff {s : State} {t : Side} : Waiting s t ↔ s.lock.stage t = .waiting := by
  unfold Waiting State.lock
  cases hpc : (s.loc t).pc <;> simp [hpc, Pc.stage]

theorem flags_reach {max : Nat} {s : State} (h : Lib.Reach (step max) (fun _ => True) (init max) s) : Flags s :=
  h.invariant (safe_init max).flags (fun _ hs hf => flags_step hf (step_moves hs))

theorem overtakes_waiting {max : Nat} {t : Side} {s : State} {us : List Side} {n : Nat}
    (h : overtakes max t s us = some n) : Waiting s t := by
  cases us <;> by_cases hw : Waiting s t <;> simp_all [overtakes]

theorem passed_le {max : Nat} {s s' : State} {t u : Side} (hf : Flags s) (hs : step max s u = some s')
    (hw : Waiting s t) (hw' : Waiting s' t) :
    (if Waiting s t.other ∧ ¬ Waiting s' t.other then 1 else 0) + s'.lock.mayPass t ≤ s.lock.mayPass t := by
  simp only [waiting_iff] at hw hw' ⊢
  rcases lock_step hf (step_moves hs) with he | hl
  · simp [he]
  · exact hl.passed_le hw hw'

theorem overtakes_le {max : Nat} {t : Side} : ∀ (us : List Side) {s : State} {n : Nat}, Flags s →
    overtakes max t s us = some n → n ≤ s.lock.mayPass t
  | [], s, n, _, h => by
    have hw := overtakes_waiting h
    simp only [overtakes, hw, if_true, Option.some.injEq] at h
    omega
  | u :: us, s, n, hf, h => by
    have hw := overtakes_waiting h
    simp only [overtakes, hw, if_true, Option.bind_eq_bind, Option.bind_eq_some_iff, Option.some.injEq] at h
    obtain ⟨s', hs, m, hm, rfl⟩ := h
    have ih := overtakes_le us (flags_step hf (step_moves hs)) hm
    have hstep := passed_le hf hs hw (overtakes_waiting hm)
    omega

/-- **No thread is overtaken twice.** From any moment at which a thread has done
both stores of its doorway and is in its wait loop, and for as long as it stays
there, the other thread leaves its own wait loop at most once. -/
theorem overtaken_once (max : Nat) {s : State} (h : Lib.Reach (step max) (fun _ => True) (init max) s) (t : Side)
    (us : List Side) {n : Nat} (hn : overtakes max t s us = some n) : n ≤ 1 :=
  Nat.le_trans (overtakes_le us (flags_reach h) hn) (Lock.mayPass_le_one s.lock t)

/-- The bound is met: the right thread comes to the loop second, and the left
one goes first. -/
theorem overtaken_once_met : ∃ s, Lib.Reach (step 200) (fun _ => True) (init 200) s ∧
    ∃ n, overtakes 200 .right s [.left, .left, .right, .left] = some n ∧ 1 ≤ n ∧ n ≤ 1 := by
  obtain ⟨s, hrun, hs⟩ : ∃ s, Lib.Reach (step 200) (fun _ => True) (init 200) s ∧
      decide (overtakes 200 .right s [.left, .left, .right, .left] = some 1) = true :=
    Lib.Reach.of_check [.left, .left, .right, .right] (fun _ _ => trivial) (by decide +kernel)
  have hone := of_decide_eq_true hs
  exact ⟨s, hrun, 1, hone, Nat.le_refl 1, overtaken_once 200 hrun .right _ hone⟩

end IoTester.Threads

import IoTester.ThreadsSound

/-!
# The threads can always return

A thread that is not kept waiting can go on, and what it has left to do gets
less. The lock keeps at most one thread waiting, also when the other one has
returned: its flag is then down. So from every state some run ends with both
threads returned.
-/

namespace IoTester.Threads

open Lib (Side)

/-! ## What is left -/

/-- The steps of a pass, counted down. The two loads of the wait condition
count the same: a thread may go back and forth between them. -/
def Pc.rank : Pc → Nat
  | .clrFlag => 8
  | .setFlag => 7
  | .setTurn => 6
  | .ldFlag | .ldTurn => 5
  | .ldIdx => 4
  | .stData => 3
  | .ldInc => 2
  | .stInc => 1
  | .ret => 0

/-- A store of `arr_ind` takes a thread back to a higher rank, and `i` two
further. -/
def Local.rest (max : Nat) (l : Local) : Nat := 10 * (max - l.i) + l.pc.rank

def State.rest (max : Nat) (s : State) : Nat := (s.loc .left).rest max + (s.loc .right).rest max

section
variable {max : Nat} {s s' : State} {t : Side}

theorem rest_goto {l : Local} (h : l.rest max < (s.loc t).rest max) : (s.goto t l).rest max < s.rest max := by
  cases t <;> simp [State.rest, State.goto, h]

theorem rest_step (hmax : 200 ∣ max) (hc : (s.loc t).Counts max) (hw : (s.loc t).pc.stage ≠ .waiting)
    (hs : Moves max t s s') : s'.rest max < s.rest max := by
  cases hs with
  | setFlag hpc => exact rest_goto (s := { s with flag := _ }) (by simp [Local.rest, hpc, Pc.rank])
  | setTurn hpc => exact rest_goto (s := { s with turn := _ }) (by simp [Local.rest, hpc, Pc.rank])
  | wait pc hwait _ => exact absurd hwait hw
  | pass hwait _ => exact absurd hwait hw
  | ldIdx hpc => exact rest_goto (by simp [Local.rest, hpc, Pc.rank])
  | stData hpc => exact rest_goto (s := { s with data := _ }) (by simp [Local.rest, hpc, Pc.rank])
  | ldInc hpc => exact rest_goto (by simp [Local.rest, hpc, Pc.rank])
  | stInc hpc =>
    refine rest_goto (s := { s with arrInd := _ }) ?_
    have hlt := hc.lt hmax (.inr (.inr (.inr hpc)))
    by_cases hlast : (s.loc t).j + 1 < 100
    · simp only [Local.rest, hpc, hlast, if_true, Pc.rank]
      omega
    · simp only [Local.rest, hpc, hlast, if_false, Pc.rank]
      omega
  | clrFlag hpc =>
    refine rest_goto (s := { s with flag := _ }) ?_
    by_cases hlt : (s.loc t).i < max <;> simp [Local.rest, hpc, hlt, Pc.rank]

/-! ## Going on -/

theorem step_ldFlag (hpc : (s.loc t).pc = .ldFlag) : step max s t = some (s.goto t
    (if s.flag t.other then { s.loc t with pc := .ldTurn } else { s.loc t with pc := .ldIdx, j := 0 })) := by
  rw [step_eq]
  by_cases hf : s.flag t.other <;> simp [thread, hpc, hf]

theorem step_ldTurn (hpc : (s.loc t).pc = .ldTurn) : step max s t = some (s.goto t
    (if s.turn = idx t.other then { s.loc t with pc := .ldFlag } else { s.loc t with pc := .ldIdx, j := 0 })) := by
  rw [step_eq]
  by_cases ht : s.turn = idx t.other <;> simp [thread, hpc, ht]

theorem exists_step (h : (s.loc t).pc ≠ .ret) : ∃ s', step max s t = some s' := by
  cases hpc : (s.loc t).pc with
  | ldFlag => exact ⟨_, step_ldFlag hpc⟩
  | ldTurn => exact ⟨_, step_ldTurn hpc⟩
  | ret => exact absurd hpc h
  | _ => simp [step_eq, thread, hpc]

theorem reach_pass (hw : (s.loc t).pc.stage = .waiting) (hpass : s.flag t.other = false ∨ s.turn ≠ idx t.other) :
    Lib.Reach (step max) (fun _ => True) s (s.goto t { s.loc t with pc := .ldIdx, j := 0 }) := by
  have hloc : ∀ l, (s.goto t l).loc t = l := fun l => Function.update_self ..
  have htwice : ∀ l l', (s.goto t l).goto t l' = s.goto t l' := fun l l' => by simp [State.goto]
  -- a thread that has looked at the condition that holds it back looks at the other one next
  cases hpc : (s.loc t).pc with
  | ldFlag =>
    have hload : step max s t = _ := step_ldFlag hpc
    by_cases hf : s.flag t.other = true
    · have hturn : s.turn ≠ idx t.other := by simpa [hf] using hpass
      rw [if_pos hf] at hload
      refine .next (l := t) (.next .refl trivial hload) trivial ?_
      rw [step_ldTurn (by rw [hloc]), htwice, hloc]
      exact congrArg (fun l => some (s.goto t l)) (if_neg hturn)
    · rw [if_neg hf] at hload
      exact .next .refl trivial hload
  | ldTurn =>
    have hload : step max s t = _ := step_ldTurn hpc
    by_cases hturn : s.turn = idx t.other
    · have hf : s.flag t.other = false := by simpa [hturn] using hpass
      rw [if_pos hturn] at hload
      refine .next (l := t) (.next .refl trivial hload) trivial ?_
      rw [step_ldFlag (by rw [hloc]), htwice, hloc]
      exact congrArg (fun l => some (s.goto t l)) (if_neg (Bool.eq_false_iff.mp hf))
    · rw [if_neg hturn] at hload
      exact .next .refl trivial hload
  | _ => simp [hpc, Pc.stage] at hw

/-- A thread that has not returned goes on, unless it waits and may not pass. -/
theorem goes_on (hmax : 200 ∣ max) (hc : (s.loc t).Counts max) (hret : (s.loc t).pc ≠ .ret)
    (hpass : (s.loc t).pc.stage = .waiting → s.flag t.other = false ∨ s.turn ≠ idx t.other) :
    ∃ s', Lib.Reach (step max) (fun _ => True) s s' ∧ s'.rest max < s.rest max := by
  by_cases hw : (s.loc t).pc.stage = .waiting
  · refine ⟨_, reach_pass hw (hpass hw), rest_goto ?_⟩
    cases hpc : (s.loc t).pc with
    | ldFlag => simp [Local.rest, hpc, Pc.rank]
    | ldTurn => simp [Local.rest, hpc, Pc.rank]
    | _ => simp [hpc, Pc.stage] at hw
  · obtain ⟨s', hs⟩ : ∃ s', step max s t = some s' := exists_step hret
    exact ⟨s', .next .refl trivial hs, rest_step hmax hc hw (step_moves hs)⟩

/-- **Progress.** While a thread has not returned, one of them goes on. -/
theorem progress (hmax : 200 ∣ max) (h : Safe max s) (hret : (s.loc t).pc ≠ .ret) :
    ∃ s', Lib.Reach (step max) (fun _ => True) s s' ∧ s'.rest max < s.rest max := by
  rcases s.lock.pass_or_other t with hpass | ⟨hother, hturn⟩
  · exact goes_on hmax (h.filled.counts t) hret fun _ => h.flags.pass_iff.mp hpass
  · -- the other thread has its flag up, so it has not returned, and it was given way
    have hret' : (s.loc t.other).pc ≠ .ret := fun hpc => hother (congrArg Pc.stage hpc)
    exact goes_on hmax (h.filled.counts t.other) hret' fun _ => h.flags.pass_iff.mp (.inr hturn)

end

/-- **No state is stuck.** Whatever the threads have done so far, some run leads
to a state where both have returned. -/
theorem can_return (max : Nat) (hmax : 200 ∣ max) {s : State}
    (h : Lib.Reach (step max) (fun _ => True) (init max) s) :
    ∃ s', Lib.Reach (step max) (fun _ => True) s s' ∧ ∀ t, (s'.loc t).pc = .ret := by
  refine Lib.Reach.exists_done (State.rest max) (fun _ hs => safe_step hmax hs) (fun s h hd => ?_) (safe_reach hmax h)
  obtain ⟨t, ht⟩ := not_forall.mp hd
  exact progress hmax h ht

/-- The left thread has returned for good and the right one is in its wait loop. -/
theorem can_return_other_returned : ∃ s, Lib.Reach (step 200) (fun _ => True) (init 200) s ∧
    (s.loc .left).pc = .ret ∧ (s.loc .right).pc = .ldFlag ∧
    ∃ s', Lib.Reach (step 200) (fun _ => True) s s' ∧ ∀ t, (s'.loc t).pc = .ret := by
  obtain ⟨s, hrun, hs⟩ : ∃ s, Lib.Reach (step 200) (fun _ => True) (init 200) s ∧
      decide ((s.loc .left).pc = .ret ∧ (s.loc .right).pc = .ldFlag) = true :=
    Lib.Reach.of_check (List.replicate 404 .left ++ [.right, .right]) (fun _ _ => trivial) (by decide +kernel)
  obtain ⟨hleft, hright⟩ := of_decide_eq_true hs
  exact ⟨s, hrun, hleft, hright, can_return 200 (by decide) hrun⟩

end IoTester.Threads

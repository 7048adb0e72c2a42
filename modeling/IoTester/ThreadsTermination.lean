import IoTester.ThreadsProgress
import IoTester.Lib.Fair

/-!
# The threads do return

A schedule that goes on giving both threads a turn, in whatever order, brings
both to their end. A waiting thread may look at the flag and at `turn` any
number of times before it passes, so `Local.rest` alone does not rank the
states: `State.slack` says how many looks a waiting thread is away from
passing, as long as the other one leaves the lock alone.
-/

namespace IoTester.Threads

open Lib (Side)

/-- A thread that has just found one condition against it looks at the other one
next. -/
def State.slack (s : State) (t : Side) : Nat :=
  match (s.loc t).pc with
  | .ldFlag => if s.flag t.other then 2 else 1
  | .ldTurn => if s.turn = idx t.other then 2 else 1
  | _ => 0

/-- A step that leaves a thread less to do outweighs every change of slack. -/
def State.load (max : Nat) (s : State) : Nat := 5 * s.rest max + (s.slack .left + s.slack .right)

/-- A thread that has not returned and is not kept waiting. -/
def Free (s : State) (t : Side) : Prop :=
  (s.loc t).pc ≠ .ret ∧ ((s.loc t).pc.stage = .waiting → s.flag t.other = false ∨ s.turn ≠ idx t.other)

section
variable {max : Nat} {s s' : State} {t : Side}

theorem slack_le (s : State) (t : Side) : s.slack t ≤ 2 := by
  unfold State.slack
  split
  · split <;> simp
  · split <;> simp
  · simp

theorem load_lt_of_rest (h : s'.rest max < s.rest max) : s'.load max < s.load max := by
  have h₁ := slack_le s' .left
  have h₂ := slack_le s' .right
  unfold State.load
  omega

theorem slack_goto_other (s : State) (t : Side) (l : Local) : (s.goto t l).slack t.other = s.slack t.other := by
  simp [State.slack, State.goto]

theorem slack_goto_ldFlag (s : State) (t : Side) :
    (s.goto t { s.loc t with pc := .ldFlag }).slack t = if s.flag t.other then 2 else 1 := by
  simp only [State.slack, State.goto, Function.update_self]
  rfl

theorem slack_goto_ldTurn (s : State) (t : Side) :
    (s.goto t { s.loc t with pc := .ldTurn }).slack t = if s.turn = idx t.other then 2 else 1 := by
  simp only [State.slack, State.goto, Function.update_self]
  rfl

theorem slack_sum (s : State) (t : Side) : s.slack .left + s.slack .right = s.slack t + s.slack t.other := by
  cases t
  · rfl
  · exact Nat.add_comm ..

theorem rest_goto_same {l : Local} (h : l.rest max = (s.loc t).rest max) : (s.goto t l).rest max = s.rest max := by
  cases t <;> simp [State.rest, State.goto, h]

theorem load_look (max : Nat) (pc : Pc) (hw : (s.loc t).pc.stage = .waiting) (hpc : pc.stage = .waiting) :
    (s.goto t { s.loc t with pc := pc }).load max + s.slack t =
      s.load max + (s.goto t { s.loc t with pc := pc }).slack t := by
  have hrank : ∀ {p : Pc}, p.stage = .waiting → p.rank = 5 := by
    intro p hp
    cases p <;> simp_all [Pc.stage, Pc.rank]
  have hrest : (s.goto t { s.loc t with pc := pc }).rest max = s.rest max :=
    rest_goto_same (by simp [Local.rest, hrank hw, hrank hpc])
  unfold State.load
  rw [hrest, slack_sum _ t, slack_sum _ t, slack_goto_other]
  omega

theorem rest_pass (hw : (s.loc t).pc.stage = .waiting) :
    (s.goto t { s.loc t with pc := .ldIdx, j := 0 }).rest max < s.rest max := by
  refine rest_goto ?_
  cases hpc : (s.loc t).pc <;> simp_all [Pc.stage, Local.rest, Pc.rank]

theorem free_look {pc : Pc} (hfree : ¬ Free s t) {u : Side} (hu : Free s u) :
    Free (s.goto t { s.loc t with pc := pc }) u := by
  rcases Side.eq_or_eq_other u t with rfl | rfl
  · exact absurd hu hfree
  · simpa [Free, State.goto] using hu

/-- A waiting thread passes, or comes nearer to passing, or is kept waiting and
changes nothing that the other one sees. -/
theorem load_waiting (hw : (s.loc t).pc.stage = .waiting) (hs : step max s t = some s') :
    s'.load max < s.load max ∨ s'.load max = s.load max ∧ ¬ Free s t ∧ ∀ u, Free s u → Free s' u := by
  have hfree : s.flag t.other = true → s.turn = idx t.other → ¬ Free s t := by
    intro hf ht h
    simpa [hf, ht] using h.2 hw
  cases hpc : (s.loc t).pc with
  | ldFlag =>
    rw [step_ldFlag hpc] at hs
    cases hs
    by_cases hf : s.flag t.other = true
    · have hlook := load_look max .ldTurn hw rfl
      have hslack : s.slack t = 2 := by simp [State.slack, hpc, hf]
      rw [slack_goto_ldTurn, hslack] at hlook
      rw [if_pos hf]
      by_cases ht : s.turn = idx t.other
      · rw [if_pos ht] at hlook
        exact .inr ⟨Nat.add_right_cancel hlook, hfree hf ht, fun u => free_look (hfree hf ht)⟩
      · rw [if_neg ht] at hlook
        exact .inl (by omega)
    · rw [if_neg hf]
      exact .inl (load_lt_of_rest (rest_pass hw))
  | ldTurn =>
    rw [step_ldTurn hpc] at hs
    cases hs
    by_cases ht : s.turn = idx t.other
    · have hlook := load_look max .ldFlag hw rfl
      have hslack : s.slack t = 2 := by simp [State.slack, hpc, ht]
      rw [slack_goto_ldFlag, hslack] at hlook
      rw [if_pos ht]
      by_cases hf : s.flag t.other = true
      · rw [if_pos hf] at hlook
        exact .inr ⟨Nat.add_right_cancel hlook, hfree hf ht, fun u => free_look (hfree hf ht)⟩
      · rw [if_neg hf] at hlook
        exact .inl (by omega)
    · rw [if_neg ht]
      exact .inl (load_lt_of_rest (rest_pass hw))
  | _ => simp [hpc, Pc.stage] at hw

theorem load_step (hmax : 200 ∣ max) (h : Safe max s) (hs : step max s t = some s') :
    s'.load max < s.load max ∨ s'.load max = s.load max ∧ ¬ Free s t ∧ ∀ u, Free s u → Free s' u := by
  by_cases hw : (s.loc t).pc.stage = .waiting
  · exact load_waiting hw hs
  · exact .inl (load_lt_of_rest (rest_step hmax (h.filled.counts t) hw (step_moves hs)))

theorem exists_free (h : Safe max s) (hret : ¬ ∀ t, (s.loc t).pc = .ret) : ∃ t, Free s t := by
  obtain ⟨t, ht⟩ := not_forall.mp hret
  rcases s.lock.pass_or_other t with hpass | ⟨hother, hturn⟩
  · exact ⟨t, ht, fun _ => h.flags.pass_iff.mp hpass⟩
  · refine ⟨t.other, fun hpc => hother (congrArg Pc.stage hpc), fun _ => ?_⟩
    exact h.flags.pass_iff.mp (.inr hturn)

end

def ranking {max : Nat} (hmax : 200 ∣ max) :
    Lib.Ranking (step max) (Safe max) (fun s => ∀ t, (s.loc t).pc = .ret) where
  rank := State.load max
  Helpful := Free
  helpful := exists_free
  lowers := by
    intro s t h hfree
    obtain ⟨s', hs⟩ : ∃ s', step max s t = some s' := exists_step hfree.1
    rcases load_step hmax h hs with hlt | ⟨_, hno, _⟩
    · exact ⟨s', hs, hlt⟩
    · exact absurd hfree hno
  keeps := by
    intro s t s' h hs
    rcases load_step hmax h hs with hlt | ⟨heq, _, hkeep⟩
    · exact .inl hlt
    · exact .inr ⟨heq, hkeep⟩

theorem step_returned {max : Nat} {s : State} (h : ∀ t, (s.loc t).pc = .ret) (t : Side) : step max s t = none := by
  simp [step_eq, thread, h t]

/-- **The program ends.** Under every schedule that keeps giving each thread a
turn, there is a moment from which on both threads have returned, and `main`
prints the sum of all the numbers. -/
theorem fair_returns (max : Nat) (hmax : 200 ∣ max) (sched : Nat → Side) (hfair : Lib.Fair sched) :
    ∃ n, ∀ m, n ≤ m → (∀ t, ((Lib.play (step max) (init max) sched m).loc t).pc = .ret) ∧
      (Lib.play (step max) (init max) sched m).data.Perm (List.range max) ∧
      (Lib.play (step max) (init max) sched m).sum = UInt64.ofNat (max * (max - 1) / 2) := by
  have hsafe : ∀ n, Safe max (Lib.play (step max) (init max) sched n) :=
    fun n => safe_reach hmax (Lib.play_reach n)
  obtain ⟨n, hret⟩ := (ranking hmax).eventually hsafe hfair
  obtain ⟨-, hperm⟩ := returned_data hmax (hsafe n) hret
  refine ⟨n, fun m hm => ?_⟩
  rw [Lib.play_of_stuck (step_returned hret) hm]
  exact ⟨hret, hperm, sum_of_perm hperm⟩

theorem fair_alternate : Lib.Fair (fun n => if n % 2 = 0 then Side.left else Side.right) := by
  intro t n
  cases t with
  | left => exact ⟨2 * n, by omega, by simp⟩
  | right => exact ⟨2 * n + 1, by omega, by simp [Nat.add_mod]⟩

/-- The threads take turns access by access. -/
theorem fair_returns_alternate : ∃ n,
    (Lib.play (step 10000000) (init 10000000) (fun n => if n % 2 = 0 then .left else .right) n).sum = 49999995000000 := by
  obtain ⟨n, h⟩ := fair_returns 10000000 (by decide) _ fair_alternate
  exact ⟨n, (h n (Nat.le_refl n)).2.2⟩

end IoTester.Threads

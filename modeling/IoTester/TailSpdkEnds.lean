import IoTester.TailSpdkTime
import IoTester.TailSpdkWait

/-!
# The rounds of the SPDK tail latency tester come to an end

A round sends each of its commands once and completes each of them once; what
else it does is to call for completions that are not there yet. So a run of a
given number of rounds has a bounded number of steps, but for those calls, and
no state keeps the loop from its end.
-/

namespace IoTester.TailSpdk

open Lib

/-- A call counts for the completions that it finds. -/
def Label.work : Label → Nat
  | .poll done _ => done.length
  | _ => 1

/-- What is left of the round: two steps for each command that is not sent, one
for each in flight, one to leave the wait loop, one to take the samples. -/
def Phase.left (o : WorkerOptions) (c inflight : Nat) : Phase → Nat
  | .reads _ | .writes _ | .waiting => 2 * (o.ioDepth.toNat - c) + inflight + 2
  | .sampling => 1
  | .finished | .aborted | .crashed | .fault => 0

def State.left (o : WorkerOptions) (s : State) : Nat := s.phase.left o s.c s.inflight.length

theorem left_enter {o : WorkerOptions} {c n : Nat} {p : Phase} (hp : p.Sending) :
    (enter o p).left o c n = 2 * (o.ioDepth.toNat - c) + n + 2 := by
  cases p with
  | reads i =>
    by_cases hr : (i : Int) < o.numRead <;> by_cases hw : 0 < o.numWrite <;> simp [Phase.left, enter, hr, hw]
  | writes i => by_cases hw : (i : Int) < o.numWrite <;> simp [Phase.left, enter, hw]
  | _ => exact hp.elim

theorem left_sending {o : WorkerOptions} {s : State} (hp : s.phase.Sending) :
    s.left o = 2 * (o.ioDepth.toNat - s.c) + s.inflight.length + 2 := by
  unfold State.left
  cases hq : s.phase <;> simp_all [Phase.Sending, Phase.left]

theorem left_count_le {o : WorkerOptions} (s : State) (num : Int) :
    (s.count o num).left o ≤ 2 * (o.ioDepth.toNat - s.c) + s.inflight.length + 2 := by
  by_cases hd : s.cnt + num = o.ioDepth
  · simp [State.left, State.count, hd, Phase.left]
  · simp [State.left, State.count, hd, Phase.left]

section
variable {o : WorkerOptions} (ho : o.Fits) {s t : State} {l : Label} (hacc : Accounted o s)
include ho hacc

theorem sending_lt (hp : s.phase.Sending) : s.c < o.ioDepth.toNat := by
  have hexp := hacc.expects
  have h0 := ho.1
  have hr := ho.2.1
  cases hq : s.phase with
  | reads i =>
    rw [hq] at hexp
    obtain ⟨hc, hi, -⟩ := hexp
    omega
  | writes i =>
    rw [hq] at hexp
    obtain ⟨hc, hi, -⟩ := hexp
    unfold WorkerOptions.numWrite at hi
    omega
  | _ => rw [hq] at hp; exact hp.elim

theorem left_sent (hp : s.phase.Sending) {p : Phase} (hp' : p.Sending) :
    1 + (enter o p).left o (s.c + 1) (s.inflight.length + 1) = s.left o := by
  have hlt := sending_lt ho hacc hp
  rw [left_sending hp, left_enter hp']
  omega

/-- A step pays for itself, and the end of a round for the next round. -/
theorem left_step (hs : step o s l = some t) :
    l.work + t.left o ≤ s.left o + (2 * o.ioDepth.toNat + 2) * l.ended.toList.length := by
  have hpos : s.phase.Sending → 1 ≤ s.left o := fun hp => by rw [left_sending hp]; omega
  cases step_moves hs with
  | overrun now buff rc hp hc => exact hpos hp
  | refused now buff rc p hp hcase hno =>
    have hpos := hpos hp
    rcases hcase with rfl | rfl <;> exact hpos
  | read now i hp hc =>
    have hsend : s.phase.Sending := by rw [hp]; trivial
    have hleft := left_sent ho hacc hsend (p := .reads (i + 1)) trivial
    simp only [Label.work, State.left, State.submit, List.length_append, List.length_singleton] at hleft ⊢
    omega
  | write now i hp hc =>
    have hsend : s.phase.Sending := by rw [hp]; trivial
    have hleft := left_sent ho hacc hsend (p := .writes (i + 1)) trivial
    simp only [Label.work, State.left, State.submit, List.length_append, List.length_singleton] at hleft ⊢
    omega
  | poll done num u hp hu =>
    have hlen := (hacc.tracked.completeAll hu).2
    have hc : u.c = s.c := by rw [completeAll_frame hu]
    have hle := left_count_le (o := o) u num
    have hleft : s.left o = 2 * (o.ioDepth.toNat - s.c) + s.inflight.length + 2 := by simp [State.left, hp, Phase.left]
    rw [hc] at hle
    simp only [Label.work]
    omega
  | outside now hp hd => exact absurd ho.2.2 (Int.not_le.mpr hd)
  | finish now hp hd =>
    have hleft : s.left o = 1 := by simp [State.left, hp, Phase.left]
    rw [hleft]
    exact Nat.le_add_right ..
  | again now hp hd =>
    have hexp := hacc.expects
    rw [hp] at hexp
    have hleft : s.left o = 1 := by simp [State.left, hp, Phase.left]
    obtain ⟨reads, writes, hsam⟩ := samples_eq o s
    have hnext : (State.nextRound o { s.samples o with runTimer := s.runTimer.Stop now }).left o =
        2 * o.ioDepth.toNat + 2 := by
      rw [hsam]
      refine (left_enter (p := .reads 0) trivial).trans ?_
      simp [State.nextRound, hexp.2.2]
    rw [hnext, hleft]
    simp [Label.work, Label.ended]

end

/-! ## Going on -/

/-- Nothing fails. -/
def Label.Good : Label → Prop
  | .send _ buff rc => buff = true ∧ rc = 0
  | .poll done num => num = done.length
  | .sample _ => True

theorem Label.Good.regular {l : Label} (h : l.Good) : l.Regular := by
  cases l with
  | poll done num => exact regular_poll_iff.mpr h
  | _ => exact ⟨trivial, trivial⟩

/-- No command was refused, and each had its buffer. -/
def Phase.Up (p : Phase) : Prop := p ≠ .aborted ∧ p ≠ .crashed

theorem Phase.Active.up {p : Phase} (h : p.Active) : p.Up := by
  refine ⟨?_, ?_⟩
  · rintro rfl
    exact h
  · rintro rfl
    exact h

theorem good_step {o : WorkerOptions} {s t : State} {l : Label} (hl : l.Good) (hs : step o s l = some t) :
    t.phase.Up := by
  cases step_moves hs with
  | overrun now buff rc hp hc => simp [Phase.Up]
  | refused now buff rc p hp hcase hno =>
    obtain ⟨rfl, rfl⟩ := hl
    simp at hno
  | read now i hp hc => exact (enter_active o (p := .reads (i + 1)) trivial).up
  | write now i hp hc => exact (enter_active o (p := .writes (i + 1)) trivial).up
  | poll done num u hp hu =>
    simp only [State.count]
    split <;> simp [Phase.Up]
  | outside now hp hd => simp [Phase.Up]
  | finish now hp hd => simp [Phase.Up]
  | again now hp hd => exact (enter_active o (p := .reads 0) trivial).up

theorem exists_good_step {o : WorkerOptions} (ho : o.Fits) {s : State} (hacc : Accounted o s)
    (htime : o.timeNs.toNat + 1 < 2 ^ 64) (hup : s.phase.Up) (hfin : s.phase ≠ .finished) :
    ∃ l t, Label.Good l ∧ step o s l = some t ∧ t.left o < s.left o := by
  have hexp := hacc.expects
  have hsend : s.phase.Sending → ∃ l t, Label.Good l ∧ step o s l = some t ∧ t.left o < s.left o := by
    intro hp
    have hc := expects_c_lt ho hexp hp
    obtain ⟨t, ht⟩ : ∃ t, step o s (.send default true 0) = some t := by
      cases hq : s.phase with
      | reads i => simp [step, hq, Nat.not_le.mpr hc]
      | writes i => simp [step, hq, Nat.not_le.mpr hc]
      | _ => rw [hq] at hp; exact hp.elim
    have hleft := left_step ho hacc ht
    refine ⟨.send default true 0, t, ⟨rfl, rfl⟩, ht, ?_⟩
    simp only [Label.work, Label.ended, Option.toList_none, List.length_nil, Nat.mul_zero, Nat.add_zero] at hleft
    omega
  cases hp : s.phase with
  | reads i => exact hsend (by rw [hp]; trivial)
  | writes i => exact hsend (by rw [hp]; trivial)
  | waiting =>
    rw [hp] at hexp
    obtain ⟨u, hu, hin, hcnt, -⟩ := completeAll_inflight default s.inflight s rfl
    refine ⟨.poll (s.inflight.map fun cmd => (cmd, default)) s.inflight.length, u.count o s.inflight.length,
      congrArg _ (List.length_map _).symm, ?_, ?_⟩
    · simp [step, hp, hu]
    · have hdone : u.cnt + (s.inflight.length : Int) = o.ioDepth := by rw [hcnt]; exact hexp.2
      simp only [State.left, State.count, hdone, if_true, hp, Phase.left]
      omega
  | sampling =>
    obtain ⟨now, hover⟩ := s.runTimer.start.exists_elapsedTo_gt htime
    refine ⟨.sample now, { s.samples o with runTimer := s.runTimer.Stop now, phase := .finished }, trivial, ?_, ?_⟩
    · simp only [step, hp, Int.not_lt.mpr ho.2.2, if_false]
      exact if_pos hover
    · simp [State.left, hp, Phase.left]
  | finished => exact absurd hp hfin
  | aborted => exact absurd hp hup.1
  | crashed => exact absurd hp hup.2
  | fault => rw [hp] at hexp; exact hexp.elim

/-- **The rounds come to an end.** A run in which no call fails and each counts the
commands it completes takes at most `2 * io_depth + 2` steps for each round, not
counting the calls that find no completion. And whatever has happened so far,
unless a command was refused or had no buffer, the loop can still finish. -/
theorem rounds_end (o : WorkerOptions) (ho : o.Fits) (htime : o.timeNs.toNat + 1 < 2 ^ 64) (start : Timespec)
    (ls : List Label) (hls : ∀ l ∈ ls, l.Regular) {s : State} (h : runs (step o) (init o start) ls = some s) :
    (ls.map Label.work).sum ≤ (2 * o.ioDepth.toNat + 2) * ((ends ls).length + 1) ∧
      (s.phase.Up → ∃ t, Reach (step o) Label.Good s t ∧ t.phase = .finished) := by
  have hstep : ∀ {before : List Label} {a b : State} {l : Label}, l.Regular → step o a l = some b →
      Accounted o a ∧ (before.map Label.work).sum + a.left o ≤ (2 * o.ioDepth.toNat + 2) * ((ends before).length + 1) →
      Accounted o b ∧ ((before ++ [l]).map Label.work).sum + b.left o ≤
        (2 * o.ioDepth.toNat + 2) * ((ends (before ++ [l])).length + 1) := by
    rintro before a b l hl hs ⟨hacc, hle⟩
    refine ⟨accounted_step ho hl hs hacc, ?_⟩
    have hpay := left_step ho hacc hs
    rw [ends_snoc, List.length_append, Nat.add_right_comm, Nat.mul_add]
    simp only [List.map_append, List.sum_append, List.map_cons, List.map_nil, List.sum_cons, List.sum_nil, Nat.add_zero]
    omega
  have hinit : (([] : List Label).map Label.work).sum + (init o start).left o ≤
      (2 * o.ioDepth.toNat + 2) * ((ends []).length + 1) := by
    have hleft : (init o start).left o = _ := left_enter (p := .reads 0) trivial
    rw [hleft]
    simp [init, ends]
  obtain ⟨hacc, hle⟩ := runs_invariant (P := fun ls s => Accounted o s ∧
    (ls.map Label.work).sum + s.left o ≤ (2 * o.ioDepth.toNat + 2) * ((ends ls).length + 1)) hstep ls [] _ hls
    ⟨accounted_init ho start, hinit⟩ h
  rw [List.nil_append] at hle
  refine ⟨by omega, fun hup => ?_⟩
  have hkeep : ∀ {a b : State} {l : Label}, l.Good → step o a l = some b → Accounted o a ∧ a.phase.Up →
      Accounted o b ∧ b.phase.Up := fun hl hs ha =>
    ⟨accounted_step ho hl.regular hs ha.1, good_step hl hs⟩
  refine Reach.exists_done (State.left o) hkeep (fun a ha hfin => ?_) ⟨hacc, hup⟩
  obtain ⟨l, b, hl, hb, hlt⟩ := exists_good_step ho ha.1 htime ha.2 hfin
  exact ⟨b, .next .refl hl hb, hlt⟩

/-- The loop waits for a command that has not been completed. -/
theorem rounds_end_waiting : ∃ s, runs (step evenSplit) (init evenSplit ⟨0, 0⟩) (oneRound.take 3) = some s ∧
    s.phase = .waiting ∧ s.inflight ≠ [] ∧ ∃ t, Reach (step evenSplit) Label.Good s t ∧ t.phase = .finished := by
  obtain ⟨s, hs, hp⟩ := (Option.any_eq_true (fun s : State => decide (s.phase = .waiting ∧ s.inflight ≠ []))
    (runs (step evenSplit) (init evenSplit ⟨0, 0⟩) (oneRound.take 3))).mp (by decide +kernel)
  obtain ⟨hp, hin⟩ := of_decide_eq_true hp
  refine ⟨s, hs, hp, hin, ?_⟩
  exact (rounds_end evenSplit (by decide +kernel) (by decide) ⟨0, 0⟩ (oneRound.take 3)
    (fun l hl => oneRound_regular l (List.mem_of_mem_take hl)) hs).2 (by simp [hp, Phase.Up])

end IoTester.TailSpdk

import IoTester.TailSpdkSound

/-!
# The exit test of the wait loop

`__cnt == _io_depth` is an equality between a sum of return values and a
number that is computed apart from the number of commands sent. The test is
right when the two numbers agree, each call returns the number of commands it
completes and none returns a negative number, and for no other options.
-/

namespace IoTester.TailSpdk

/-- The wait loop counts right: the counter meets `io_depth` exactly when no
command of the round is in flight, and the commands had slots. -/
def WaitExact (o : WorkerOptions) (s : State) : Prop :=
  s.phase ≠ .fault ∧
    (s.phase = .waiting ∨ s.phase = .sampling → (s.cnt = o.ioDepth ↔ ∀ cmd ∈ s.inflight, cmd.round ≠ s.round))

theorem waitExact_of_accounted {o : WorkerOptions} {s : State} (h : Accounted o s) : WaitExact o s := by
  have hexp := h.expects
  have hround : (∀ cmd ∈ s.inflight, cmd.round ≠ s.round) ↔ s.inflight = [] := by
    refine ⟨fun hall => List.eq_nil_iff_forall_not_mem.mpr fun cmd hm => ?_, fun hin cmd hm => ?_⟩
    · exact hall cmd hm (mem_roundCmds.mp (h.tracked.flight cmd hm)).2
    · rw [hin] at hm
      cases hm
  refine ⟨?_, ?_⟩
  · intro hp
    rw [hp] at hexp
    exact hexp
  · intro hp
    rw [hround, ← List.length_eq_zero_iff]
    rcases hp with hp | hp
    · rw [hp] at hexp
      have := hexp.2
      omega
    · rw [hp] at hexp
      simp [hexp.2.1, hexp.2.2]

def WorkerOptions.sends (o : WorkerOptions) : Nat := o.numRead.toNat + o.numWrite.toNat

def phaseAt (o : WorkerOptions) (n : Nat) : Phase :=
  if n < o.numRead.toNat then .reads n
  else if n - o.numRead.toNat < o.numWrite.toNat then .writes (n - o.numRead.toNat)
  else .waiting

theorem enter_reads {o : WorkerOptions} {n : Nat} (h : n ≤ o.numRead.toNat) :
    enter o (.reads n) = phaseAt o n := by
  by_cases hn : n < o.numRead.toNat
  · simp only [enter, phaseAt, hn, if_true, show (n : Int) < o.numRead by omega]
  · obtain rfl : n = o.numRead.toNat := by omega
    have hr : ¬ ((o.numRead.toNat : Nat) : Int) < o.numRead := by omega
    by_cases hw : 0 < o.numWrite
    · simp only [enter, phaseAt, hr, hn, hw, if_true, if_false, Nat.sub_self, show 0 < o.numWrite.toNat by omega]
    · simp only [enter, phaseAt, hr, hn, hw, if_false, Nat.sub_self, show ¬ 0 < o.numWrite.toNat by omega]

theorem enter_writes (o : WorkerOptions) (i : Nat) :
    enter o (.writes i) = phaseAt o (o.numRead.toNat + i) := by
  have hr : ¬ o.numRead.toNat + i < o.numRead.toNat := by omega
  by_cases hw : (i : Int) < o.numWrite
  · simp only [enter, phaseAt, hw, hr, if_true, if_false, Nat.add_sub_cancel_left,
      show i < o.numWrite.toNat by omega]
  · simp only [enter, phaseAt, hw, hr, if_false, Nat.add_sub_cancel_left,
      show ¬ i < o.numWrite.toNat by omega]

theorem sends_eq {o : WorkerOptions} (ho : o.Fits) : (o.sends : Int) = o.ioDepth := by
  have h0 := ho.1
  have hr := ho.2.1
  unfold WorkerOptions.sends WorkerOptions.numWrite
  omega

theorem sends_le {o : WorkerOptions} (ho : o.Fits) : o.sends ≤ 64 := by
  have heq := sends_eq ho
  have hd := ho.2.2
  omega

theorem phaseAt_sends (o : WorkerOptions) : phaseAt o o.sends = .waiting := by
  unfold phaseAt WorkerOptions.sends
  rw [if_neg (by omega), if_neg (by omega)]

/-- Round `r` has sent `n` of its commands, and none of them has completed. -/
structure Sent (o : WorkerOptions) (r n : Nat) (s : State) : Prop where
  phase : s.phase = phaseAt o n
  round : s.round = r
  c : s.c = n
  cnt : s.cnt = 0
  length : s.inflight.length = n

theorem sent_init (o : WorkerOptions) (now : Timespec) : Sent o 0 0 (init o now) :=
  ⟨enter_reads (Nat.zero_le _), rfl, rfl, rfl, rfl⟩

theorem phaseAt_cases {o : WorkerOptions} {n : Nat} (hn : n < o.sends) :
    (n < o.numRead.toNat ∧ phaseAt o n = .reads n) ∨
      (o.numRead.toNat ≤ n ∧ phaseAt o n = .writes (n - o.numRead.toNat)) := by
  unfold phaseAt
  rcases Nat.lt_or_ge n o.numRead.toNat with hr | hr
  · exact .inl ⟨hr, if_pos hr⟩
  · have hw : n - o.numRead.toNat < o.numWrite.toNat := by
      unfold WorkerOptions.sends at hn
      omega
    exact .inr ⟨hr, by rw [if_neg (Nat.not_lt.mpr hr), if_pos hw]⟩

theorem Sent.next {o : WorkerOptions} {r n : Nat} {s : State} (h : Sent o r n s) (hn : n < o.sends) (hc : n < 64) :
    ∃ t, step o s (.send default true 0) = some t ∧ Sent o r (n + 1) t := by
  have hc : ¬ 64 ≤ s.c := by rw [h.c]; omega
  rcases phaseAt_cases hn with ⟨hr, hp⟩ | ⟨hr, hp⟩
  · have hp := h.phase.trans hp
    simp only [step, hp, hc, if_false, ne_eq, not_true_eq_false, Bool.true_eq_false, or_self]
    exact ⟨_, rfl, enter_reads hr, h.round, by simp [State.submit, h.c], h.cnt, by simp [State.submit, h.length]⟩
  · have hp := h.phase.trans hp
    simp only [step, hp, hc, if_false, ne_eq, not_true_eq_false, Bool.true_eq_false]
    refine ⟨_, rfl, ?_, h.round, by simp [State.submit, h.c], h.cnt, by simp [State.submit, h.length]⟩
    show enter o (.writes (n - o.numRead.toNat + 1)) = _
    rw [enter_writes]
    congr 1
    omega

theorem Sent.overrun {o : WorkerOptions} {r : Nat} {s : State} (h : Sent o r 64 s) (hn : 64 < o.sends) :
    ∃ t, step o s (.send default true 0) = some t ∧ t.phase = .fault := by
  have hc : 64 ≤ s.c := Nat.le_of_eq h.c.symm
  rcases phaseAt_cases hn with ⟨_, hp⟩ | ⟨_, hp⟩
  · simp only [step, h.phase.trans hp, hc, if_true]
    exact ⟨_, rfl, rfl⟩
  · simp only [step, h.phase.trans hp, hc, if_true]
    exact ⟨_, rfl, rfl⟩

theorem completeAll_inflight (now : Timespec) : ∀ (l : List Cmd) (s : State), s.inflight = l →
    ∃ t, completeAll s (l.map fun cmd => (cmd, now)) = some t ∧ t.inflight = [] ∧ t.cnt = s.cnt ∧ t.round = s.round
  | [], s, h => ⟨s, rfl, h, rfl, rfl⟩
  | cmd :: l, s, h => by
    have hm : cmd ∈ s.inflight := by rw [h]; exact List.mem_cons_self
    simp only [List.map_cons, completeAll, complete, hm, if_true, Option.bind_some]
    refine completeAll_inflight now l _ ?_
    show s.inflight.erase cmd = l
    rw [h, List.erase_cons_head]

theorem poll_all {o : WorkerOptions} {s : State} (hp : s.phase = .waiting) :
    ∃ l t, Label.Regular l ∧ step o s l = some t ∧ t.inflight = [] ∧ t.cnt = s.cnt + s.inflight.length ∧
      t.round = s.round ∧ t.phase = if t.cnt = o.ioDepth then .sampling else .waiting := by
  obtain ⟨u, hu, hin, hcnt, hround⟩ := completeAll_inflight default s.inflight s rfl
  refine ⟨.poll (s.inflight.map fun cmd => (cmd, default)) s.inflight.length, u.count o s.inflight.length,
    regular_poll_iff.mpr (by simp), ?_, hin, ?_, hround, rfl⟩
  · simp [step, hp, hu]
  · show u.cnt + (s.inflight.length : Int) = _
    rw [hcnt]

theorem waiting_or_sampling {o : WorkerOptions} {s : State}
    (h : s.phase = if s.cnt = o.ioDepth then .sampling else .waiting) : s.phase = .waiting ∨ s.phase = .sampling := by
  rw [h]
  by_cases he : s.cnt = o.ioDepth
  · exact .inr (if_pos he)
  · exact .inl (if_neg he)

section
variable {o : WorkerOptions} {ok : Label → Prop} (hok : ∀ l, Label.Regular l → ok l)
include hok

theorem Sent.reach {r : Nat} {s : State} (h : Sent o r 0 s) :
    ∀ n, n ≤ o.sends → n ≤ 64 → ∃ t, Lib.Reach (step o) ok s t ∧ Sent o r n t
  | 0, _, _ => ⟨s, .refl, h⟩
  | n + 1, hn, hc => by
    obtain ⟨t, hreach, ht⟩ := h.reach n (by omega) (by omega)
    obtain ⟨u, hu, hsent⟩ := ht.next hn hc
    exact ⟨u, .next hreach (hok (.send default true 0) ⟨trivial, trivial⟩) hu, hsent⟩

/-- A round whose commands are sent can be followed by the next one. -/
theorem Sent.nextRound (ho : o.Fits) {r : Nat} {s : State} (h : Sent o r o.sends s) :
    ∃ t, Lib.Reach (step o) ok s t ∧ Sent o (r + 1) 0 t := by
  obtain ⟨l, t, hl, ht, hin, hcnt, hround, hp⟩ := poll_all (o := o) (h.phase.trans (phaseAt_sends o))
  have hsends : (o.sends : Int) = o.ioDepth := sends_eq ho
  rw [h.cnt, h.length, hsends, Int.zero_add] at hcnt
  rw [if_pos hcnt] at hp
  -- a clock that has not moved leaves time for another round
  have hstep : step o t (.sample t.runTimer.start) =
      some (State.nextRound o { t.samples o with runTimer := t.runTimer.Stop t.runTimer.start }) := by
    have hover : ¬ o.timeNs < t.runTimer.start.elapsedTo t.runTimer.start := by
      rw [Timespec.elapsedTo_self]
      exact UInt64.not_lt.mpr (UInt64.zero_le)
    simp only [step, hp, Int.not_lt.mpr ho.2.2, if_false, Timer.Get_Stop, gt_iff_lt, hover]
  refine ⟨_, .next (.next .refl (hok l hl) ht) (hok (.sample _) ⟨trivial, trivial⟩) hstep, ?_⟩
  obtain ⟨reads, writes, hsam⟩ := samples_eq o t
  rw [hsam]
  refine ⟨enter_reads (Nat.zero_le _), ?_, rfl, rfl, ?_⟩
  · show t.round + 1 = r + 1
    rw [hround, h.round]
  · show t.inflight.length = 0
    rw [hin]
    rfl

/-- There are runs of any number of rounds. -/
theorem reach_round (ho : o.Fits) (now : Timespec) : ∀ r, ∃ s, Lib.Reach (step o) ok (init o now) s ∧ Sent o r 0 s
  | 0 => ⟨_, .refl, sent_init o now⟩
  | r + 1 => by
    obtain ⟨s, hs, hsent⟩ := reach_round ho now r
    obtain ⟨t, ht, hsent⟩ := hsent.reach hok o.sends (Nat.le_refl _) (sends_le ho)
    obtain ⟨u, hu, hsent⟩ := hsent.nextRound hok ho
    exact ⟨u, (hs.trans ht).trans hu, hsent⟩

theorem sends_le_of_no_fault (h : ∀ now s, Lib.Reach (step o) ok (init o now) s → s.phase ≠ .fault) :
    o.sends ≤ 64 := by
  refine Nat.le_of_not_lt fun hgt => ?_
  obtain ⟨s, hreach, hs⟩ := (sent_init o default).reach hok 64 (by omega) (Nat.le_refl _)
  obtain ⟨t, ht, hfault⟩ := hs.overrun hgt
  exact h default t (.next hreach (hok (.send default true 0) ⟨trivial, trivial⟩) ht) hfault

section
variable (hall : ∀ now s, Lib.Reach (step o) ok (init o now) s → WaitExact o s)
include hall

theorem fits_of_waitExact : o.Fits := by
  have h64 := sends_le_of_no_fault hok fun now s hs => (hall now s hs).1
  obtain ⟨s, hreach, hs⟩ := (sent_init o default).reach hok o.sends (Nat.le_refl _) h64
  obtain ⟨l, t, hl, ht, hin, hcnt, -, hp⟩ := poll_all (o := o) (hs.phase.trans (phaseAt_sends o))
  have hexact := (hall default t (.next hreach (hok l hl) ht)).2 (waiting_or_sampling hp)
  rw [hin, hcnt, hs.cnt, hs.length] at hexact
  have hio := hexact.mpr (fun _ hm => (List.not_mem_nil hm).elim)
  unfold WorkerOptions.sends WorkerOptions.numWrite at hio h64
  unfold WorkerOptions.Fits
  omega

theorem error_not_allowed (herr : ok (.poll [] (-1))) : False := by
  have ho := fits_of_waitExact hok hall
  have hsends := sends_eq ho
  obtain ⟨s, hreach, hs⟩ := (sent_init o default).reach hok o.sends (Nat.le_refl _) (sends_le ho)
  have hp : s.phase = .waiting := hs.phase.trans (phaseAt_sends o)
  have herr' : step o s (.poll [] (-1)) = some (s.count o (-1)) := by simp [step, hp, completeAll]
  have hne : s.cnt + -1 ≠ o.ioDepth := by
    rw [hs.cnt]
    omega
  have hp' : (s.count o (-1)).phase = .waiting := if_neg hne
  obtain ⟨l, t, hl, ht, hin, hcnt, -, htp⟩ := poll_all (o := o) hp'
  have hexact := (hall default t (.next (.next hreach herr herr') (hok l hl) ht)).2 (waiting_or_sampling htp)
  have hlen : (s.count o (-1)).inflight.length = o.sends := hs.length
  have hcount : (s.count o (-1)).cnt = s.cnt + -1 := rfl
  rw [hin, hcnt, hlen, hcount, hs.cnt] at hexact
  have := hexact.mpr (fun _ hm => (List.not_mem_nil hm).elim)
  omega

end

end

/-- **Exit test.** The counter of the wait loop is right in every run of calls that
count commands exactly when no call may fail and the split gives each command its
own slot. -/
theorem wait_exact_iff (o : WorkerOptions) (errors : Bool) :
    (∀ now s, Lib.Reach (step o) (fun l => l.Counts ∧ (errors = false → l.NoError)) (init o now) s → WaitExact o s) ↔
      errors = false ∧ o.Fits := by
  refine ⟨fun hall => ?_, ?_⟩
  · have hok : ∀ l : Label, l.Regular → l.Counts ∧ (errors = false → l.NoError) := fun _ hl => ⟨hl.1, fun _ => hl.2⟩
    refine ⟨?_, fits_of_waitExact hok hall⟩
    cases errors with
    | false => rfl
    | true => exact (error_not_allowed hok hall ⟨.inr ⟨by decide, rfl⟩, fun hf => nomatch hf⟩).elim
  · rintro ⟨rfl, ho⟩ now s h
    exact waitExact_of_accounted (accounted_reach ho (h.mono fun _ hl => ⟨hl.1, hl.2 rfl⟩))

def oneRead : WorkerOptions := ⟨1, 1, 2 ^ 30, 512, 512, 0⟩

/-- A valid split, one call that fails with `ENXIO`, then the completion: the
loop waits although nothing is in flight. -/
theorem wait_stuck_after_error : ∃ s, Lib.Reach (step oneRead) Label.Counts (init oneRead default) s ∧
    s.phase = .waiting ∧ s.inflight = [] ∧ s.cnt = -5 ∧ ¬ WaitExact oneRead s := by
  obtain ⟨s, hrun, hs⟩ : ∃ s, Lib.Reach (step oneRead) Label.Counts (init oneRead default) s ∧
      decide (s.phase = .waiting ∧ s.inflight = [] ∧ s.cnt = -5) = true :=
    Lib.Reach.of_check [.send default true 0, .poll [] (-6), .poll [(⟨.read, 0, 0, 1, 0, 0⟩, default)] 1]
      (by simp [Label.Counts]) (by decide +kernel)
  obtain ⟨hp, hin, hcnt⟩ := of_decide_eq_true hs
  refine ⟨s, hrun, hp, hin, hcnt, fun hw => ?_⟩
  have := (hw.2 (.inl hp)).mpr (by rw [hin]; exact fun _ hm => (List.not_mem_nil hm).elim)
  rw [hcnt] at this
  cases this

end IoTester.TailSpdk

import IoTester.IoSpdkEventsSound

/-!
# What the threads leave on the device, and what a failed poll does

The threads write over one another, but all of them write the same bytes to
the same sectors. A poll that fails puts its negative result into the count of the
completions, which then does not get to `io_depth` any more.
-/

namespace IoTester.IoSpdk

open Lib

/-! ## The device -/

/-- The controller executes what it takes. -/
def Label.Writes : Label → Prop
  | .execute _ _ ok => ok = true
  | _ => True

structure Content (p : Params) (device : List UInt8) (s : State) : Prop where
  length : s.device.length = device.length
  covered : ∀ x, (∃ c ∈ s.written, c.span.Covers x) → s.device[x]? = some 0xff
  other : ∀ x, (∀ c ∈ s.written, ¬ c.span.Covers x) → s.device[x]? = device[x]?
  sent : ∀ c ∈ s.written, ∃ t < p.numThread, c ∈ (s.worker t).sent
  queued : ∀ t, ∀ q ∈ (s.worker t).sq, q.cmd ∈ (s.worker t).sent
  done : ∀ t, ∀ c ∈ (s.worker t).sent, c ∈ s.written ∨ ∃ q ∈ (s.worker t).sq, q.cmd = c

@[simp] theorem sq_enter (p : Params) (w : Worker) : (w.enter p).sq = w.sq := by
  unfold Worker.enter
  split <;> rfl

@[simp] theorem sent_enter (p : Params) (w : Worker) : (w.enter p).sent = w.sent := by
  unfold Worker.enter
  split <;> rfl

@[simp] theorem sq_counted (p : Params) (w : Worker) (num : Int) : (w.counted p num).sq = w.sq := by
  unfold Worker.counted
  dsimp only
  split
  · exact sq_enter ..
  · rfl

@[simp] theorem sent_counted (p : Params) (w : Worker) (num : Int) : (w.counted p num).sent = w.sent := by
  unfold Worker.counted
  dsimp only
  split
  · exact sent_enter ..
  · rfl

namespace Content

section
variable {p : Params} {device : List UInt8} {s u : State} {t : Nat} (h : Content p device s)
include h

theorem frame (hdev : u.device = s.device) (hwritten : u.written = s.written)
    (hsq : ∀ t, (u.worker t).sq = (s.worker t).sq) (hsent : ∀ t, (u.worker t).sent = (s.worker t).sent) :
    Content p device u := by
  refine ⟨?_, ?_, ?_, ?_, ?_, ?_⟩
  · rw [hdev]
    exact h.length
  · rw [hdev, hwritten]
    exact h.covered
  · rw [hdev, hwritten]
    exact h.other
  · simpa only [hwritten, hsent] using h.sent
  · simpa only [hsq, hsent] using h.queued
  · simpa only [hwritten, hsq, hsent] using h.done

theorem goto {w : Worker} (hsq : w.sq = (s.worker t).sq) (hsent : w.sent = (s.worker t).sent) :
    Content p device (s.goto t w) := by
  refine h.frame rfl rfl (fun v => ?_) (fun v => ?_)
  · by_cases hv : v = t
    · subst hv
      simpa [State.goto] using hsq
    · simp [State.goto, hv]
  · by_cases hv : v = t
    · subst hv
      simpa [State.goto] using hsent
    · simp [State.goto, hv]

theorem submitted : Content p device (s.submitted p t) := by
  have hmono : ∀ v, (s.worker v).sent ⊆ ((s.submitted p t).worker v).sent := by
    intro v c hc
    by_cases hv : v = t
    · subst hv
      simp [State.submitted, State.goto, hc]
    · simpa [State.submitted, State.goto, hv] using hc
  refine ⟨h.length, h.covered, h.other, fun c hc => ?_, fun v q hq => ?_, fun v c hc => ?_⟩
  · obtain ⟨v, hv, hm⟩ := h.sent c hc
    exact ⟨v, hv, hmono v hm⟩
  · by_cases hv : v = t
    · subst hv
      simp only [State.submitted, State.goto, Function.update_self, List.mem_append, List.mem_singleton] at hq ⊢
      rcases hq with hq | rfl
      · exact .inl (h.queued v q hq)
      · exact .inr rfl
    · refine hmono v (h.queued v q ?_)
      simpa [State.submitted, State.goto, hv] using hq
  · by_cases hv : v = t
    · subst hv
      simp only [State.submitted, State.goto, Function.update_self, List.mem_append, List.mem_singleton] at hc ⊢
      rcases hc with hc | rfl
      · rcases h.done v c hc with hw | ⟨q, hq, rfl⟩
        · exact .inl hw
        · exact .inr ⟨q, .inl hq, rfl⟩
      · exact .inr ⟨_, .inr rfl, rfl⟩
    · have hc : c ∈ (s.worker v).sent := by simpa [State.submitted, State.goto, hv] using hc
      simpa [State.submitted, State.goto, hv] using h.done v c hc

theorem executed {q : Queued} (ht : t < p.numThread) (hq : q ∈ (s.worker t).sq)
    (hin : q.cmd.span.start + q.cmd.span.len ≤ s.device.length) :
    Content p device
      { s.posted t q with device := fill 0 0xff s.device q.cmd.span, written := s.written ++ [q.cmd] } := by
  have hsent : ∀ v, ((s.posted t q).worker v).sent = (s.worker v).sent := by
    intro v
    by_cases hv : v = t
    · subst hv
      simp [State.posted, State.goto]
    · simp [State.posted, State.goto, hv]
  have hsq : ∀ v, ∀ r ∈ ((s.posted t q).worker v).sq, r ∈ (s.worker v).sq := by
    intro v r hr
    by_cases hv : v = t
    · subst hv
      simp only [State.posted, State.goto, Function.update_self] at hr
      exact List.mem_of_mem_erase hr
    · simpa [State.posted, State.goto, hv] using hr
  refine ⟨?_, fun x hx => ?_, fun x hx => ?_, fun c hc => ?_, fun v r hr => ?_, fun v c hc => ?_⟩
  · exact (length_fill 0 0xff hin).trans h.length
  · by_cases hnew : q.cmd.span.Covers x
    · exact fill_covered 0 0xff _ hnew
    · obtain ⟨c, hc, hcov⟩ := hx
      refine fill_keeps 0 0xff _ (h.covered x ⟨c, ?_, hcov⟩)
      rcases List.mem_append.mp hc with hc | hc
      · exact hc
      · rw [List.mem_singleton.mp hc] at hcov
        exact absurd hcov hnew
  · have hold : ∀ c ∈ s.written, ¬ c.span.Covers x := fun c hc => hx c (List.mem_append_left _ hc)
    have hnew : ¬ q.cmd.span.Covers x := hx q.cmd (List.mem_append_right _ List.mem_cons_self)
    exact (fill_other 0 0xff hin hnew).trans (h.other x hold)
  · rcases List.mem_append.mp hc with hc | hc
    · obtain ⟨v, hv, hm⟩ := h.sent c hc
      exact ⟨v, hv, (hsent v).symm ▸ hm⟩
    · rw [List.mem_singleton.mp hc]
      exact ⟨t, ht, (hsent t).symm ▸ h.queued t q hq⟩
  · exact (hsent v).symm ▸ h.queued v r (hsq v r hr)
  · rcases h.done v c (hsent v ▸ hc) with hw | ⟨r, hr, rfl⟩
    · exact .inl (List.mem_append_left _ hw)
    · by_cases hrq : r = q
      · subst hrq
        exact .inl (List.mem_append_right _ List.mem_cons_self)
      · refine .inr ⟨r, ?_, rfl⟩
        by_cases hv : v = t
        · subst hv
          simp only [State.posted, State.goto, Function.update_self]
          exact (List.mem_erase_of_ne hrq).mpr hr
        · simpa [State.posted, State.goto, hv] using hr

theorem completedAll (hinv : Inv p s) {done : List Queued} (hs : completeAll t s done = some u) :
    Content p device u := by
  obtain ⟨-, -, cq, hframe⟩ := hinv.buffers.completedAll hs
  have hgoto : Content p device (s.goto t { s.worker t with cq := cq }) := h.goto rfl rfl
  rw [hframe]
  exact hgoto.frame rfl rfl (fun _ => rfl) (fun _ => rfl)

theorem step {l : Label} (hinv : Inv p s) (hl : l.Writes) (hs : IoSpdk.step p s l = some u) :
    Content p device u := by
  obtain ⟨-, ht, hmove⟩ := step_moves hs
  cases hmove with
  | crash l c _ _ => exact h.frame rfl rfl (fun _ => rfl) (fun _ => rfl)
  | start t hpc => exact h.goto (sq_enter ..) (sent_enter ..)
  | submit t hpc => exact h.submitted
  | execute t q ok u hq he =>
    rcases hinv.buffers.executed hq (hinv.span_le hq) he with ⟨_, hok⟩ | ⟨_, hin, rfl⟩
    · exact absurd (hl.symm.trans hok) (by decide)
    · exact h.executed ht hq hin
  | overflow t done num v hpc hv _ =>
    exact (h.completedAll hinv hv).frame rfl rfl (fun _ => rfl) (fun _ => rfl)
  | poll t done num v hpc hv => exact (h.completedAll hinv hv).goto (sq_counted ..) (sent_counted ..)

end

end Content

/-- The bytes that each thread writes. -/
def Params.bytes (p : Params) : Nat := p.count * p.depth * p.blockSize.toNat

section
variable {p : Params} (hdepth : 1 ≤ p.ioDepth) (hint : p.ioDepth < 2 ^ 31)
include hdepth hint

theorem bytes_le_total : p.bytes ≤ p.totalSize.toNat := by
  have hd : (UInt64.ofInt p.ioDepth).toNat = p.depth := by
    unfold Params.depth
    rw [UInt64.ofInt, Int.emod_eq_of_lt (by omega) (by omega),
      UInt64.toNat_ofNat_of_lt' (show p.ioDepth.toNat < 2 ^ 64 by omega)]
  unfold Params.bytes Params.count
  rw [UInt64.toNat_div, UInt64.toNat_div, hd]
  exact Nat.le_trans (Nat.mul_le_mul_right _ (Nat.div_mul_le_self _ _)) (Nat.div_mul_le_self _ _)

theorem sectors_chain (hgood : p.Good) (hlba : p.nLba.toNat < 2 ^ 32) :
    (sectors p.nLba (p.count * p.depth) 0).map Cmd.span = chain p.blockSize.toNat (p.count * p.depth) := by
  have h512 : 512 ∣ p.blockSize.toNat := by
    have hmod := congrArg UInt64.toNat hgood.1
    rw [UInt64.toNat_mod] at hmod
    exact Nat.dvd_of_mod_eq_zero hmod
  have hfit : (0 + p.count * p.depth) * p.blockSize.toNat < 2 ^ 64 := by
    rw [Nat.zero_add]
    exact Nat.lt_of_le_of_lt (bytes_le_total hdepth hint) p.totalSize.toNat_lt
  have hspan := sectors_span h512 hfit
  have hlba : p.blockSize.toNat / 512 < 2 ^ 32 := by simpa [Params.nLba] using hlba
  have hlen : p.blockSize.toNat / 512 % 2 ^ 32 * 512 = p.blockSize.toNat := by
    rw [Nat.mod_eq_of_lt hlba, Nat.div_mul_cancel h512]
  simp only [hlen, Nat.zero_add] at hspan
  exact hspan

end

section
variable {p : Params} {device : List UInt8} {s : State} (hdepth : 1 ≤ p.ioDepth)
include hdepth

theorem content_reach (h : Reach (step p) Label.Writes (init device) s) : Content p device s := by
  have hboth : Inv p s ∧ Content p device s := by
    refine h.invariant (P := fun s => Inv p s ∧ Content p device s) ⟨inv_init p device, ?_⟩ ?_
    · refine ⟨rfl, ?_, fun _ _ => rfl, ?_, ?_, ?_⟩ <;> simp [init]
    · intro a b l hl hs hab
      exact ⟨hab.1.step hdepth hs, hab.2.step hab.1 hl hs⟩
  exact hboth.2

theorem covered_iff (h : Reach (step p) (fun l => l.Writes ∧ l.Counts) (init device) s) (hint : p.ioDepth < 2 ^ 31)
    (hgood : p.Good) (hlba : p.nLba.toNat < 2 ^ 32) (hthread : 0 < p.numThread)
    (hret : ∀ t < p.numThread, (s.worker t).pc = .returned) (x : Nat) :
    (∃ c ∈ s.written, c.span.Covers x) ↔ x < p.bytes := by
  have htally := Tallied.reach hdepth (fun _ hl => hl.2) h
  have hcontent := content_reach hdepth (h.mono fun _ hl => hl.1)
  have hsent : ∀ t < p.numThread, (s.worker t).sent = sectors p.nLba (p.count * p.depth) 0 := by
    intro t ht
    have hloop := htally.inv.loops t
    have hplace := hloop.place
    rw [hret t ht] at hplace
    rw [hloop.sent, hplace.1, hplace.2, Nat.add_zero]
  have hchain := sectors_chain hdepth hint hgood hlba
  unfold Params.bytes
  rw [← chain_covers_iff, ← hchain]
  simp only [List.mem_map, exists_exists_and_eq_and]
  constructor
  · rintro ⟨c, hc, hx⟩
    obtain ⟨t, ht, hm⟩ := hcontent.sent c hc
    exact ⟨c, hsent t ht ▸ hm, hx⟩
  · rintro ⟨c, hc, hx⟩
    rw [← hsent 0 hthread] at hc
    rcases hcontent.done 0 c hc with hw | ⟨q, hq, -⟩
    · exact ⟨c, hw, hx⟩
    · -- the first thread has returned and has nothing in its queues
      have hnil := htally.held_eq_nil (.inl (hret 0 hthread))
      have hheld : q ∈ (s.worker 0).held := List.mem_append_left _ hq
      rw [hnil] at hheld
      cases hheld

end

/-- **The device.** When the threads have returned, the controller has executed what
it took, and the calls have counted commands, the device holds `0xff` in the bytes
that one thread writes and what it held before in all others: any number of
threads, in any interleaving, with the commands of each executed in any order. -/
theorem device_filled (p : Params) (hdepth : 1 ≤ p.ioDepth) (hint : p.ioDepth < 2 ^ 31) (hgood : p.Good)
    (hlba : p.nLba.toNat < 2 ^ 32) (hthread : 0 < p.numThread) (device : List UInt8) {s : State}
    (h : Reach (step p) (fun l => l.Writes ∧ l.Counts) (init device) s)
    (hret : ∀ t < p.numThread, (s.worker t).pc = .returned) :
    s.device = List.replicate p.bytes 0xff ++ device.drop p.bytes := by
  have hcov := covered_iff hdepth h hint hgood hlba hthread hret
  have hcontent := content_reach hdepth (h.mono fun _ hl => hl.1)
  apply List.ext_getElem?
  intro x
  by_cases hx : x < p.bytes
  · rw [hcontent.covered x ((hcov x).mpr hx), List.getElem?_append_left (by simpa using hx), List.getElem?_replicate,
      if_pos hx]
  · have hno : ∀ c ∈ s.written, ¬ c.span.Covers x := fun c hc hx' => hx ((hcov x).mp ⟨c, hc, hx'⟩)
    rw [hcontent.other x hno, List.getElem?_append_right (by simpa using hx), List.length_replicate, List.getElem?_drop]
    congr 1
    omega

theorem device_filled_two_threads : ∃ s,
    Reach (step ⟨2, 512, 1024, 2⟩) (fun l => l.Writes ∧ l.Counts) (init (List.replicate 2048 0)) s ∧
      s.device = List.replicate 1024 0xff ++ List.replicate 1024 0 := by
  obtain ⟨s, hrun, hs⟩ : ∃ s,
      Reach (step ⟨2, 512, 1024, 2⟩) (fun l => l.Writes ∧ l.Counts) (init (List.replicate 2048 0)) s ∧
      decide ((s.worker 0).pc = .returned ∧ (s.worker 1).pc = .returned) = true :=
    Reach.of_check twoThreads (by simp [twoThreads, Label.Writes, Label.Counts]) (by decide +kernel)
  obtain ⟨h0, h1⟩ := of_decide_eq_true hs
  have hret : ∀ t < 2, (s.worker t).pc = .returned := by
    intro t ht
    obtain rfl | rfl : t = 0 ∨ t = 1 := by omega
    · exact h0
    · exact h1
  refine ⟨s, hrun, ?_⟩
  rw [device_filled _ (by decide) (by decide) ⟨by decide, by decide, by decide⟩ (by decide) (by decide) _ hrun hret,
    List.drop_replicate]
  rfl

/-! ## A failed poll -/

/-- The count and what may still be added to it do not make up a batch. -/
def Short (p : Params) (w : Worker) : Prop := w.pc = .poll ∧ w.c + w.held.length < p.ioDepth

theorem Short.counted {p : Params} {w : Worker} {num : Int} (hpc : w.pc = .poll)
    (hlt : w.c + num + w.held.length < p.ioDepth) : Short p (w.counted p num) := by
  unfold Worker.counted
  dsimp only
  rw [if_neg (by omega)]
  exact ⟨hpc, hlt⟩

section
variable {p : Params} {s u : State} {t : Nat}

theorem worker_goto {v : Nat} {w : Worker} {P : Worker → Prop} (h : P (s.worker t)) (hw : v = t → P w) :
    P ((s.goto v w).worker t) := by
  by_cases hv : v = t
  · subst hv
    simpa [State.goto] using hw rfl
  · simpa [State.goto, Ne.symm hv] using h

/-- A call that counts less than is missing. -/
theorem Short.polled {w : Worker} {cq done : List Queued} {num : Int} (hpc : w.pc = .poll)
    (hperm : w.held.Perm (done ++ (w.sq ++ cq))) (hlt : w.c + num + w.held.length < p.ioDepth + done.length) :
    Short p (Worker.counted p { w with cq := cq } num) := by
  have hlen := hperm.length_eq
  rw [List.length_append] at hlen
  refine Short.counted (w := { w with cq := cq }) hpc ?_
  simp only [Worker.held] at hlen hlt ⊢
  omega

theorem short_step {l : Label} (hinv : Inv p s) (hl : l.Counts) (hs : step p s l = some u)
    (h : Short p (s.worker t)) : Short p (u.worker t) ∨ u.crash ≠ none := by
  obtain ⟨-, -, hmove⟩ := step_moves hs
  cases hmove with
  | crash l c _ _ => exact .inl h
  | start v hpc =>
    refine .inl (worker_goto h fun hv => ?_)
    subst hv
    cases hpc.symm.trans h.1
  | submit v hpc =>
    refine .inl (worker_goto (s := { s with heap := _, buffs := _ }) h fun hv => ?_)
    subst hv
    cases hpc.symm.trans h.1
  | execute v q ok u hq he =>
    have hposted : Short p ((s.posted v q).worker t) := by
      refine worker_goto h fun hv => ?_
      subst hv
      refine ⟨h.1, ?_⟩
      simpa only [Worker.held, (posted_perm hq).length_eq] using h.2
    rcases hinv.buffers.executed hq (hinv.span_le hq) he with ⟨rfl, _⟩ | ⟨_, _, rfl⟩
    · exact .inl hposted
    · exact .inl hposted
  | overflow v done num w hpc hw _ => exact .inr (by simp [State.crashed])
  | poll v done num w hpc hw =>
    obtain ⟨cq, hworker, hperm⟩ := completedAll_worker hinv hw
    rw [worker_counted hworker]
    refine .inl (worker_goto h fun hv => ?_)
    subst hv
    have hlt := h.2
    have hle := hl.le
    exact Short.polled hpc hperm (by omega)

end

/-- **A failed poll is not made good.** After a call of
`spdk_nvme_qpair_process_completions` that returns an error, its thread polls on,
whatever that call and the later ones complete, as long as the count stays in the
range of `int` and nothing else crashes. -/
theorem poll_error_hangs (p : Params) (hdepth : 1 ≤ p.ioDepth) (device : List UInt8) {s u v : State} {t : Nat}
    {done : List Queued} {num : Int} (hnum : num < 0) (h : Reach (step p) Label.Counts (init device) s)
    (hs : step p s (.poll t done num) = some u) (hv : Reach (step p) Label.Counts u v) (hlive : v.crash = none) :
    (v.worker t).pc = .poll := by
  have htally := Tallied.reach hdepth (fun _ hl => hl) h
  have hstop : Inv p v ∧ (Short p (v.worker t) ∨ v.crash ≠ none) := by
    refine hv.invariant (P := fun x => Inv p x ∧ (Short p (x.worker t) ∨ x.crash ≠ none))
      ⟨htally.inv.step hdepth hs, ?_⟩ ?_
    · obtain ⟨-, -, hmove⟩ := step_moves hs
      cases hmove with
      | crash _ c _ _ => exact .inr (by simp [State.crashed])
      | overflow _ _ _ w _ _ _ => exact .inr (by simp [State.crashed])
      | poll _ _ _ w hpc hw =>
        obtain ⟨cq, hworker, hperm⟩ := completedAll_worker htally.inv hw
        have hle := (htally.tally t).le hpc
        rw [worker_counted hworker, Function.update_self]
        exact .inl (Short.polled hpc hperm (by omega))
    · rintro a b l hl hab ⟨ha, hshort | hcrash⟩
      · exact ⟨ha.step hdepth hab, short_step ha hl hab hshort⟩
      · exact absurd (step_moves hab).1 hcrash
  rcases hstop.2 with hshort | hcrash
  · exact hshort.1
  · exact absurd hlive hcrash

/-- One command, and one failed call before it is executed. -/
theorem poll_error_hangs_once : ∃ s u v, Reach (step ⟨1, 512, 512, 1⟩) Label.Counts (init (List.replicate 512 0)) s ∧
    step ⟨1, 512, 512, 1⟩ s (.poll 0 [] (-6)) = some u ∧ Reach (step ⟨1, 512, 512, 1⟩) Label.Counts u v ∧
    (v.worker 0).held = [] ∧ (v.worker 0).pc = .poll := by
  obtain ⟨s, hrun, hs⟩ : ∃ s, Reach (step ⟨1, 512, 512, 1⟩) Label.Counts (init (List.replicate 512 0)) s ∧
      (runs (step ⟨1, 512, 512, 1⟩) s [.poll 0 [] (-6), .execute 0 ⟨⟨0, 1⟩, 0⟩ true, .poll 0 [⟨⟨0, 1⟩, 0⟩] 1]).any
        (fun v => (v.worker 0).held = [] ∧ v.crash = none) = true :=
    Reach.of_check [.start 0 true, .submit 0 true 0] (by simp [Label.Counts]) (by decide +kernel)
  obtain ⟨v, hv, hend⟩ := (Option.any_eq_true ..).mp hs
  obtain ⟨hheld, hlive⟩ := of_decide_eq_true hend
  obtain ⟨u, hu, hv⟩ := Option.bind_eq_some_iff.mp hv
  have hv : Reach (step ⟨1, 512, 512, 1⟩) Label.Counts u v := .of_runs _ u (by simp [Label.Counts]) hv
  exact ⟨s, u, v, hrun, hu, hv, hheld, poll_error_hangs _ (by decide) _ (by decide) hrun hu hv hlive⟩

end IoTester.IoSpdk

import IoTester.IoSpdkDevice
import Mathlib.Algebra.BigOperators.Group.Finset.Piecewise
import Mathlib.Algebra.Group.Action.Defs

/-!
# The threads of `io_tester/spdk.cc` come to an end

As long as nothing fails and a call returns the number of commands it completes,
a command is sent, executed and completed once, and every other step is a call
that finds no completion. So the steps of a run are bounded, but for those calls,
and no state is a dead end.
-/

namespace IoTester.IoSpdk

open Lib

/-! ## What is left -/

def Worker.load (p : Params) (w : Worker) : Nat :=
  3 * (p.count * p.depth - (w.i * p.depth + w.j)) + 2 * w.sq.length + w.cq.length + if w.pc = .idle then 1 else 0

def State.load (p : Params) (s : State) : Nat := ∑ t ∈ Finset.range p.numThread, (s.worker t).load p

/-- A call counts for the completions that it finds. -/
def Label.work : Label → Nat
  | .poll _ done _ => done.length
  | _ => 1

section
variable {p : Params} {s u : State} {t : Nat} {w : Worker}

theorem load_goto (ht : t < p.numThread) :
    (s.goto t w).load p + (s.worker t).load p = s.load p + w.load p := by
  have hmem := Finset.mem_range.mpr ht
  have hcomp : Worker.load p ∘ (s.goto t w).worker = Function.update (Worker.load p ∘ s.worker) t (w.load p) :=
    Function.comp_update ..
  have hsum : ∀ s : State, s.load p = ∑ v ∈ Finset.range p.numThread, (Worker.load p ∘ s.worker) v := fun _ => rfl
  rw [hsum, hcomp, hsum, Finset.sum_update_of_mem hmem, Finset.sum_eq_add_sum_sdiff_singleton_of_mem hmem
    (Worker.load p ∘ s.worker)]
  simp only [Function.comp]
  omega

theorem load_goto_le {k : Nat} (ht : t < p.numThread) (h : w.load p + k ≤ (s.worker t).load p) :
    (s.goto t w).load p + k ≤ s.load p := by
  have := load_goto (s := s) (w := w) ht
  omega

theorem load_enter (p : Params) (w : Worker) :
    (w.enter p).load p = 3 * (p.count * p.depth - w.i * p.depth) + 2 * w.sq.length + w.cq.length := by
  unfold Worker.enter
  split
  · split <;> simp [Worker.load]
  · simp [Worker.load]

theorem load_begin (h : Loop p w) (hpc : w.pc = .idle) : (w.enter p).load p + 1 = w.load p := by
  obtain ⟨-, hj, -⟩ := (hpc ▸ h.place : w.At p .idle)
  rw [load_enter]
  simp [Worker.load, hpc, hj]

theorem load_sent (h : Loop p w) (hpc : w.pc = .submit) (q : Queued) (pc : Pc) (k : UInt64) (sent : List Cmd)
    (hne : pc ≠ .idle) :
    Worker.load p { w with pc := pc, j := w.j + 1, k := k, sq := w.sq ++ [q], sent := sent } + 1 = w.load p := by
  obtain ⟨hi, hj, -⟩ := (hpc ▸ h.place : w.At p .submit)
  have hbatch : w.i * p.depth + p.depth ≤ p.count * p.depth := by
    have := Nat.mul_le_mul_right p.depth (show w.i + 1 ≤ p.count from hi)
    rwa [Nat.add_mul, Nat.one_mul] at this
  simp only [Worker.load, hpc, hne, if_false, List.length_append, List.length_singleton, reduceCtorEq]
  omega

theorem load_posted {q : Queued} (hq : q ∈ w.sq) :
    Worker.load p { w with sq := w.sq.erase q, cq := w.cq ++ [q] } + 1 = w.load p := by
  have hlen := List.length_erase_of_mem hq
  have hpos := List.length_pos_of_mem hq
  simp only [Worker.load, hlen, List.length_append, List.length_singleton]
  omega

theorem load_counted (hpc : w.pc = .poll) (hj : w.j = p.depth) (num : Int) :
    (w.counted p num).load p = w.load p := by
  unfold Worker.counted
  dsimp only
  split
  · rw [load_enter]
    simp [Worker.load, hpc, hj, Nat.add_mul]
  · rfl

/-! ## Steps -/

/-- A thread that polls has all commands of its batch counted or in flight. -/
def Whole (p : Params) (w : Worker) : Prop := w.pc = .poll → 0 ≤ w.c ∧ w.c + w.held.length = p.ioDepth

theorem whole_enter (hdepth : 1 ≤ p.ioDepth) (w : Worker) : Whole p (w.enter p) := by
  intro hpc
  unfold Worker.enter at hpc
  split at hpc
  · rw [if_pos (by omega)] at hpc
    cases hpc
  · cases hpc

theorem whole_counted (hdepth : 1 ≤ p.ioDepth) {num : Int} (h0 : 0 ≤ w.c + num)
    (h : w.c + num + w.held.length = p.ioDepth) : Whole p (w.counted p num) := by
  unfold Worker.counted
  dsimp only
  split
  · exact whole_enter hdepth _
  · exact fun _ => ⟨h0, h⟩

/-- What holds as long as nothing has failed. -/
structure Exact (p : Params) (s : State) : Prop extends Tallied p s where
  live : s.crash = none
  whole : ∀ t, Whole p (s.worker t)

/-- The count stays in the range of `int`. -/
theorem Exact.count_inRange {num : Int} {done : List Queued} (h : Exact p s) (hint : p.ioDepth < 2 ^ 31)
    (hl : Label.Sound (.poll t done num)) (hpc : (s.worker t).pc = .poll) (hs : completeAll t s done = some u) :
    -2 ^ 31 ≤ (s.worker t).c + num ∧ (s.worker t).c + num < 2 ^ 31 := by
  obtain rfl : num = done.length := hl
  obtain ⟨cq, -, hperm⟩ := completedAll_worker h.inv hs
  have hlen := hperm.length_eq
  rw [List.length_append] at hlen
  obtain ⟨h0, hsum⟩ := h.whole t hpc
  omega

theorem load_step {l : Label} (h : Exact p s) (hint : p.ioDepth < 2 ^ 31) (hgood : p.Good) (hl : l.Sound)
    (hs : step p s l = some u) : u.load p + l.work ≤ s.load p := by
  obtain ⟨-, ht, hmove⟩ := step_moves hs
  cases hmove with
  | crash l c _ hbad => exact absurd hl (hbad hgood)
  | start t hpc => exact load_goto_le ht (Nat.le_of_eq (load_begin (h.inv.loops t) hpc))
  | submit t hpc =>
    refine load_goto_le (s := { s with heap := _, buffs := _ }) ht (Nat.le_of_eq ?_)
    refine load_sent (h.inv.loops t) hpc _ _ _ _ ?_
    split <;> simp
  | execute t q ok u hq he =>
    have hposted : (s.posted t q).load p + 1 ≤ s.load p := load_goto_le ht (Nat.le_of_eq (load_posted hq))
    rcases h.inv.buffers.executed hq (h.inv.span_le hq) he with ⟨rfl, _⟩ | ⟨_, _, rfl⟩
    · exact hposted
    · exact hposted
  | overflow t done num v hpc hv hover => exact absurd (h.count_inRange hint hl hpc hv) hover
  | poll t done num v hpc hv =>
    obtain ⟨cq, hworker, hperm⟩ := completedAll_worker h.inv hv
    have hlen := hperm.length_eq
    simp only [Worker.held, List.length_append] at hlen
    obtain ⟨-, hj, -⟩ := (hpc ▸ (h.inv.loops t).place : (s.worker t).At p .poll)
    have hload : (Worker.counted p { s.worker t with cq := cq } num).load p + done.length ≤ (s.worker t).load p := by
      rw [load_counted (w := { s.worker t with cq := cq }) hpc hj]
      simp only [Worker.load]
      omega
    have hstate : (v.counted p t num).load p = (s.goto t (Worker.counted p { s.worker t with cq := cq } num)).load p := by
      unfold State.load
      rw [worker_counted hworker]
      rfl
    rw [hstate]
    exact load_goto_le ht hload

theorem Exact.step {l : Label} (hdepth : 1 ≤ p.ioDepth) (hint : p.ioDepth < 2 ^ 31) (hgood : p.Good) (hl : l.Sound)
    (hs : IoSpdk.step p s l = some u) (h : Exact p s) : Exact p u := by
  have htally := h.toTallied.step hdepth hl.counts hs
  have hwhole := h.whole
  obtain ⟨-, ht, hmove⟩ := step_moves hs
  cases hmove with
  | crash l c _ hbad => exact absurd hl (hbad hgood)
  | start t hpc => exact ⟨htally, h.live, forall_goto (P := fun _ => Whole p) (whole_enter hdepth _) hwhole⟩
  | submit t hpc =>
    obtain ⟨-, hj, hc, -⟩ := (hpc ▸ (h.inv.loops t).place : (s.worker t).At p .submit)
    have hheld : (s.worker t).held.length = (s.worker t).j := (hpc ▸ h.tally t : (s.worker t).Tallies p .submit)
    refine ⟨htally, h.live, forall_goto (P := fun _ => Whole p) (fun hpoll => ?_) hwhole⟩
    unfold Params.depth at hj
    simp only [Worker.held, List.length_append, List.length_singleton] at hheld ⊢
    dsimp only at hpoll
    split at hpoll
    · cases hpoll
    · omega
  | execute t q ok u hq he =>
    have hposted : ∀ v, Whole p ((s.posted t q).worker v) := by
      refine forall_goto (P := fun _ => Whole p) (fun hpoll => ?_) hwhole
      simpa only [Worker.held, (posted_perm hq).length_eq] using hwhole t hpoll
    rcases h.inv.buffers.executed hq (h.inv.span_le hq) he with ⟨rfl, _⟩ | ⟨_, _, rfl⟩
    · exact ⟨htally, h.live, hposted⟩
    · exact ⟨htally, h.live, hposted⟩
  | overflow t done num v hpc hv hover => exact absurd (h.count_inRange hint hl hpc hv) hover
  | poll t done num v hpc hv =>
    obtain rfl : num = done.length := hl
    obtain ⟨cq, hworker, hperm⟩ := completedAll_worker h.inv hv
    have hlen := hperm.length_eq
    obtain ⟨h0, hsum⟩ := hwhole t hpc
    have hmine : Whole p (Worker.counted p { s.worker t with cq := cq } done.length) := by
      refine whole_counted hdepth (Int.add_nonneg h0 (Int.natCast_nonneg _)) ?_
      simp only [Worker.held, List.length_append] at hlen hsum ⊢
      omega
    refine ⟨htally, ?_, ?_⟩
    · obtain ⟨-, -, cq, hframe⟩ := h.inv.buffers.completedAll hv
      rw [hframe]
      exact h.live
    · rw [worker_counted hworker]
      exact forall_goto (P := fun _ => Whole p) hmine hwhole

/-! ## Going on -/

theorem exact_init (p : Params) (device : List UInt8) : Exact p (init device) :=
  ⟨⟨inv_init p device, fun _ => rfl⟩, rfl, fun _ hpc => by cases hpc⟩

theorem sent_le (h : Loop p w) : w.i * p.depth + w.j ≤ p.count * p.depth := by
  have hplace := h.place
  have hbatch : w.i < p.count → w.i * p.depth + p.depth ≤ p.count * p.depth := by
    intro hi
    have := Nat.mul_le_mul_right p.depth (show w.i + 1 ≤ p.count from hi)
    rwa [Nat.add_mul, Nat.one_mul] at this
  cases hpc : w.pc with
  | idle =>
    rw [hpc] at hplace
    simp [hplace.1, hplace.2.1]
  | submit =>
    rw [hpc] at hplace
    have := hbatch hplace.1
    have := hplace.2.1
    omega
  | poll =>
    rw [hpc] at hplace
    rw [hplace.2.1]
    exact hbatch hplace.1
  | returned =>
    rw [hpc] at hplace
    simp [hplace.1, hplace.2]

/-- Every command fits on a device that has room for what a thread writes. -/
theorem span_end_le (hdepth : 1 ≤ p.ioDepth) (hint : p.ioDepth < 2 ^ 31) (hgood : p.Good)
    (hlba : p.nLba.toNat < 2 ^ 32) (h : Loop p w) {c : Cmd} (hc : c ∈ w.sent) :
    c.span.start + c.span.len ≤ p.bytes := by
  obtain ⟨e, he⟩ := Nat.exists_eq_add_of_le (sent_le h)
  have hall : c ∈ sectors p.nLba (p.count * p.depth) 0 := by
    rw [he, sectors_add, ← h.sent]
    exact List.mem_append_left _ hc
  have hspan : c.span ∈ chain p.blockSize.toNat (p.count * p.depth) := by
    rw [← sectors_chain hdepth hint hgood hlba]
    exact List.mem_map_of_mem hall
  have hlen : 0 < c.span.len := by
    obtain ⟨k, -, hk⟩ := List.mem_map.mp hspan
    rw [← hk]
    exact toNat_pos_iff.mpr hgood.2.1
  exact (tiles_chain _ _).end_le hspan hlen

theorem in_flight (hdepth : 1 ≤ p.ioDepth) (h : Loop p w) (hwhole : Whole p w) (hpc : w.pc = .poll) : w.held ≠ [] := by
  obtain ⟨-, -, hwait, hsum⟩ := (hpc ▸ h.place : w.At p .poll)
  intro hnil
  have hc : w.c = p.ioDepth := by simpa [hnil] using (hwhole hpc).2
  have hne : w.polled w.i ≠ [] := by
    intro e
    rw [e, List.sum_nil] at hsum
    omega
  rw [waits_of_sum hne (by rw [hsum, hc, Int.zero_add])] at hwait
  cases hwait

theorem exists_step (hdepth : 1 ≤ p.ioDepth) (hgood : p.Good) (h : Exact p s) (ht : t < p.numThread)
    (hroom : ∀ q ∈ (s.worker t).sq, q.cmd.span.start + q.cmd.span.len ≤ s.device.length)
    (hret : (s.worker t).pc ≠ .returned) :
    ∃ l : Label, l.Sound ∧ 0 < l.work ∧ (step p s l).isSome = true := by
  cases hpc : (s.worker t).pc with
  | idle =>
    refine ⟨.start t true, rfl, Nat.one_pos, ?_⟩
    simp [step, Label.thread, h.live, ht, hpc, hgood.1, hgood.2]
  | submit =>
    refine ⟨.submit t true 0, ⟨rfl, rfl⟩, Nat.one_pos, ?_⟩
    simp [step, Label.thread, h.live, ht, hpc]
  | poll =>
    have hheld := in_flight hdepth (h.inv.loops t) (h.whole t) hpc
    cases hcq : (s.worker t).cq with
    | cons q cq =>
      refine ⟨.poll t [q] 1, rfl, Nat.one_pos, ?_⟩
      simp [step, Label.thread, h.live, ht, hpc, completeAll, complete, hcq]
    | nil =>
      obtain ⟨q, hq⟩ : ∃ q, q ∈ (s.worker t).sq := by
        refine List.exists_mem_of_ne_nil _ fun e => hheld ?_
        simp [Worker.held, e, hcq]
      have hheap := h.inv.buffers.alloc (t := t) (List.mem_append_left _ hq)
      have hlen := h.inv.span_le hq
      refine ⟨.execute t q true, rfl, Nat.one_pos, ?_⟩
      simp [step, Label.thread, h.live, ht, hpc, hq, execute, hheap, Nat.not_lt.mpr hlen, hroom q hq]
  | returned => exact absurd hpc hret

end

theorem load_init (p : Params) (device : List UInt8) :
    (init device).load p = p.numThread * (3 * (p.count * p.depth) + 1) := by
  have hload : ∀ t, ((init device).worker t).load p = 3 * (p.count * p.depth) + 1 := fun _ => by simp [init, Worker.load]
  simp only [State.load, hload, Finset.sum_const, Finset.card_range, smul_eq_mul]

theorem Label.Sound.writes {l : Label} (h : l.Sound) : l.Writes := by
  cases l with
  | execute t q ok => exact h
  | _ => trivial

/-- **The threads come to an end.** As long as nothing fails, the calls count
commands and the device has room: a run takes `3` steps for each command of each
thread and one to start each thread, at most, not counting the calls that find no
completion; and from whatever state it has come to, all threads can return. -/
theorem threads_end (p : Params) (hdepth : 1 ≤ p.ioDepth) (hint : p.ioDepth < 2 ^ 31) (hgood : p.Good)
    (hlba : p.nLba.toNat < 2 ^ 32) (device : List UInt8) (hroom : p.bytes ≤ device.length) :
    (∀ (ls : List Label) (s : State), (∀ l ∈ ls, l.Sound) → runs (step p) (init device) ls = some s →
      (ls.map Label.work).sum ≤ p.numThread * (3 * (p.count * p.depth) + 1)) ∧
    ∀ s, Reach (step p) Label.Sound (init device) s →
      ∃ u, Reach (step p) Label.Sound s u ∧ u.crash = none ∧ ∀ t < p.numThread, (u.worker t).pc = .returned := by
  constructor
  · intro ls s hls hrun
    have hstep : ∀ {a b : State} {l : Label}, l.Sound → step p a l = some b → Exact p a →
        Exact p b ∧ b.load p + l.work ≤ a.load p := fun hl hs h =>
      ⟨h.step hdepth hint hgood hl hs, load_step h hint hgood hl hs⟩
    have hcost := runs_cost Label.work (State.load p) hstep ls _ hls (exact_init p device) hrun
    rw [load_init] at hcost
    omega
  · intro s h
    have hkeep : ∀ {a b : State} {l : Label}, l.Sound → step p a l = some b →
        Exact p a ∧ Content p device a → Exact p b ∧ Content p device b := fun hl hs hab =>
      ⟨hab.1.step hdepth hint hgood hl hs, hab.2.step hab.1.inv hl.writes hs⟩
    have hs : Exact p s ∧ Content p device s :=
      h.invariant ⟨exact_init p device, content_reach hdepth .refl⟩ hkeep
    have hprogress : ∀ v, Exact p v ∧ Content p device v → ¬ (∀ t < p.numThread, (v.worker t).pc = .returned) →
        ∃ u, Reach (step p) Label.Sound v u ∧ u.load p < v.load p := by
      rintro v ⟨hv, hcontent⟩ hnot
      obtain ⟨t, ht⟩ := not_forall.mp hnot
      obtain ⟨ht, hpc⟩ := Classical.not_imp.mp ht
      have hfit : ∀ q ∈ (v.worker t).sq, q.cmd.span.start + q.cmd.span.len ≤ v.device.length := by
        intro q hq
        rw [hcontent.length]
        exact Nat.le_trans (span_end_le hdepth hint hgood hlba (hv.inv.loops t) (hcontent.queued t q hq)) hroom
      obtain ⟨l, hl, hwork, hsome⟩ := exists_step hdepth hgood hv ht hfit hpc
      obtain ⟨u, hu⟩ := Option.isSome_iff_exists.mp hsome
      have hload := load_step hv hint hgood hl hu
      exact ⟨u, .next .refl hl hu, by omega⟩
    obtain ⟨u, hu, hret⟩ := Reach.exists_done (State.load p) hkeep hprogress hs
    exact ⟨u, hu, (hu.invariant hs hkeep).1.live, hret⟩

theorem threads_end_two_threads :
    (twoThreads.map Label.work).sum ≤ 2 * (3 * (1 * 2) + 1) ∧
    ∃ u, Reach (step ⟨2, 512, 1024, 2⟩) Label.Sound (init (List.replicate 2048 0)) u ∧
      ∀ t < 2, (u.worker t).pc = .returned := by
  have hends := threads_end ⟨2, 512, 1024, 2⟩ (by decide) (by decide) ⟨by decide, by decide, by decide⟩ (by decide)
    (List.replicate 2048 0) (by rw [List.length_replicate]; decide)
  obtain ⟨s, hs⟩ : ∃ s, runs (step ⟨2, 512, 1024, 2⟩) (init (List.replicate 2048 0)) twoThreads = some s :=
    Option.isSome_iff_exists.mp (by decide +kernel)
  obtain ⟨u, hu, -, hret⟩ := hends.2 _ .refl
  exact ⟨hends.1 twoThreads s (by simp [twoThreads, Label.Sound]) hs, u, hu, hret⟩

end IoTester.IoSpdk

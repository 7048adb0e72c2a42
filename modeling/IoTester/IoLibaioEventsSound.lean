import IoTester.IoLibaioEvents
import IoTester.LibaioSound
import IoTester.Lib.Parallel

/-!
# A worker is in step with its batches

Whatever the kernel does, a worker submits the batches of its run with a willing
kernel, in their order, and fills its control blocks only while none of them is
in flight. If the kernel writes every byte, it has executed the batches one after
the other when the worker returns.
-/

namespace IoTester.IoLibaio

open Lib

/-! ## What a step can do -/

inductive Moves (j : Job) (w : Worker) : Label → Worker → Prop
  | empty (memory : Memory) : w.pc = .start → j.opcode = none → Moves j w (.begin memory) { w with pc := .report }
  | divide (memory : Memory) (op : Opcode) : w.pc = .start → j.opcode = some op → j.bytes = 0 →
      Moves j w (.begin memory) { w with pc := .ended .fault }
  | enter (memory : Memory) (op : Opcode) : w.pc = .start → j.opcode = some op → j.bytes ≠ 0 →
      posixMemalign memory j.blockSize j.bytes = true → Moves j w (.begin memory) { w with pc := j.head 0 }
  | buffer (memory : Memory) (op : Opcode) : w.pc = .start → j.opcode = some op → j.bytes ≠ 0 →
      posixMemalign memory j.blockSize j.bytes = false → Moves j w (.begin memory) { w with pc := .ended .crashed }
  | submit (op : Opcode) (ret : Nat) : w.pc = .fill → j.opcode = some op →
      Moves j w (.submit ret) (j.submit op ret w)
  | execute (c : Iocb) (res : Nat) : c ∈ w.flying → Moves j w (.execute c res)
      { w with flying := w.flying.erase c, events := w.events ++ [c], store := (c.cut res).exec w.store }
  | reap (ret : Nat) : w.pc = .wait → ret ≤ w.events.length → ret = j.queueSize.toNat → Moves j w (.getevents ret)
      { w with pc := j.head (w.passes + 1), passes := w.passes + 1, events := w.events.drop ret }
  | interrupt (ret : Nat) : w.pc = .wait → ret ≤ w.events.length → ret ≠ j.queueSize.toNat →
      Moves j w (.getevents ret) { w with pc := .ended .aborted }
  | report : w.pc = .report →
      Moves j w .report { w with pc := .ended (if j.blockSize = 0 then .fault else .returned) }

theorem step_moves {j : Job} {w v : Worker} {l : Label} (h : j.step w l = some v) : Moves j w l v := by
  cases l with
  | begin memory =>
    simp only [Job.step] at h
    split at h
    · rename_i hpc hop
      cases h
      exact .empty memory hpc hop
    · rename_i op hpc hop
      by_cases hz : j.bytes = 0
      · rw [if_pos hz] at h
        cases h
        exact .divide memory op hpc hop hz
      rw [if_neg hz] at h
      cases hm : posixMemalign memory j.blockSize j.bytes with
      | true =>
        rw [if_pos hm] at h
        cases h
        exact .enter memory op hpc hop hz hm
      | false =>
        rw [if_neg (by simp [hm])] at h
        cases h
        exact .buffer memory op hpc hop hz hm
    · cases h
  | submit ret =>
    simp only [Job.step] at h
    split at h
    · rename_i op hpc hop
      cases h
      exact .submit op ret hpc hop
    · cases h
  | execute c res =>
    simp only [Job.step] at h
    split at h
    · rename_i hc
      cases h
      exact .execute c res hc
    · cases h
  | getevents ret =>
    simp only [Job.step] at h
    split at h
    · rename_i hpc
      split at h
      · rename_i hret
        split at h
        · rename_i hq
          cases h
          exact .reap ret hpc hret hq
        · rename_i hq
          cases h
          exact .interrupt ret hpc hret hq
      · cases h
    · cases h
  | report =>
    simp only [Job.step] at h
    split at h
    · rename_i hpc
      cases h
      exact .report hpc
    · cases h

/-! ## Where a worker stands -/

/-- The kernel that takes batches of `q` control blocks and gets all their events. -/
def willing (q : Nat) : Kernel := fun _ => ⟨q, q⟩

/-- All willing kernels give the same run. -/
theorem submitLoop_willing (done : Exit) (op : Opcode) (fd : Int) (bs q : UInt64) :
    ∀ {kernel : Kernel} (n : Nat) (cur : UInt64), kernel.Willing q.toNat →
    submitLoop done op fd bs q kernel n cur = submitLoop done op fd bs q (willing q.toNat) n cur
  | _, 0, _, _ => rfl
  | kernel, n + 1, cur, hw => by
    have hall : ∀ m, q.toNat ≤ m →
        (fillBatch op fd bs q.toNat 0 cur).1.take m = (fillBatch op fd bs q.toNat 0 cur).1 :=
      fun m hm => List.take_of_length_le (by rw [length_fillBatch]; exact hm)
    have ih := submitLoop_willing done op fd bs q n (fillBatch op fd bs q.toNat 0 cur).2 fun i => hw (i + 1)
    simp only [submitLoop, willing, hall _ (hw 0).1, hall _ (Nat.le_refl _), (hw 0).2, ih]
    rfl

/-- The worker on its own, with a kernel that does what it is asked for. -/
def Job.run (j : Job) (memory : Memory) : Run :=
  match j.opcode with
  | none => ⟨[], .returned⟩
  | some op => sequential memory (willing j.queueSize.toNat) op j.ioDepth j.fd j.blockSize j.totalSize

def Job.loop (j : Job) (op : Opcode) (n : Nat) (cur : UInt64) : Run :=
  submitLoop (intExit (j.totalSize / j.bytes)) op j.fd j.blockSize j.queueSize (willing j.queueSize.toNat) n cur

/-- A run whose first batches are known. -/
def Run.from (batches : List (List Iocb)) (r : Run) : Run := ⟨batches ++ r.batches, r.exit⟩

def Worker.Quiet (w : Worker) : Prop := w.flying = [] ∧ w.events = []

/-- Where a worker whose allocator answers with `memory` stands in `j.run memory`.
One that an `assert` has ended has submitted the first control blocks of it. -/
def Worker.Follows (j : Job) (memory : Memory) (w : Worker) : Prop :=
  match w.pc with
  | .start => w.Quiet ∧ w.batches = [] ∧ w.passes = 0 ∧ w.currentCount = 0
  | .fill => w.Quiet ∧ ∃ op n, j.opcode = some op ∧ w.passes + (n + 1) = j.count ∧
      j.run memory = .from w.batches (j.loop op (n + 1) w.currentCount)
  | .wait => ∃ op n done taken, j.opcode = some op ∧ w.passes + (n + 1) = j.count ∧
      w.batches = done ++ [taken] ∧ taken.length = j.queueSize.toNat ∧ (w.flying ++ w.events).Perm taken ∧
      j.run memory = .from w.batches (j.loop op n w.currentCount)
  | .report => w.Quiet ∧ j.run memory = ⟨w.batches, .returned⟩
  | .ended .aborted => w.batches.flatten <+: (j.run memory).batches.flatten
  | .ended e => w.Quiet ∧ (j.run memory = ⟨w.batches, e⟩ ∨ e = .fault ∧ j.blockSize = 0)

section
variable {j : Job} {memory : Memory} {w v : Worker} {l : Label}

/-- The end of a worker that no `assert` has ended. -/
theorem follows_ended {e : Exit} (hq : w.Quiet)
    (hrun : j.run memory = ⟨w.batches, e⟩ ∨ e = .fault ∧ j.blockSize = 0) :
    Worker.Follows j memory { w with pc := .ended e } := by
  cases e with
  | aborted =>
    have hrun := hrun.resolve_right fun h => by cases h.1
    show w.batches.flatten <+: (j.run memory).batches.flatten
    rw [hrun]
  | _ => exact ⟨hq, hrun⟩

theorem follows_head {op : Opcode} {n : Nat} (hq : w.Quiet) (hop : j.opcode = some op) (hn : w.passes + n = j.count)
    (hrun : j.run memory = .from w.batches (j.loop op n w.currentCount)) :
    Worker.Follows j memory { w with pc := j.head w.passes } := by
  cases n with
  | zero =>
    have hdone : j.run memory = ⟨w.batches, intExit (j.totalSize / j.bytes)⟩ := by
      rw [hrun]
      simp [Run.from, Job.loop, submitLoop]
    rw [Job.head, if_neg (by omega)]
    by_cases he : intExit (j.totalSize / j.bytes) = .returned
    · rw [if_pos he]
      rw [he] at hdone
      exact ⟨hq, hdone⟩
    · rw [if_neg he]
      exact follows_ended hq (.inl hdone)
  | succ n =>
    have hpc : j.head w.passes = .fill := if_pos (by omega)
    rw [hpc]
    exact ⟨hq, op, n, hop, hn, hrun⟩

/-- The control blocks of a pass. -/
def Job.batch (j : Job) (op : Opcode) (cur : UInt64) : List Iocb :=
  (fillBatch op j.fd j.blockSize j.queueSize.toNat 0 cur).1

theorem length_batch (j : Job) (op : Opcode) (cur : UInt64) : (j.batch op cur).length = j.queueSize.toNat :=
  length_fillBatch ..

theorem loop_succ (hslots : ¬ slots < j.queueSize.toNat) (op : Opcode) (n : Nat) (cur : UInt64) :
    j.loop op (n + 1) cur =
      .from [j.batch op cur] (j.loop op n (fillBatch op j.fd j.blockSize j.queueSize.toNat 0 cur).2) := by
  have hall : (fillBatch op j.fd j.blockSize j.queueSize.toNat 0 cur).1.take j.queueSize.toNat = j.batch op cur :=
    List.take_of_length_le (by rw [length_fillBatch])
  have hlen := length_batch j op cur
  simp only [Job.loop, submitLoop, willing, if_neg hslots, hall, hlen, and_self, if_true]
  rfl

/-- The batch of one pass, as far as the kernel takes it, comes next in the run. -/
theorem follows_submit {op : Opcode} {n : Nat} (ret : Nat) (hq : w.Quiet) (hop : j.opcode = some op)
    (hn : w.passes + (n + 1) = j.count) (hrun : j.run memory = .from w.batches (j.loop op (n + 1) w.currentCount)) :
    Worker.Follows j memory (j.submit op ret w) := by
  unfold Job.submit
  by_cases hslots : slots < j.queueSize.toNat
  · rw [if_pos hslots]
    have hfault : j.loop op (n + 1) w.currentCount = ⟨[], .fault⟩ := if_pos hslots
    refine follows_ended hq (.inl ?_)
    rw [hrun, hfault, Run.from, List.append_nil]
  · rw [if_neg hslots]
    rw [loop_succ hslots] at hrun
    have hlen := length_batch j op w.currentCount
    change Worker.Follows j memory { w with
      pc := if ((j.batch op w.currentCount).take ret).length = j.queueSize.toNat then .wait else .ended .aborted
      currentCount := (fillBatch op j.fd j.blockSize j.queueSize.toNat 0 w.currentCount).2
      flying := (j.batch op w.currentCount).take ret
      batches := w.batches ++ [(j.batch op w.currentCount).take ret] }
    generalize j.batch op w.currentCount = batch at *
    by_cases htaken : (batch.take ret).length = j.queueSize.toNat
    · have hall : batch.take ret = batch := by
        apply List.take_of_length_le
        rw [List.length_take] at htaken
        omega
      rw [hall, if_pos hlen]
      refine ⟨op, n, w.batches, batch, hop, hn, rfl, hlen, ?_, ?_⟩
      · show (batch ++ w.events).Perm batch
        rw [hq.2, List.append_nil]
      · rw [hrun]
        simp [Run.from]
    · rw [if_neg htaken]
      show (w.batches ++ [batch.take ret]).flatten <+: (j.run memory).batches.flatten
      rw [hrun]
      simp only [Run.from, List.flatten_append, List.flatten_cons, List.flatten_nil, List.append_nil]
      rw [List.prefix_append_right_inj]
      exact (List.take_prefix ret batch).trans (List.prefix_append _ _)

theorem Worker.Follows.busy {c : Iocb} (h : w.Follows j memory) (hc : c ∈ w.flying) :
    w.pc = .wait ∨ w.pc = .ended .aborted := by
  have hbusy : ¬ w.Quiet := fun hq => by simp [hq.1] at hc
  cases hpc : w.pc with
  | wait => simp
  | ended e =>
    cases e with
    | aborted => simp
    | _ =>
      simp only [Worker.Follows, hpc] at h
      exact absurd h.1 hbusy
  | _ =>
    simp only [Worker.Follows, hpc] at h
    exact absurd h.1 hbusy

/-- As many events as control blocks: nothing is left in flight. -/
theorem flying_nil {taken : List Iocb} (hlen : taken.length = j.queueSize.toNat)
    (hperm : (w.flying ++ w.events).Perm taken) (hevents : j.queueSize.toNat ≤ w.events.length) :
    w.flying = [] ∧ w.events.length = j.queueSize.toNat := by
  have htotal := hperm.length_eq
  rw [List.length_append, hlen] at htotal
  exact ⟨List.eq_nil_of_length_eq_zero (by omega), by omega⟩

theorem Worker.Follows.step (hs : j.step w l = some v) (hl : l.From memory) (h : w.Follows j memory) :
    v.Follows j memory := by
  cases step_moves hs with
  | empty m hpc hop =>
    simp only [Worker.Follows, hpc] at h
    refine ⟨h.1, ?_⟩
    simp [Job.run, hop, h.2.1]
  | divide m op hpc hop hz =>
    simp only [Worker.Follows, hpc] at h
    refine follows_ended h.1 (.inl ?_)
    have hrun : j.run memory = ⟨[], .fault⟩ := by
      simp only [Job.run, hop, sequential]
      exact if_pos hz
    rw [hrun, h.2.1]
  | enter m op hpc hop hz hm =>
    cases hl
    simp only [Worker.Follows, hpc] at h
    obtain ⟨hq, hb, hp, hc⟩ := h
    rw [← hp]
    refine follows_head hq hop (by rw [hp, Nat.zero_add]) ?_
    rw [hb, hc]
    simp only [Job.run, hop, sequential, Run.from, Job.loop, List.nil_append]
    exact (if_neg hz).trans (if_pos hm)
  | buffer m op hpc hop hz hm =>
    cases hl
    simp only [Worker.Follows, hpc] at h
    refine follows_ended h.1 (.inl ?_)
    have hrun : j.run memory = ⟨[], .crashed⟩ := by
      simp only [Job.run, hop, sequential]
      exact (if_neg hz).trans (if_neg (Bool.eq_false_iff.mp hm))
    rw [hrun, h.2.1]
  | submit op ret hpc hop =>
    simp only [Worker.Follows, hpc] at h
    obtain ⟨hq, op', n, hop', hn, hrun⟩ := h
    obtain rfl : op' = op := Option.some.inj (hop'.symm.trans hop)
    exact follows_submit ret hq hop hn hrun
  | execute c res hc =>
    have hpc := h.busy hc
    unfold Worker.Follows at h ⊢
    rcases hpc with hpc | hpc
    · simp only [hpc] at h ⊢
      obtain ⟨op, n, done, taken, hop, hn, hb, hlen, hperm, hrun⟩ := h
      refine ⟨op, n, done, taken, hop, hn, hb, hlen, ?_, hrun⟩
      refine .trans ?_ hperm
      rw [← List.append_assoc]
      refine List.perm_append_comm.trans ?_
      exact (List.perm_cons_erase hc).symm.append_right w.events
    · simpa only [hpc] using h
  | reap ret hpc hret hq =>
    simp only [Worker.Follows, hpc] at h
    obtain ⟨op, n, done, taken, hop, hn, hb, hlen, hperm, hrun⟩ := h
    obtain ⟨hnone, hevents⟩ := flying_nil hlen hperm (hq ▸ hret)
    exact follows_head (w := { w with passes := w.passes + 1, events := w.events.drop ret })
      ⟨hnone, List.drop_of_length_le (by omega)⟩ hop (by dsimp only; omega) hrun
  | interrupt ret hpc _ _ =>
    simp only [Worker.Follows, hpc] at h
    obtain ⟨op, n, done, taken, hop, hn, hb, hlen, hperm, hrun⟩ := h
    show w.batches.flatten <+: (j.run memory).batches.flatten
    rw [hrun]
    simp [Run.from]
  | report hpc =>
    simp only [Worker.Follows, hpc] at h
    by_cases hz : j.blockSize = 0
    · rw [if_pos hz]
      exact follows_ended h.1 (.inr ⟨rfl, hz⟩)
    · rw [if_neg hz]
      exact follows_ended h.1 (.inl h.2)

/-- Whatever the allocator answers, the worker follows some answer: before its first
step all of them, then the one that it got. -/
theorem exists_follows_step (hs : j.step w l = some v) (h : ∃ memory, w.Follows j memory) :
    ∃ memory, v.Follows j memory := by
  obtain ⟨memory, h⟩ := h
  cases l with
  | begin m =>
    have hstart : w.pc = .start := by cases step_moves hs <;> assumption
    refine ⟨m, Worker.Follows.step hs rfl ?_⟩
    simp only [Worker.Follows, hstart] at h ⊢
    exact h
  | _ => exact ⟨memory, h.step hs trivial⟩

end

/-! ## What the kernel has executed -/

theorem executes_snoc {batch order : List Iocb} (hperm : order.Perm batch) : ∀ {done : List (List Iocb)} {s m : Store},
    Executes done s m → Executes (done ++ [batch]) s (order.foldl Iocb.exec m)
  | [], s, m, h => ⟨order, hperm, by rw [show m = s from h]; rfl⟩
  | b :: done, s, m, ⟨o, ho, h⟩ => ⟨o, ho, executes_snoc hperm h⟩

/-- The store of a worker whose control blocks were all executed in full. -/
def Worker.Stored (s : Store) (w : Worker) : Prop :=
  match w.pc with
  | .wait => ∃ done taken m, w.batches = done ++ [taken] ∧ Executes done s m ∧ w.store = w.events.foldl Iocb.exec m
  | .ended .aborted => True
  | _ => Executes w.batches s w.store

theorem cut_eq {c : Iocb} {res : Nat} (h : c.nbytes.toNat ≤ res) : c.cut res = c := by
  unfold Iocb.cut
  rw [Nat.min_eq_right h, UInt64.ofNat_toNat]

theorem stored_ended {w : Worker} {s : Store} (e : Exit) (h : Executes w.batches s w.store) :
    Worker.Stored s { w with pc := .ended e } := by
  cases e with
  | aborted => trivial
  | _ => exact h

theorem stored_head {j : Job} {w : Worker} {s : Store} (n : Nat) (h : Executes w.batches s w.store) :
    Worker.Stored s { w with pc := j.head n } := by
  unfold Job.head
  split
  · exact h
  · split
    · exact h
    · exact stored_ended _ h

theorem Worker.Stored.step {j : Job} {memory : Memory} {s : Store} {w v : Worker} {l : Label} (hl : l.Complete)
    (hs : j.step w l = some v) (hw : w.Follows j memory) (h : w.Stored s) : v.Stored s := by
  cases step_moves hs with
  | empty _ hpc _ =>
    simp only [Worker.Stored, hpc] at h
    exact h
  | divide _ _ hpc _ _ =>
    simp only [Worker.Stored, hpc] at h
    exact stored_ended _ h
  | enter _ op hpc _ _ _ =>
    simp only [Worker.Stored, hpc] at h
    exact stored_head 0 h
  | buffer _ _ hpc _ _ _ =>
    simp only [Worker.Stored, hpc] at h
    exact stored_ended _ h
  | submit op ret hpc _ =>
    simp only [Worker.Stored, hpc] at h
    simp only [Worker.Follows, hpc] at hw
    unfold Job.submit
    split
    · exact stored_ended _ h
    · dsimp only
      split
      · refine ⟨w.batches, _, w.store, rfl, h, ?_⟩
        show w.store = w.events.foldl Iocb.exec w.store
        rw [hw.1.2]
        rfl
      · trivial
  | execute c res hc =>
    have hpc := hw.busy hc
    rw [cut_eq hl]
    unfold Worker.Stored at h ⊢
    rcases hpc with hpc | hpc
    · simp only [hpc] at h ⊢
      obtain ⟨done, taken, m, hb, hdone, hstore⟩ := h
      refine ⟨done, taken, m, hb, hdone, ?_⟩
      rw [hstore, List.foldl_append]
      rfl
    · simp only [hpc]
  | reap ret hpc hret hq =>
    simp only [Worker.Follows, hpc] at hw
    simp only [Worker.Stored, hpc] at h
    obtain ⟨op, n, done, taken, hop, hn, hb, hlen, hperm, hrun⟩ := hw
    obtain ⟨done', taken', m, hb', hdone, hstore⟩ := h
    obtain ⟨rfl, ht⟩ := List.append_inj' (hb.symm.trans hb') rfl
    cases ht
    rw [(flying_nil hlen hperm (hq ▸ hret)).1] at hperm
    refine stored_head (w := { w with passes := _, events := _ }) _ ?_
    show Executes w.batches s w.store
    rw [hb, hstore]
    exact executes_snoc hperm hdone
  | interrupt _ _ _ _ => trivial
  | report hpc =>
    simp only [Worker.Stored, hpc] at h
    exact stored_ended _ h

end IoTester.IoLibaio

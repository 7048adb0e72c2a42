import IoTester.CommandLineSound
import IoTester.IoLibaioEventsSound
import Mathlib.Data.List.FinRange

/-!
# The libaio program as a whole

`main` prepares the files and starts the threads. The threads share nothing but
the process: each has a file, a context and a buffer of its own, and an `assert`
that fails in one of them ends all.
-/

namespace IoTester.IoLibaio

open Lib

def Args.job (a : Args) (openFile : Text → Int) (i : Nat) : Job :=
  ⟨(Workload.ofType a.type.toInt).bind opcodeOf, a.ioDepth.toInt, openFile (fileName a.path i), a.blockSize, a.totalSize⟩

section
variable (a : Args) (openFile : Text → Int) (allocated : Text → Bool) (disk : Text → Option (List UInt8))

def Args.prepared (i : Nat) : List UInt8 :=
  prepareFile (allocated (fileName a.path i)) a.totalSize (disk (fileName a.path i))

abbrev Args.Threads : Type := Process (Fin a.numThread.toInt.toNat) Worker

/-- The threads before their first step. -/
def Args.start : a.Threads :=
  { part := fun i => { store := initial a.ioDepth.toInt a.blockSize (a.prepared allocated disk i) } }

def Args.step : a.Threads → Fin a.numThread.toInt.toNat × Label → Option a.Threads :=
  Process.step (fun i => (a.job openFile i).step) Worker.crashed

theorem follows_start (j : Job) (memory : Memory) (s : Store) : Worker.Follows j memory { store := s } := by
  exact ⟨⟨rfl, rfl⟩, rfl, rfl, rfl⟩

variable {a openFile allocated disk} {memory : Nat → Memory} {kernel : Nat → Kernel} {s : a.Threads}
  {i : Fin a.numThread.toInt.toNat}

theorem follows_reach (h : Reach (a.step openFile) (fun l => l.2.From (memory l.1)) (a.start allocated disk) s) :
    (s.part i).Follows (a.job openFile i) (memory i) :=
  (Process.reach_part h i).invariant (follows_start _ _ _) fun hl hs hw => hw.step hs hl

/-- Whatever the allocator answers, the thread follows its answer, and its store
holds what the batches have written. -/
theorem stored_reach {ok : Fin a.numThread.toInt.toNat × Label → Prop} (hok : ∀ l, ok l → l.2.Complete)
    (h : Reach (a.step openFile) ok (a.start allocated disk) s) :
    (∃ m, (s.part i).Follows (a.job openFile i) m) ∧
      (s.part i).Stored (initial a.ioDepth.toInt a.blockSize (a.prepared allocated disk i)) :=
  (Process.reach_part h i).invariant
    (P := fun w => (∃ m, w.Follows (a.job openFile i) m) ∧
      w.Stored (initial a.ioDepth.toInt a.blockSize (a.prepared allocated disk i)))
    ⟨⟨none, follows_start _ _ _⟩, rfl⟩
    fun hl hs hw => ⟨exists_follows_step hs hw.1, hw.2.step (hok _ hl) hs hw.1.choose_spec⟩

/-! ## `main` -/

def Args.queueSize (a : Args) : Nat := (UInt64.ofInt a.ioDepth.toInt).toNat

def Args.count (a : Args) : Nat := intPasses (a.totalSize / (a.blockSize * UInt64.ofInt a.ioDepth.toInt))

/-- With a willing kernel a thread of `main` is its job on its own. -/
theorem run_job {k : Kernel} (hk : k.Willing a.queueSize) (m : Memory) (openFile : Text → Int) (i : Nat) :
    dispatch m k a.type.toInt a.ioDepth.toInt (openFile (fileName a.path i)) a.blockSize a.totalSize =
      (a.job openFile i).run m := by
  have hloop : ∀ op, sequential m k op a.ioDepth.toInt (openFile (fileName a.path i)) a.blockSize a.totalSize =
      sequential m (willing a.queueSize) op a.ioDepth.toInt (openFile (fileName a.path i)) a.blockSize a.totalSize := by
    intro op
    simp only [sequential, submitLoop_willing _ _ _ _ _ _ _ hk]
    rfl
  unfold Job.run Args.job dispatch
  cases Workload.ofType a.type.toInt with
  | none => rfl
  | some w =>
    cases w with
    | DO_RW => rfl
    | DO_SW => exact hloop _
    | DO_RR => rfl
    | DO_SR => exact hloop _

/-- What a thread without a fault did: the report divided by its block size. -/
theorem benchmark_eq {ioDepth : Int32} {o : ThreadOptions} {run : Run}
    (h : benchmark memory kernel openFile ioDepth o = .ok run) :
    run = dispatch (memory o.threadId) (kernel o.threadId) o.type.toInt ioDepth.toInt
      (openFile (fileName o.path o.threadId)) o.blockSize o.totalSize ∧ run.exit ≠ .fault ∧ o.blockSize ≠ 0 := by
  have hzero : o.blockSize = 0 → (dispatch (memory o.threadId) (kernel o.threadId) o.type.toInt ioDepth.toInt
      (openFile (fileName o.path o.threadId)) o.blockSize o.totalSize).exit ∈ [Exit.fault, .returned] := by
    intro hb
    rw [dispatch_eq]
    split
    · rw [(sequential_fault_iff ..).mpr (.inl (by rw [hb, UInt64.zero_mul]))]
      simp
    · simp
  unfold benchmark at h
  obtain ⟨file, hfile, h⟩ := Lib.bind_eq_ok.mp h
  rw [store_ok (lt_of_store hfile)] at hfile
  cases hfile
  dsimp only at h
  generalize dispatch (memory o.threadId) (kernel o.threadId) o.type.toInt ioDepth.toInt
    (openFile (fileName o.path o.threadId)) o.blockSize o.totalSize = r at *
  cases hexit : r.exit with
  | fault =>
    rw [hexit] at h
    cases h
  | returned =>
    rw [hexit] at h
    dsimp only at h
    split at h
    · cases h
    · rename_i hb
      cases h
      exact ⟨rfl, by simp [hexit], hb⟩
  | _ =>
    rw [hexit] at h
    cases h
    refine ⟨rfl, by simp [hexit], fun hb => ?_⟩
    have hmem := hzero hb
    simp [hexit] at hmem

section
variable {argv : List Text} {runs : List Run} (hargc : 7 ≤ argv.length) (hparse : parse argv = .ok a)
  (hmain : main memory kernel openFile argv = .ok runs)
include hargc hparse hmain

theorem blockSize_ne (i : Fin a.numThread.toInt.toNat) : a.blockSize ≠ 0 := by
  obtain ⟨-, hruns⟩ := (main_eq_ok_iff hargc hparse).mp hmain
  obtain ⟨run, -, hrun⟩ := Lib.ok_of_mapM hruns (List.mem_range.mpr i.isLt)
  exact (benchmark_eq hrun).2.2

/-- With a willing kernel, thread `i` of `main` is its job on its own. -/
theorem run_of_main (hwilling : ∀ i, (kernel i).Willing a.queueSize) (i : Fin a.numThread.toInt.toNat) :
    runs[i.val]? = some ((a.job openFile i).run (memory i)) ∧ ((a.job openFile i).run (memory i)).exit ≠ .fault := by
  obtain ⟨-, hruns⟩ := (main_eq_ok_iff hargc hparse).mp hmain
  have hi := congrArg (fun l => l[i.val]?) (Lib.mapM_eq_ok.mp hruns)
  simp only [List.getElem?_map, List.getElem?_range i.isLt, Option.map_some] at hi
  obtain ⟨run, hrun, hok⟩ := Option.map_eq_some_iff.mp hi.symm
  obtain ⟨heq, hfault, -⟩ := benchmark_eq hok.symm
  obtain rfl := heq.trans (run_job (hwilling i) (memory i) openFile i)
  exact ⟨hrun, hfault⟩

end

/-! ## Every thread can return -/

/-- What a worker still has to do; once an `assert` has failed, what is in flight. -/
def Worker.left (j : Job) (w : Worker) : Nat :=
  match w.pc with
  | .start => j.count * (j.queueSize.toNat + 2) + 2
  | .fill => (j.count - w.passes) * (j.queueSize.toNat + 2) + 1
  | .wait => (j.count - w.passes - 1) * (j.queueSize.toNat + 2) + w.flying.length + 2
  | .report => 1
  | .ended _ => w.flying.length

section
variable {j : Job} {m : Memory} {w v : Worker} {l : Label}

theorem left_head {n : Nat} (hn : w.passes = n) (hflying : w.flying = []) :
    Worker.left j { w with pc := j.head n } ≤ (j.count - n) * (j.queueSize.toNat + 2) + 1 := by
  subst hn
  unfold Job.head
  split
  · exact Nat.le_refl _
  · split
    · exact Nat.le_add_left ..
    · simp [Worker.left, hflying]

theorem left_submit {op : Opcode} {n ret : Nat} (hq : w.Quiet) (hn : w.passes + (n + 1) = j.count) :
    (j.submit op ret w).left j < n * (j.queueSize.toNat + 2) + j.queueSize.toNat + 3 := by
  unfold Job.submit
  split
  · simp [Worker.left, hq.1]
  · have htaken : ((j.batch op w.currentCount).take ret).length ≤ j.queueSize.toNat := by
      rw [List.length_take, length_batch]
      exact Nat.min_le_right ..
    change Worker.left j { w with
      pc := if ((j.batch op w.currentCount).take ret).length = j.queueSize.toNat then .wait else .ended .aborted
      currentCount := _
      flying := (j.batch op w.currentCount).take ret
      batches := _ } < _
    split
    · simp only [Worker.left]
      rw [show j.count - w.passes - 1 = n by omega]
      omega
    · simp only [Worker.left]
      omega

theorem left_lt (hs : j.step w l = some v) (hw : w.Follows j m) : v.left j < w.left j := by
  cases step_moves hs with
  | empty _ hpc _ => simp [Worker.left, hpc]
  | divide _ _ hpc _ _ =>
    simp only [Worker.Follows, hpc] at hw
    simp [Worker.left, hpc, hw.1.1]
  | enter _ op hpc _ _ _ =>
    simp only [Worker.Follows, hpc] at hw
    refine Nat.lt_of_le_of_lt (left_head hw.2.2.1 hw.1.1) ?_
    simp [Worker.left, hpc]
  | buffer _ _ hpc _ _ _ =>
    simp only [Worker.Follows, hpc] at hw
    simp [Worker.left, hpc, hw.1.1]
  | submit op ret hpc _ =>
    simp only [Worker.Follows, hpc] at hw
    obtain ⟨hq, -, n, -, hn, -⟩ := hw
    have hleft : w.left j = n * (j.queueSize.toNat + 2) + j.queueSize.toNat + 3 := by
      simp only [Worker.left, hpc]
      rw [show j.count - w.passes = n + 1 by omega, Nat.add_mul, Nat.one_mul]
      rfl
    rw [hleft]
    exact left_submit hq hn
  | execute c res hc =>
    have hpos := List.length_pos_of_mem hc
    have hlen := List.length_erase_of_mem hc
    rcases hw.busy hc with hpc | hpc
    all_goals
      simp only [Worker.left, hpc]
      omega
  | reap ret hpc hret hq =>
    have hnone : w.flying = [] := by
      simp only [Worker.Follows, hpc] at hw
      obtain ⟨-, -, -, taken, -, -, -, hlen, hperm, -⟩ := hw
      exact (flying_nil hlen hperm (hq ▸ hret)).1
    refine Nat.lt_of_le_of_lt (left_head (w := { w with passes := _, events := _ }) rfl hnone) ?_
    simp only [Worker.left, hpc, Nat.sub_sub]
    omega
  | interrupt ret hpc _ _ =>
    simp only [Worker.left, hpc]
    omega
  | report hpc =>
    simp only [Worker.Follows, hpc] at hw
    simp [Worker.left, hpc, hw.1.1]

/-- No worker is stuck before its end. -/
theorem exists_step (hw : w.Follows j m) (hpc : ∀ e, w.pc ≠ .ended e) :
    ∃ l : Label, (l.Willing j.queueSize.toNat ∧ l.From m ∧ l.Complete) ∧ (j.step w l).isSome = true := by
  cases h : w.pc with
  | start =>
    refine ⟨.begin m, ⟨trivial, rfl, trivial⟩, ?_⟩
    cases hop : j.opcode with
    | none => simp [Job.step, h, hop]
    | some op =>
      simp only [Job.step, h, hop]
      split
      · rfl
      · split <;> rfl
  | fill =>
    simp only [Worker.Follows, h] at hw
    obtain ⟨-, op, n, hop, -, -⟩ := hw
    exact ⟨.submit j.queueSize.toNat, ⟨Nat.le_refl _, trivial, trivial⟩, by simp [Job.step, h, hop]⟩
  | wait =>
    simp only [Worker.Follows, h] at hw
    obtain ⟨op, n, done, taken, -, -, -, hlen, hperm, -⟩ := hw
    cases hf : w.flying with
    | cons c rest =>
      exact ⟨.execute c c.nbytes.toNat, ⟨trivial, trivial, Nat.le_refl _⟩, by simp [Job.step, hf]⟩
    | nil =>
      have hevents : w.events.length = j.queueSize.toNat := by
        rw [← hlen, ← hperm.length_eq, hf]
        rfl
      exact ⟨.getevents j.queueSize.toNat, ⟨rfl, trivial, trivial⟩, by simp [Job.step, h, hevents]⟩
  | report => exact ⟨.report, ⟨trivial, trivial, trivial⟩, by simp [Job.step, h]⟩
  | ended e => exact absurd h (hpc e)

/-- A willing kernel fails no `assert`. -/
theorem not_aborted (hl : l.Willing j.queueSize.toNat) (hs : j.step w l = some v) (hpc : w.pc ≠ .ended .aborted) :
    v.pc ≠ .ended .aborted := by
  have hexit : intExit (j.totalSize / j.bytes) ≠ .aborted := by
    unfold intExit
    split <;> simp
  have hhead : ∀ n, j.head n ≠ .ended .aborted := by
    intro n
    unfold Job.head
    split
    · simp
    · split
      · simp
      · simpa using hexit
  cases step_moves hs with
  | submit op ret _ _ =>
    unfold Job.submit
    split
    · simp
    · have hall : (fillBatch op j.fd j.blockSize j.queueSize.toNat 0 w.currentCount).1.take ret =
          (fillBatch op j.fd j.blockSize j.queueSize.toNat 0 w.currentCount).1 :=
        List.take_of_length_le (by rw [length_fillBatch]; exact hl)
      simp [hall, length_fillBatch]
  | interrupt ret _ _ hne => exact absurd hl hne
  | enter => exact hhead 0
  | reap => exact hhead _
  | execute c res _ => exact hpc
  | report _ =>
    dsimp only
    split <;> simp
  | _ => simp

/-- A worker that no `assert` has ended, and whose run returns, has returned if it
has ended. -/
theorem returned_of_ended (hreturns : (j.run m).exit = .returned) (hb : j.blockSize ≠ 0) (hw : w.Follows j m)
    (hpc : w.pc ≠ .ended .aborted) {e : Exit} (he : w.pc = .ended e) : e = .returned := by
  simp only [Worker.Follows, he] at hw
  cases e with
  | aborted => exact absurd he hpc
  | _ =>
    have hrun := hw.2.resolve_right fun h => hb h.2
    exact (congrArg Run.exit hrun).symm.trans hreturns

theorem not_crashed (hreturns : (j.run m).exit = .returned) (hb : j.blockSize ≠ 0) (hw : w.Follows j m)
    (hpc : w.pc ≠ .ended .aborted) : w.crashed = false := by
  unfold Worker.crashed
  split
  · rename_i e he
    simp [returned_of_ended hreturns hb hw hpc he]
  · rfl

end

section
variable {argv : List Text} {runs : List Run} (hargc : 7 ≤ argv.length) (hparse : parse argv = .ok a)
  (hmain : main memory kernel openFile argv = .ok runs) (hwilling : ∀ i, (kernel i).Willing a.queueSize)
  (hreturns : ∀ run ∈ runs, run.exit = .returned)
include hargc hparse hmain hwilling hreturns

theorem threads_can_return {ok : Fin a.numThread.toInt.toNat × Label → Prop}
    (hlabels : ∀ l, ok l → l.2.Willing a.queueSize ∧ l.2.From (memory l.1))
    (hok : ∀ l, l.2.Willing a.queueSize ∧ l.2.From (memory l.1) ∧ l.2.Complete → ok l)
    (h : Reach (a.step openFile) ok (a.start allocated disk) s) :
    s.down = false ∧ ∃ u, Reach (a.step openFile) ok s u ∧ ∀ i, (u.part i).pc = .ended .returned := by
  have hexit : ∀ i : Fin a.numThread.toInt.toNat, ((a.job openFile i).run (memory i)).exit = .returned := fun i =>
    hreturns _ (List.mem_of_getElem? (run_of_main hargc hparse hmain hwilling i).1)
  have hb : ∀ i : Fin a.numThread.toInt.toNat, (a.job openFile i).blockSize ≠ 0 := blockSize_ne hargc hparse hmain
  have hkeep : ∀ ⦃i : Fin a.numThread.toInt.toNat⦄ ⦃w : Worker⦄ ⦃l : Label⦄ ⦃v : Worker⦄, ok (i, l) →
      (a.job openFile i).step w l = some v →
      (w.Follows (a.job openFile i) (memory i) ∧ w.pc ≠ .ended .aborted) →
      v.Follows (a.job openFile i) (memory i) ∧ v.pc ≠ .ended .aborted :=
    fun i _ l _ hl hs hw => ⟨hw.1.step hs (hlabels _ hl).2, not_aborted (j := a.job openFile i) (hlabels _ hl).1 hs hw.2⟩
  have hsafe : ∀ ⦃i : Fin a.numThread.toInt.toNat⦄ ⦃w : Worker⦄,
      (w.Follows (a.job openFile i) (memory i) ∧ w.pc ≠ .ended .aborted) → w.crashed = false :=
    fun i _ hw => not_crashed (hexit i) (hb i) hw.1 hw.2
  have hmove : ∀ (i : Fin a.numThread.toInt.toNat) (w : Worker),
      (w.Follows (a.job openFile i) (memory i) ∧ w.pc ≠ .ended .aborted) → ¬ w.pc = .ended .returned →
      ∃ l v, ok (i, l) ∧ (a.job openFile i).step w l = some v ∧
        v.left (a.job openFile i) < w.left (a.job openFile i) := by
    intro i w hw hpc
    have hopen : ∀ e, w.pc ≠ .ended e := by
      intro e he
      rw [returned_of_ended (hexit i) (hb i) hw.1 hw.2 he] at he
      exact hpc he
    obtain ⟨l, hl, hs⟩ := exists_step hw.1 hopen
    obtain ⟨v, hs⟩ := Option.isSome_iff_exists.mp hs
    exact ⟨l, v, hok (i, l) hl, hs, left_lt hs hw.1⟩
  have hstart : ∀ i : Fin a.numThread.toInt.toNat,
      ((a.start allocated disk).part i).Follows (a.job openFile i) (memory i) ∧
        ((a.start allocated disk).part i).pc ≠ .ended .aborted :=
    fun i => ⟨follows_start _ _ _, by simp [Args.start]⟩
  have hup := Process.keeps hkeep hsafe h ⟨rfl, hstart⟩
  obtain ⟨u, hu, hall⟩ := Process.exists_end hkeep hsafe (fun i w => w.left (a.job openFile i))
    (fun _ w => w.pc = .ended .returned) hmove hup (List.finRange a.numThread.toInt.toNat)
  exact ⟨hup.1, u, hu, fun i => hall i (List.mem_finRange i)⟩

/-- **No thread hangs.** Where every worker of `main` returns, a kernel that takes
all it is given and a wait that no signal interrupts keep the process up: from
every state in which it can be, all threads can return. No run goes on for longer
than the batches of all threads take, whatever the allocator and the kernel
answer. -/
theorem all_return (allocated : Text → Bool) (disk : Text → Option (List UInt8)) :
    (∀ s, Reach (a.step openFile) (fun l => l.2.Willing a.queueSize ∧ l.2.From (memory l.1))
        (a.start allocated disk) s →
      s.down = false ∧ ∃ u, Reach (a.step openFile) (fun l => l.2.Willing a.queueSize ∧ l.2.From (memory l.1)) s u ∧
        ∀ i, (u.part i).pc = .ended .returned) ∧
    ∀ ls u, Lib.runs (a.step openFile) (a.start allocated disk) ls = some u →
      ls.length ≤ a.numThread.toInt.toNat * (a.count * (a.queueSize + 2) + 2) := by
  refine ⟨fun s h => threads_can_return hargc hparse hmain hwilling hreturns (fun _ hl => hl)
    (fun _ hl => ⟨hl.1, hl.2.1⟩) h, fun ls u hls => ?_⟩
  have hkeep : ∀ {i : Fin a.numThread.toInt.toNat} {p : Worker} {l : Label} {q : Worker},
      (a.job openFile i).step p l = some q → (∃ m, p.Follows (a.job openFile i) m) →
      (∃ m, q.Follows (a.job openFile i) m) ∧ q.left (a.job openFile i) < p.left (a.job openFile i) :=
    fun hs hw => ⟨exists_follows_step hs hw, left_lt hs hw.choose_spec⟩
  have hlen := Process.length_le (fun i p => p.left (a.job openFile i)) hkeep
    (fun i => ⟨⟨none, follows_start _ _ _⟩, Nat.le_refl (a.count * (a.queueSize + 2) + 2)⟩) hls
  rwa [Fintype.card_fin] at hlen

end

end

/-- Two threads that write `1 MiB` each, in batches of two blocks. -/
def twoThreads : List Text :=
  [['a'], ['2'], ['/', 'd'], ['2'], ['2'], ['2', '6', '2', '1', '4', '4'], ['1']]

def twoArgs : Args := ⟨2, ['/', 'd'], 2, 2, 262144, 1048576⟩

/-- Each thread has a buffer and a kernel that takes its two blocks. -/
def twoRuns : List Run :=
  [doSeqwrite (some 262144) (willing 2) 2 3 262144 1048576, doSeqwrite (some 262144) (willing 2) 2 3 262144 1048576]

theorem parse_twoThreads : parse twoThreads = .ok twoArgs := by decide +kernel

theorem main_twoThreads : main (fun _ => some 262144) (fun _ => willing 2) (fun _ => 3) twoThreads = .ok twoRuns := by
  decide +kernel

theorem willing_twoThreads : ∀ _ : Nat, (willing 2).Willing twoArgs.queueSize :=
  fun _ _ => ⟨Nat.le_refl _, rfl⟩

theorem all_return_two_threads :
    (∀ run ∈ twoRuns, run.exit = .returned) ∧
      ∃ u, Reach (twoArgs.step fun _ => 3) (fun l => l.2.Willing twoArgs.queueSize ∧ l.2.From (some 262144))
        (twoArgs.start (fun _ => true) fun _ => none) u ∧ ∀ i, (u.part i).pc = .ended .returned :=
  have hreturns : ∀ run ∈ twoRuns, run.exit = .returned := by decide +kernel
  ⟨hreturns, ((all_return (by decide) parse_twoThreads main_twoThreads willing_twoThreads hreturns _ _).1 _ .refl).2⟩

theorem exists_twoThreads_returned :
    ∃ u, Reach (twoArgs.step fun _ => 3)
        (fun l => l.2.Willing twoArgs.queueSize ∧ l.2.From (some 262144) ∧ l.2.Complete)
        (twoArgs.start (fun _ => true) fun _ => none) u ∧ ∀ i, (u.part i).pc = .ended .returned :=
  (threads_can_return (by decide) parse_twoThreads main_twoThreads willing_twoThreads (by decide +kernel)
    (fun _ hl => ⟨hl.1, hl.2.1⟩) (fun _ hl => hl) .refl).2

/-! ## The batches of a run -/

/-- **Refinement.** Let `main` have no fault, and each of its runs the batches that a
willing kernel takes. Whatever the kernel does and however the threads
interleave, a thread submits its control blocks in the order of these batches,
and fills control blocks only while none of its own is in flight. It ends without
a fault, and as its run does, unless an `assert` on a system call fails. -/
theorem refines_main {a : Args} {memory : Nat → Memory} {kernel : Nat → Kernel} {openFile : Text → Int}
    {allocated : Text → Bool} {disk : Text → Option (List UInt8)} {argv : List Text} {runs : List Run}
    (hargc : 7 ≤ argv.length) (hparse : parse argv = .ok a) (hmain : main memory kernel openFile argv = .ok runs)
    (hwilling : ∀ i, (kernel i).Willing a.queueSize) {s : a.Threads}
    (h : Reach (a.step openFile) (fun l => l.2.From (memory l.1)) (a.start allocated disk) s)
    {i : Fin a.numThread.toInt.toNat} {run : Run} (hi : runs[i.val]? = some run) :
    (s.part i).batches.flatten <+: run.batches.flatten ∧
      ((s.part i).pc = .fill → (s.part i).flying = [] ∧ (s.part i).events = []) ∧
      ∀ e, (s.part i).pc = .ended e →
        e ≠ .fault ∧ (e ≠ .aborted → (s.part i).batches = run.batches ∧ run.exit = e) := by
  obtain ⟨hrun, hfault⟩ := run_of_main hargc hparse hmain hwilling i
  obtain rfl := Option.some.inj (hi.symm.trans hrun)
  have hb := blockSize_ne hargc hparse hmain i
  have hfollows := @follows_reach a openFile allocated disk memory s i h
  unfold Worker.Follows at hfollows
  cases hpc : (s.part i).pc with
  | start =>
    simp only [hpc] at hfollows
    simp [hfollows.2.1]
  | fill =>
    simp only [hpc] at hfollows
    obtain ⟨hq, op, n, -, -, hrun⟩ := hfollows
    refine ⟨?_, fun _ => hq, by simp⟩
    rw [hrun]
    simp [Run.from]
  | wait =>
    simp only [hpc] at hfollows
    obtain ⟨op, n, done, taken, -, -, -, -, -, hrun⟩ := hfollows
    refine ⟨?_, by simp, by simp⟩
    rw [hrun]
    simp [Run.from]
  | report =>
    simp only [hpc] at hfollows
    simp [hfollows.2]
  | ended e =>
    simp only [hpc] at hfollows
    cases e with
    | aborted => exact ⟨hfollows, by simp, by simp⟩
    | _ =>
      have hdone := hfollows.2.resolve_right fun hz => hb hz.2
      rw [hdone] at hfault ⊢
      refine ⟨List.prefix_refl _, by simp, fun e he => ?_⟩
      cases he
      exact ⟨hfault, fun _ => ⟨rfl, rfl⟩⟩

theorem refines_main_two_threads :
    ∃ u, Reach (twoArgs.step fun _ => 3) (fun l => l.2.From (some 262144))
        (twoArgs.start (fun _ => true) fun _ => none) u ∧
      ∀ i, (u.part i).pc = .ended .returned ∧
        (u.part i).batches = (doSeqwrite (some 262144) (willing 2) 2 3 262144 1048576).batches := by
  obtain ⟨u, hu, hpc⟩ := exists_twoThreads_returned
  have hu := hu.mono fun _ hl => hl.2.1
  refine ⟨u, hu, fun i => ⟨hpc i, ?_⟩⟩
  have hi : twoRuns[i.val]? = some (doSeqwrite (some 262144) (willing 2) 2 3 262144 1048576) := by
    match i with
    | ⟨0, _⟩ => rfl
    | ⟨1, _⟩ => rfl
  have hends := (refines_main (by decide) parse_twoThreads main_twoThreads willing_twoThreads hu hi).2.2 _ (hpc i)
  exact (hends.2 (by simp)).1

/-! ## The files -/

theorem executes_files {m : Memory} {k : Kernel} {depth : Int} (fd : Int) {bs : UInt64} (total : UInt64)
    (h0 : 1 ≤ depth) (h1 : depth ≤ 128) {file : List UInt8} {s' : Store}
    (hrun : Executes (sequential m k .IOCB_CMD_PWRITE depth fd bs total).batches (initial depth bs file) s')
    {n : Nat} (hn : (sequential m k .IOCB_CMD_PWRITE depth fd bs total).taken = n) :
    s'.file = List.replicate (n * bs.toNat) 0xff ++ file.drop (n * bs.toNat) := by
  obtain ⟨l, hperm, hfile⟩ := executes_chain fd total h0 h1 hrun
  rw [hn] at hperm
  rw [hfile]
  refine foldl_fill_front 0 0xff file ?_ ?_
  · intro t ht
    obtain ⟨k, hk, rfl⟩ := List.mem_map.mp (hperm.mem_iff.mp ht)
    have hlast := Nat.mul_le_mul_right bs.toNat (show k + 1 ≤ n from List.mem_range.mp hk)
    rwa [Nat.add_mul, Nat.one_mul] at hlast
  · intro x hx
    obtain ⟨t, ht, hc⟩ := chain_covers_iff.mpr hx
    exact ⟨t, hperm.mem_iff.mpr ht, hc⟩

/-- A worker that returns has had a buffer, and a willing kernel takes all its
blocks. -/
theorem taken_of_returned {m : Memory} {depth : Int} {op : Opcode} (fd : Int) {bs : UInt64} (total : UInt64)
    (h0 : 1 ≤ depth) (h1 : depth ≤ 128)
    (hret : (sequential m (willing (UInt64.ofInt depth).toNat) op depth fd bs total).exit = .returned) :
    (sequential m (willing (UInt64.ofInt depth).toNat) op depth fd bs total).taken = blocksTaken depth bs total := by
  have hm : posixMemalign m bs (bs * UInt64.ofInt depth) = true := by
    by_contra hm
    exact (sequential_unset _ op fd total (Bool.eq_false_iff.mpr hm)).2 hret
  rw [taken_eq op fd total h0 h1 fun _ => ?_, if_pos hm]
  rw [toNat_queueSize h0 h1]
  exact ⟨Nat.le_refl _, rfl⟩

/-- **What a run leaves.** If the kernel writes every byte, a thread that returned
leaves `0xff` in all blocks of its batches and the rest of its file as it was,
also when it was started to read; the empty workers leave the file alone. -/
theorem files_filled {a : Args} {memory : Nat → Memory} {kernel : Nat → Kernel} {openFile : Text → Int}
    {allocated : Text → Bool} {disk : Text → Option (List UInt8)} {s : a.Threads} {i : Fin a.numThread.toInt.toNat}
    {argv : List Text} {runs : List Run} (hargc : 7 ≤ argv.length) (hparse : parse argv = .ok a)
    (hmain : main memory kernel openFile argv = .ok runs) (h0 : 1 ≤ a.ioDepth.toInt) (h1 : a.ioDepth.toInt ≤ 128)
    (h : Reach (a.step openFile) (fun l => l.2.Complete) (a.start allocated disk) s)
    (hpc : (s.part i).pc = .ended .returned) :
    (s.part i).store.file =
      if a.type.toInt = 2 ∨ a.type.toInt = 4 then
        List.replicate (blocksTaken a.ioDepth.toInt a.blockSize a.totalSize * a.blockSize.toNat) 0xff ++
          (a.prepared allocated disk i).drop (blocksTaken a.ioDepth.toInt a.blockSize a.totalSize * a.blockSize.toNat)
      else a.prepared allocated disk i := by
  have hb := blockSize_ne hargc hparse hmain i
  obtain ⟨⟨m, hfollows⟩, hstored⟩ := @stored_reach a openFile allocated disk s i _ (fun _ hl => hl) h
  simp only [Worker.Follows, hpc] at hfollows
  simp only [Worker.Stored, hpc] at hstored
  have hrun := hfollows.2.resolve_right fun hz => hb hz.2
  have hbatches : (s.part i).batches = ((a.job openFile i).run m).batches := by rw [hrun]
  have hret : ((a.job openFile i).run m).exit = .returned := by rw [hrun]
  rw [← run_job (k := willing a.queueSize) (fun _ => ⟨Nat.le_refl _, rfl⟩), dispatch_eq] at hbatches hret
  rw [hbatches] at hstored
  by_cases htype : a.type.toInt = 2 ∨ a.type.toInt = 4
  · rw [if_pos htype] at hstored hret ⊢
    exact executes_files _ _ h0 h1 hstored (taken_of_returned _ _ h0 h1 hret)
  · rw [if_neg htype] at hstored ⊢
    rw [show (s.part i).store = _ from hstored]
    rfl

theorem files_filled_two_threads :
    ∃ u, Reach (twoArgs.step fun _ => 3) (fun l => l.2.Complete) (twoArgs.start (fun _ => true) fun _ => none) u ∧
      ∀ i, (u.part i).store.file = List.replicate 1048576 0xff := by
  obtain ⟨u, hu, hpc⟩ := exists_twoThreads_returned
  have hu := hu.mono fun _ hl => hl.2.2
  refine ⟨u, hu, fun i => ?_⟩
  have hblocks : blocksTaken twoArgs.ioDepth.toInt twoArgs.blockSize twoArgs.totalSize * twoArgs.blockSize.toNat =
      1048576 := by decide +kernel
  have hprepared : twoArgs.prepared (fun _ => true) (fun _ => none) i = List.replicate 1048576 0 := rfl
  rw [files_filled (by decide) parse_twoThreads main_twoThreads (by decide) (by decide) hu (hpc i), if_pos (by decide),
    hblocks, hprepared, List.drop_replicate, Nat.sub_self, List.replicate_zero, List.append_nil]

/-! ## Results that nobody reads -/

/-- Every read and write of the kernel fails. -/
def Label.Failed : Label → Prop
  | .execute _ res => res = 0
  | _ => True

def Label.fail : Label → Label
  | .execute c _ => .execute c 0
  | l => l

theorem exec_cut_zero (c : Iocb) (s : Store) : (c.cut 0).exec s = s := by
  unfold Iocb.cut Iocb.exec
  cases c.opcode <;> simp [readAt, writeAt]

theorem step_fail {j : Job} {w v : Worker} {l : Label} (hs : j.step w l = some v) (m : Store) :
    j.step { w with store := m } l.fail = some { v with store := m } := by
  cases step_moves hs with
  | empty _ hpc hop => simp [Label.fail, Job.step, hpc, hop]
  | divide _ op hpc hop hz => simp [Label.fail, Job.step, hpc, hop, hz]
  | enter _ op hpc hop hz hm => simp [Label.fail, Job.step, hpc, hop, hz, hm]
  | buffer _ op hpc hop hz hm => simp [Label.fail, Job.step, hpc, hop, hz, hm]
  | submit op ret hpc hop =>
    simp only [Label.fail, Job.step, hpc, hop, Job.submit]
    split <;> rfl
  | execute c res hc => simp [Label.fail, Job.step, hc, exec_cut_zero]
  | reap ret hpc hret hq =>
    subst hq
    simp [Label.fail, Job.step, hpc, hret]
  | interrupt ret hpc hret hq => simp [Label.fail, Job.step, hpc, hret, hq]
  | report hpc => simp [Label.fail, Job.step, hpc]

/-- **Failures go unnoticed.** For every run there is one in which every write
fails, with the same batches, the same threads returned and the same threads
aborted; only the files are still as `main` prepared them. -/
theorem failures_unnoticed (a : Args) (openFile : Text → Int) (allocated : Text → Bool)
    (disk : Text → Option (List UInt8)) {s : a.Threads}
    (h : Reach (a.step openFile) (fun _ => True) (a.start allocated disk) s) :
    Reach (a.step openFile) (fun l => l.2.Failed) (a.start allocated disk)
      ⟨fun i => { s.part i with store := initial a.ioDepth.toInt a.blockSize (a.prepared allocated disk i) }, s.down⟩ := by
  induction h with
  | refl => exact .refl
  | @next t u l _ _ hs ih =>
    obtain ⟨hup, p, hp, rfl⟩ := Process.step_eq_some hs
    refine ih.next (l := (l.1, l.2.fail)) ?_ ?_
    · cases l.2 <;> simp [Label.fail, Label.Failed]
    · unfold Args.step Process.step
      simp only [hup, Bool.false_eq_true, if_false]
      rw [step_fail hp, Option.map_some]
      congr 1
      refine congr (congrArg Process.mk ?_) rfl
      funext i
      by_cases hi : i = l.1
      · subst hi
        simp
      · simp [hi]

theorem failures_unnoticed_two_threads :
    ∃ u, Reach (twoArgs.step fun _ => 3) (fun l => l.2.Failed) (twoArgs.start (fun _ => true) fun _ => none) u ∧
      ∀ i, (u.part i).pc = .ended .returned ∧ (u.part i).store.file = List.replicate 1048576 0 := by
  obtain ⟨u, hu, hpc⟩ := exists_twoThreads_returned
  have hu := hu.mono fun _ _ => trivial
  exact ⟨_, failures_unnoticed twoArgs _ _ _ hu, fun i => ⟨hpc i, rfl⟩⟩

end IoTester.IoLibaio

import IoTester.BackendSound
import IoTester.IoPosixMain
import IoTester.Lib.Bytes
import IoTester.Lib.Parallel
import IoTester.PosixSound
import Mathlib.Data.List.FinRange

/-!
# `io_tester/posix.cc`: the program as a whole

The threads share nothing: each has a file and a buffer of its own. The first
step of a worker carries what the allocator answers; without a buffer the
`memset` crashes. A worker then issues one request after the other, whatever
`pwrite` and `pread` return. It counts them in an `int`, which overflows after
`2 ^ 31` requests.
-/

namespace IoTester.IoPosix

open Lib

inductive Pc where
  | start
  | loop
  | report
  | ended (exit : Exit)
  deriving Repr, DecidableEq

structure Worker where
  pc : Pc := .start
  passes : Nat := 0
  pos : UInt64 := 0
  issued : List Request := []
  buff : List UInt8 := []
  file : List UInt8
  deriving Repr, DecidableEq

/-- `begin memory` enters the worker with this answer of the allocator; `request n`
is a request of which the kernel transfers `n` bytes at most. -/
inductive Label where
  | begin (memory : Memory)
  | request (n : Nat)
  | report
  deriving Repr, DecidableEq

/-- The allocator answers with `memory`. -/
def Label.From (memory : Memory) : Label → Prop
  | .begin m => m = memory
  | _ => True

/-- The head of the loop; `int` counts the passes. -/
def Job.head (j : Job) (passes : Nat) : Pc :=
  if passes < j.count then .loop
  else if intExit (j.totalSize / j.blockSize) = .returned then .report
  else .ended (intExit (j.totalSize / j.blockSize))

def Worker.transfer (w : Worker) (op : IoOp) (n : Nat) : Worker :=
  match op with
  | .pwrite => { w with file := writeAt 0 w.file w.pos.toNat (readAt w.buff 0 n) }
  | .pread => { w with buff := writeAt 0 w.buff 0 (readAt w.file w.pos.toNat n) }

def Job.request (j : Job) (k : Workload) (n : Nat) (w : Worker) : Worker :=
  { w.transfer (opOf k) (min n j.blockSize.toNat) with
    pc := j.head (w.passes + 1)
    passes := w.passes + 1
    pos := moveOf j.blockSize j.totalSize k w.pos
    issued := w.issued ++ [⟨opOf k, j.fd, j.blockSize, w.pos⟩] }

def Job.step (j : Job) (w : Worker) : Label → Option Worker
  | .begin memory =>
    match w.pc, j.workload with
    | .start, none => some { w with pc := .report }
    | .start, some _ =>
      if j.blockSize = 0 then some { w with pc := .ended .fault }
      else if posixMemalign memory j.blockSize j.blockSize then
        some { w with pc := j.head 0, buff := List.replicate j.blockSize.toNat 0xff }
      else some { w with pc := .ended .crashed }
    | _, _ => none
  | .request n =>
    match w.pc, j.workload with
    | .loop, some k => some (j.request k n w)
    | _, _ => none
  | .report =>
    match w.pc with
    | .report => some { w with pc := .ended (if j.blockSize = 0 then .fault else .returned) }
    | _ => none

/-- The worker has ended otherwise than by its return. -/
def Worker.crashed (w : Worker) : Bool :=
  match w.pc with
  | .ended e => e ≠ .returned
  | _ => false

section
variable (a : Args) (openFile : Text → Int) (allocated : Text → Bool) (disk : Text → Option (List UInt8))

def Args.prepared (i : Nat) : List UInt8 :=
  prepareFile (allocated (fileName a.path i)) a.totalSize (disk (fileName a.path i))

abbrev Args.Threads : Type := Process (Fin a.numThread.toInt.toNat) Worker

def Args.start : a.Threads := { part := fun i => { file := a.prepared allocated disk i } }

def Args.step : a.Threads → Fin a.numThread.toInt.toNat × Label → Option a.Threads :=
  Process.step (fun i => (a.job openFile i).step) Worker.crashed

end

/-! ## What a step can do -/

inductive Moves (j : Job) (w : Worker) : Label → Worker → Prop
  | empty (memory : Memory) : w.pc = .start → j.workload = none → Moves j w (.begin memory) { w with pc := .report }
  | divide (memory : Memory) (k : Workload) : w.pc = .start → j.workload = some k → j.blockSize = 0 →
      Moves j w (.begin memory) { w with pc := .ended .fault }
  | enter (memory : Memory) (k : Workload) : w.pc = .start → j.workload = some k →
      posixMemalign memory j.blockSize j.blockSize = true →
      Moves j w (.begin memory) { w with pc := j.head 0, buff := List.replicate j.blockSize.toNat 0xff }
  | buffer (memory : Memory) (k : Workload) : w.pc = .start → j.workload = some k → j.blockSize ≠ 0 →
      posixMemalign memory j.blockSize j.blockSize = false →
      Moves j w (.begin memory) { w with pc := .ended .crashed }
  | request (k : Workload) (n : Nat) : w.pc = .loop → j.workload = some k → Moves j w (.request n) (j.request k n w)
  | report : w.pc = .report →
      Moves j w .report { w with pc := .ended (if j.blockSize = 0 then .fault else .returned) }

theorem step_moves {j : Job} {w v : Worker} {l : Label} (h : j.step w l = some v) : Moves j w l v := by
  cases l with
  | begin memory =>
    simp only [Job.step] at h
    split at h
    · rename_i hpc hk
      cases h
      exact .empty memory hpc hk
    · rename_i k hpc hk
      by_cases hb : j.blockSize = 0
      · rw [if_pos hb] at h
        cases h
        exact .divide memory k hpc hk hb
      rw [if_neg hb] at h
      cases hm : posixMemalign memory j.blockSize j.blockSize with
      | true =>
        rw [if_pos hm] at h
        cases h
        exact .enter memory k hpc hk hm
      | false =>
        rw [if_neg (by simp [hm])] at h
        cases h
        exact .buffer memory k hpc hk hb hm
    · cases h
  | request n =>
    simp only [Job.step] at h
    split at h
    · rename_i k hpc hk
      cases h
      exact .request k n hpc hk
    · cases h
  | report =>
    simp only [Job.step] at h
    split at h
    · rename_i hpc
      cases h
      exact .report hpc
    · cases h

/-! ## Where a worker stands -/

/-- A worker whose allocator answers with `memory` is on its way through
`Job.run`, and it ends as that does, unless the report divides by zero. -/
def Worker.Follows (j : Job) (memory : Memory) (w : Worker) : Prop :=
  match w.pc with
  | .start => w.issued = [] ∧ w.passes = 0 ∧ w.pos = 0
  | .loop => ∃ k n, j.workload = some k ∧ w.passes + (n + 1) = j.count ∧
      j.run memory = ⟨w.issued ++ j.rest k (n + 1) w.pos, intExit (j.totalSize / j.blockSize)⟩
  | .report => j.run memory = ⟨w.issued, .returned⟩
  | .ended e => j.run memory = ⟨w.issued, e⟩ ∨ e = .fault ∧ j.blockSize = 0

section
variable {j : Job} {memory : Memory} {w v : Worker} {l : Label}

theorem follows_head {k : Workload} {n : Nat} (hk : j.workload = some k) (hn : w.passes + n = j.count)
    (hrun : j.run memory = ⟨w.issued ++ j.rest k n w.pos, intExit (j.totalSize / j.blockSize)⟩) :
    Worker.Follows j memory { w with pc := j.head w.passes } := by
  cases n with
  | zero =>
    have hdone : j.run memory = ⟨w.issued, intExit (j.totalSize / j.blockSize)⟩ := by
      rw [hrun]
      simp [Job.rest, passes]
    unfold Job.head
    rw [if_neg (by omega)]
    by_cases he : intExit (j.totalSize / j.blockSize) = .returned
    · rw [if_pos he]
      rw [he] at hdone
      exact hdone
    · rw [if_neg he]
      exact .inl hdone
  | succ n =>
    have hpc : j.head w.passes = .loop := if_pos (by omega)
    rw [hpc]
    exact ⟨k, n, hk, hn, hrun⟩

theorem rest_succ (j : Job) (k : Workload) (n : Nat) (pos : UInt64) : j.rest k (n + 1) pos =
    ⟨opOf k, j.fd, j.blockSize, pos⟩ :: j.rest k n (moveOf j.blockSize j.totalSize k pos) := rfl

theorem Worker.Follows.step (hs : j.step w l = some v) (hl : l.From memory) (h : w.Follows j memory) :
    v.Follows j memory := by
  cases step_moves hs with
  | empty m hpc hk =>
    simp only [Worker.Follows, hpc] at h
    show j.run memory = ⟨w.issued, .returned⟩
    simp [Job.run, hk, h.1]
  | divide m k hpc hk hb => exact .inr ⟨rfl, hb⟩
  | enter m k hpc hk hm =>
    cases hl
    simp only [Worker.Follows, hpc] at h
    obtain ⟨hi, hp, hpos⟩ := h
    rw [← hp]
    refine follows_head (w := { w with buff := _ }) hk (n := j.count) (by dsimp only; omega) ?_
    dsimp only
    rw [hi, hpos, List.nil_append]
    exact run_of_buffer hk hm
  | buffer m k hpc hk hb hm =>
    cases hl
    simp only [Worker.Follows, hpc] at h
    refine .inl ?_
    rw [run_of_no_buffer hk hb hm]
    exact congrArg (Run.mk · _) h.1.symm
  | request k n hpc hk =>
    simp only [Worker.Follows, hpc] at h
    obtain ⟨k', m, hk', hm, hrun⟩ := h
    obtain rfl : k' = k := Option.some.inj (hk'.symm.trans hk)
    refine follows_head (w := { j.request k' n w with pc := w.pc }) hk (n := m) ?_ ?_
    · show w.passes + 1 + m = j.count
      omega
    · show j.run memory = ⟨(w.issued ++ [_]) ++ _, _⟩
      rw [hrun, rest_succ, List.append_cons]
      rfl
  | report hpc =>
    simp only [Worker.Follows, hpc] at h
    by_cases hb : j.blockSize = 0
    · rw [if_pos hb]
      exact .inr ⟨rfl, hb⟩
    · rw [if_neg hb]
      exact .inl h

/-- Whatever the allocator answers, the worker follows some answer: before its first
step all of them, then the one that it got. -/
theorem exists_follows_step (hs : j.step w l = some v) (h : ∃ memory, w.Follows j memory) :
    ∃ memory, v.Follows j memory := by
  obtain ⟨memory, h⟩ := h
  cases l with
  | begin m =>
    have hstart : w.pc = .start := by cases step_moves hs <;> assumption
    refine ⟨m, Worker.Follows.step hs rfl ?_⟩
    simp only [Worker.Follows, hstart] at h ⊢
    exact h
  | request n => exact ⟨memory, h.step hs trivial⟩
  | report => exact ⟨memory, h.step hs trivial⟩

/-- A run without a fault of its own has none in the report. -/
theorem run_of_ended (hb : j.blockSize ≠ 0) {e : Exit} (hpc : w.pc = .ended e) (h : w.Follows j memory) :
    j.run memory = ⟨w.issued, e⟩ := by
  simp only [Worker.Follows, hpc] at h
  exact h.resolve_right fun hz => hb hz.2

/-- A worker that has returned has issued all its requests. -/
theorem issued_of_returned {k : Workload} (hk : j.workload = some k) (hb : j.blockSize ≠ 0)
    (hpc : w.pc = .ended .returned) (h : w.Follows j memory) : w.issued = j.rest k j.count 0 := by
  have hrun := run_of_ended hb hpc h
  cases hm : posixMemalign memory j.blockSize j.blockSize with
  | false =>
    rw [run_of_no_buffer hk hb hm] at hrun
    cases congrArg Run.exit hrun
  | true =>
    rw [run_of_buffer hk hm] at hrun
    exact (congrArg Run.issued hrun).symm

end

/-! ## What becomes of the file -/

/-- Every `pwrite` writes its block. -/
def Label.Complete (bs : UInt64) : Label → Prop
  | .request n => bs.toNat ≤ n
  | _ => True

/-- A step of a worker that does not write. -/
theorem file_step {j : Job} {w v : Worker} {l : Label} (hread : ∀ k, j.workload = some k → opOf k = .pread)
    (hs : j.step w l = some v) : v.file = w.file := by
  cases step_moves hs with
  | request k n _ hk => simp only [Job.request, Worker.transfer, hread k hk]
  | _ => rfl

/-- A worker that writes has filled the blocks that it has issued. -/
structure Worker.Written (j : Job) (file : List UInt8) (w : Worker) : Prop where
  file : w.file = (w.issued.map Request.span).foldl (fill 0 0xff) file
  buff : w.pc = .loop → w.buff = List.replicate j.blockSize.toNat 0xff

theorem Worker.Written.step {j : Job} {file : List UInt8} {w v : Worker} {l : Label} {k : Workload}
    (hk : j.workload = some k) (hop : opOf k = .pwrite) (hl : l.Complete j.blockSize) (hs : j.step w l = some v)
    (h : w.Written j file) : v.Written j file := by
  cases step_moves hs with
  | empty _ _ hk' =>
    rw [hk] at hk'
    cases hk'
  | divide => exact ⟨h.file, by simp⟩
  | enter => exact ⟨h.file, fun _ => rfl⟩
  | buffer => exact ⟨h.file, by simp⟩
  | request k' n hpc hk' =>
    obtain rfl : k = k' := Option.some.inj (hk.symm.trans hk')
    have hblock : readAt w.buff 0 (min n j.blockSize.toNat) = List.replicate j.blockSize.toNat 0xff := by
      rw [Nat.min_eq_right hl, h.buff hpc]
      exact readAt_replicate 0xff (by omega)
    simp only [Job.request, Worker.transfer, hop, hblock]
    refine ⟨?_, fun _ => h.buff hpc⟩
    rw [h.file, List.map_append, List.foldl_append]
    rfl
  | report => exact ⟨h.file, by simp⟩

section
variable {a : Args} {openFile : Text → Int} {allocated : Text → Bool} {disk : Text → Option (List UInt8)}
  {s : a.Threads} {i : Fin a.numThread.toInt.toNat}

theorem follows_reach {memory : Nat → Memory}
    (h : Reach (a.step openFile) (fun l => l.2.From (memory l.1)) (a.start allocated disk) s) :
    (s.part i).Follows (a.job openFile i) (memory i) :=
  (Process.reach_part h i).invariant ⟨rfl, rfl, rfl⟩ fun hl hs hw => hw.step hs hl

theorem exists_follows_reach {ok : Fin a.numThread.toInt.toNat × Label → Prop}
    (h : Reach (a.step openFile) ok (a.start allocated disk) s) :
    ∃ memory, (s.part i).Follows (a.job openFile i) memory :=
  (Process.reach_part h i).invariant (P := fun w => ∃ memory, w.Follows (a.job openFile i) memory)
    ⟨none, rfl, rfl, rfl⟩ fun _ hs hw => exists_follows_step hs hw

end

/-! ## The blocks that a run of writes fills -/

/-- The bytes that a worker writes: the "random" one writes from the start of the
file, the "sequential" one leaves out the `16 KiB` after each block and comes
back to the start past the end of the file. -/
def Job.Writes (j : Job) (x : Nat) : Workload → Prop
  | .DO_RW => x < j.count * j.blockSize.toNat
  | .DO_SW => x % (16384 + j.blockSize.toNat) < j.blockSize.toNat ∧
      x / (16384 + j.blockSize.toNat) < min j.count (j.totalSize.toNat / (16384 + j.blockSize.toNat) + 1)
  | .DO_RR | .DO_SR => False

instance (j : Job) (x : Nat) (k : Workload) : Decidable (j.Writes x k) := by
  unfold Job.Writes
  cases k <;> infer_instance

theorem toNat_iterate_add {bs : UInt64} : ∀ {n : Nat}, n * bs.toNat < 2 ^ 64 → ((· + bs)^[n] 0).toNat = n * bs.toNat
  | 0, _ => by simp
  | n + 1, h => by
    rw [Nat.add_mul, Nat.one_mul] at h
    rw [Function.iterate_succ_apply', UInt64.toNat_add, toNat_iterate_add (by omega), Nat.mod_eq_of_lt h, Nat.add_mul,
      Nat.one_mul]

theorem count_mul_le (j : Job) : j.count * j.blockSize.toNat ≤ j.totalSize.toNat := by
  refine Nat.le_trans (Nat.mul_le_mul_right _ (Nat.min_le_left _ _)) ?_
  rw [UInt64.toNat_div]
  exact Nat.div_mul_le_self _ _

/-- Where a worker starts its request after `n` others. -/
def Job.offset (j : Job) (n : Nat) : Workload → Nat
  | .DO_RW | .DO_RR => n * j.blockSize.toNat
  | .DO_SW | .DO_SR =>
    n % (j.totalSize.toNat / (16384 + j.blockSize.toNat) + 1) * (16384 + j.blockSize.toNat)

section
variable {j : Job} (hb : 0 < j.blockSize.toNat) (hfit : j.totalSize.toNat + (16384 + j.blockSize.toNat) < 2 ^ 64)

theorem offset_le {k : Workload} {n : Nat} (hn : n < j.count) : j.offset n k ≤ j.totalSize.toNat := by
  have hseq : n * j.blockSize.toNat ≤ j.totalSize.toNat :=
    Nat.le_trans (Nat.mul_le_mul_right _ (Nat.le_of_lt hn)) (count_mul_le j)
  have hwrap : n % (j.totalSize.toNat / (16384 + j.blockSize.toNat) + 1) * (16384 + j.blockSize.toNat) ≤
      j.totalSize.toNat := by
    refine Nat.le_trans (Nat.mul_le_mul_right _ ?_) (Nat.div_mul_le_self j.totalSize.toNat (16384 + j.blockSize.toNat))
    exact Nat.le_of_lt_succ (Nat.mod_lt _ (Nat.succ_pos _))
  cases k with
  | DO_RW => exact hseq
  | DO_SW => exact hwrap
  | DO_RR => exact hseq
  | DO_SR => exact hwrap

include hfit

theorem offset_eq {k : Workload} {n : Nat} (hn : n < j.count) :
    ((moveOf j.blockSize j.totalSize k)^[n] 0).toNat = j.offset n k := by
  have hskip : (skipOf j.blockSize).toNat = 16384 + j.blockSize.toNat := toNat_skipOf (by omega)
  have hlt : n * j.blockSize.toNat < 2 ^ 64 := by
    have hle := Nat.mul_le_mul_right j.blockSize.toNat (Nat.le_of_lt hn)
    have hcount := count_mul_le j
    omega
  have hwrap : ((wrapAt (skipOf j.blockSize) j.totalSize)^[n] 0).toNat =
      n % (j.totalSize.toNat / (16384 + j.blockSize.toNat) + 1) * (16384 + j.blockSize.toNat) := by
    rw [wrapAt_eq_advance, IoTester.offset_eq (by omega) (by omega), hskip]
  cases k with
  | DO_RW => exact toNat_iterate_add hlt
  | DO_SW => exact hwrap
  | DO_RR => exact toNat_iterate_add hlt
  | DO_SR => exact hwrap

theorem mem_spans {k : Workload} {t : Span} :
    t ∈ (j.rest k j.count 0).map Request.span ↔ ∃ n < j.count, t = ⟨j.offset n k, j.blockSize.toNat⟩ := by
  constructor
  · intro ht
    obtain ⟨r, hr, rfl⟩ := List.mem_map.mp ht
    obtain ⟨n, hn, rfl⟩ := mem_passes hr
    refine ⟨n, hn, ?_⟩
    rw [← offset_eq hfit hn]
    rfl
  · rintro ⟨n, hn, rfl⟩
    refine List.mem_map.mpr ⟨_, List.mem_of_getElem? (passes_getElem? _ _ _ _ _ 0 n hn), ?_⟩
    rw [← offset_eq hfit hn]
    rfl

include hb

theorem covered_iff {k : Workload} (hop : opOf k = .pwrite) (x : Nat) :
    (∃ t ∈ (j.rest k j.count 0).map Request.span, t.Covers x) ↔ j.Writes x k := by
  simp only [mem_spans hfit]
  cases k with
  | DO_RW =>
    rw [show j.Writes x .DO_RW ↔ x < j.count * j.blockSize.toNat from Iff.rfl, ← chain_covers_iff]
    simp only [chain, List.mem_map, List.mem_range, Job.offset]
    constructor
    · rintro ⟨t, ⟨n, hn, rfl⟩, hx⟩
      exact ⟨_, ⟨n, hn, rfl⟩, hx⟩
    · rintro ⟨t, ⟨n, hn, rfl⟩, hx⟩
      exact ⟨_, ⟨n, hn, rfl⟩, hx⟩
  | DO_SW =>
    simp only [Job.Writes, Job.offset]
    generalize hs : 16384 + j.blockSize.toNat = skip at *
    have hpos : 0 < skip := by omega
    constructor
    · rintro ⟨t, ⟨n, hn, rfl⟩, hlow, hhigh⟩
      have hlap := Nat.mod_lt n (Nat.succ_pos (j.totalSize.toNat / skip))
      have hle := Nat.mod_le n (j.totalSize.toNat / skip + 1)
      dsimp only at hlow hhigh
      generalize n % (j.totalSize.toNat / skip + 1) = m at *
      have hdiv : x / skip = m := by
        refine Nat.div_eq_of_lt_le hlow ?_
        rw [Nat.add_mul, Nat.one_mul]
        omega
      have hmod := Nat.div_add_mod' x skip
      rw [hdiv] at hmod ⊢
      omega
    · rintro ⟨hmod, hdiv⟩
      have hx := Nat.div_add_mod' x skip
      refine ⟨_, ⟨x / skip, by omega, rfl⟩, ?_⟩
      rw [Nat.mod_eq_of_lt (show x / skip < j.totalSize.toNat / skip + 1 by omega)]
      unfold Span.Covers
      dsimp only
      omega
  | DO_RR => cases hop
  | DO_SR => cases hop

end

/-! ## Every thread returns -/

/-- The worker comes to its return: it has a buffer and counts to the end, and
nothing divides by zero. -/
def Job.Sound (j : Job) (memory : Memory) : Prop := j.blockSize ≠ 0 ∧ (j.run memory).exit = .returned

/-- What a worker still has to do. -/
def Worker.left (j : Job) (w : Worker) : Nat :=
  match w.pc with
  | .start => j.count + 2
  | .loop => j.count - w.passes + 1
  | .report => 1
  | .ended _ => 0

section
variable {j : Job} {memory : Memory} {w v : Worker} {l : Label}

theorem run_returned_iff {k : Workload} (hk : j.workload = some k) (hb : j.blockSize ≠ 0) :
    (j.run memory).exit = .returned ↔
      posixMemalign memory j.blockSize j.blockSize = true ∧ (j.totalSize / j.blockSize).toNat < 2 ^ 31 := by
  cases hm : posixMemalign memory j.blockSize j.blockSize with
  | false => simp [run_of_no_buffer hk hb hm]
  | true => simp [run_of_buffer hk hm, intExit_eq_returned_iff]

theorem sound_of_works (hb : j.blockSize ≠ 0) (hworks : j.workload ≠ none →
    posixMemalign memory j.blockSize j.blockSize = true ∧ (j.totalSize / j.blockSize).toNat < 2 ^ 31) :
    j.Sound memory := by
  refine ⟨hb, ?_⟩
  cases hk : j.workload with
  | none => simp [Job.run, hk]
  | some k => exact (run_returned_iff hk hb).mpr (hworks (by simp [hk]))

theorem left_head {n : Nat} (hn : w.passes = n) : Worker.left j { w with pc := j.head n } ≤ j.count - n + 1 := by
  subst hn
  unfold Job.head
  split
  · exact Nat.le_refl _
  · split
    · exact Nat.le_add_left ..
    · exact Nat.zero_le _

theorem left_lt (hs : j.step w l = some v) (hw : w.Follows j memory) : v.left j < w.left j := by
  cases step_moves hs with
  | empty _ hpc _ => simp [Worker.left, hpc]
  | divide _ _ hpc _ _ => simp [Worker.left, hpc]
  | enter _ k hpc _ _ =>
    simp only [Worker.Follows, hpc] at hw
    refine Nat.lt_of_le_of_lt (left_head (w := { w with buff := _ }) hw.2.1) ?_
    simp [Worker.left, hpc]
  | buffer _ _ hpc _ _ _ => simp [Worker.left, hpc]
  | request k n hpc _ =>
    simp only [Worker.Follows, hpc] at hw
    obtain ⟨-, m, -, hm, -⟩ := hw
    refine Nat.lt_of_le_of_lt (left_head (w := { j.request k n w with pc := w.pc }) rfl) ?_
    simp only [Worker.left, hpc]
    omega
  | report hpc => simp [Worker.left, hpc]

/-- A worker that has not ended can go on. -/
theorem exists_step (hw : w.Follows j memory) (hpc : ∀ e, w.pc ≠ .ended e) :
    ∃ l : Label, (l.Complete j.blockSize ∧ l.From memory) ∧ (j.step w l).isSome = true := by
  cases h : w.pc with
  | start =>
    refine ⟨.begin memory, ⟨trivial, rfl⟩, ?_⟩
    cases hk : j.workload with
    | none => simp [Job.step, h, hk]
    | some k =>
      simp only [Job.step, h, hk]
      split
      · rfl
      · split <;> rfl
  | loop =>
    simp only [Worker.Follows, h] at hw
    obtain ⟨k, n, hk, -, -⟩ := hw
    exact ⟨.request j.blockSize.toNat, ⟨Nat.le_refl _, trivial⟩, by simp [Job.step, h, hk]⟩
  | report => exact ⟨.report, ⟨trivial, trivial⟩, by simp [Job.step, h]⟩
  | ended e => exact absurd h (hpc e)

theorem returned_of_ended (hj : j.Sound memory) (hw : w.Follows j memory) {e : Exit} (hpc : w.pc = .ended e) :
    e = .returned := by
  have hrun := run_of_ended hj.1 hpc hw
  have hexit := hj.2
  rwa [hrun] at hexit

theorem not_crashed (hj : j.Sound memory) (hw : w.Follows j memory) : w.crashed = false := by
  unfold Worker.crashed
  split
  · rename_i e hpc
    simp [returned_of_ended hj hw hpc]
  · rfl

end

section
variable {a : Args} {memory : Nat → Memory} {openFile : Text → Int} {allocated : Text → Bool}
  {disk : Text → Option (List UInt8)} {s : a.Threads}
  (hsound : ∀ i : Fin a.numThread.toInt.toNat, (a.job openFile i).Sound (memory i))
include hsound

theorem threads_up {ok : Fin a.numThread.toInt.toNat × Label → Prop} (hfrom : ∀ l, ok l → l.2.From (memory l.1))
    (h : Reach (a.step openFile) ok (a.start allocated disk) s) :
    s.down = false ∧ ∀ i, (s.part i).Follows (a.job openFile i) (memory i) :=
  Process.keeps (fun _ _ _ _ hl hs hw => Worker.Follows.step hs (hfrom _ hl) hw)
    (fun i _ hw => not_crashed (hsound i) hw) h ⟨rfl, fun _ => ⟨rfl, rfl, rfl⟩⟩

theorem threads_can_return {ok : Fin a.numThread.toInt.toNat × Label → Prop} (hfrom : ∀ l, ok l → l.2.From (memory l.1))
    (hok : ∀ l, l.2.Complete a.blockSize ∧ l.2.From (memory l.1) → ok l)
    (h : Reach (a.step openFile) ok (a.start allocated disk) s) :
    ∃ u, Reach (a.step openFile) ok s u ∧ ∀ i, (u.part i).pc = .ended .returned := by
  have hkeep : ∀ ⦃i : Fin a.numThread.toInt.toNat⦄ ⦃w : Worker⦄ ⦃l : Label⦄ ⦃v : Worker⦄, ok (i, l) →
      (a.job openFile i).step w l = some v → w.Follows (a.job openFile i) (memory i) →
      v.Follows (a.job openFile i) (memory i) :=
    fun _ _ _ _ hl hs hw => hw.step hs (hfrom _ hl)
  have hsafe : ∀ ⦃i : Fin a.numThread.toInt.toNat⦄ ⦃w : Worker⦄, w.Follows (a.job openFile i) (memory i) →
      w.crashed = false := fun i _ hw => not_crashed (hsound i) hw
  have hmove : ∀ (i : Fin a.numThread.toInt.toNat) (w : Worker), w.Follows (a.job openFile i) (memory i) →
      ¬ w.pc = .ended .returned → ∃ l v, ok (i, l) ∧ (a.job openFile i).step w l = some v ∧
        v.left (a.job openFile i) < w.left (a.job openFile i) := by
    intro i w hw hpc
    obtain ⟨l, hl, hs⟩ := exists_step hw fun e he => hpc (he.trans (by rw [returned_of_ended (hsound i) hw he]))
    obtain ⟨v, hs⟩ := Option.isSome_iff_exists.mp hs
    exact ⟨l, v, hok (i, l) hl, hs, left_lt hs hw⟩
  obtain ⟨u, hu, hall⟩ := Process.exists_end hkeep hsafe (fun i w => w.left (a.job openFile i))
    (fun _ w => w.pc = .ended .returned) hmove (threads_up hsound hfrom h) (List.finRange a.numThread.toInt.toNat)
  exact ⟨u, hu, fun i => hall i (List.mem_finRange i)⟩

end

section
variable {a : Args} {memory : Nat → Memory} {openFile : Text → Int} {allocated : Text → Bool}
  {disk : Text → Option (List UInt8)}
  (hup : ∀ s, Reach (a.step openFile) (fun l => l.2.From (memory l.1)) (a.start allocated disk) s → s.down = false)
  (i : Fin a.numThread.toInt.toNat)
include hup

/-- A thread of a process that stays up comes to its end, by steps of its own. -/
theorem exists_ended : ∀ n s, Reach (a.step openFile) (fun l => l.2.From (memory l.1)) (a.start allocated disk) s →
    (s.part i).left (a.job openFile i) ≤ n → (s.part i).crashed = false →
    ∃ w : Worker, w.Follows (a.job openFile i) (memory i) ∧ w.pc = .ended .returned := by
  intro n
  induction n with
  | zero =>
    intro s hs hleft hc
    refine ⟨s.part i, follows_reach hs, ?_⟩
    cases hpc : (s.part i).pc with
    | ended e =>
      simp only [Worker.crashed, hpc, decide_eq_false_iff_not, not_not] at hc
      rw [hc]
    | _ => simp [Worker.left, hpc] at hleft
  | succ n ih =>
    intro s hs hleft hc
    have hw := @follows_reach a openFile allocated disk s i memory hs
    by_cases hpc : (s.part i).pc = .ended .returned
    · exact ⟨s.part i, hw, hpc⟩
    · obtain ⟨l, ⟨-, hl⟩, hsome⟩ := exists_step hw fun e he => by
        simp only [Worker.crashed, he, decide_eq_false_iff_not, not_not] at hc
        exact hpc (he.trans (by rw [hc]))
      obtain ⟨v, hv⟩ := Option.isSome_iff_exists.mp hsome
      have hstep : a.step openFile s (i, l) = some ⟨Function.update s.part i v, v.crashed⟩ :=
        Process.step_part (hup s hs) hv
      have hu := hs.next (l := (i, l)) hl hstep
      have hpart : Function.update s.part i v i = v := Function.update_self ..
      refine ih _ hu ?_ ?_
      · have hlt := left_lt hv hw
        dsimp only
        rw [hpart]
        omega
      · dsimp only
        rw [hpart]
        exact hup _ hu

theorem sound_of_up (hb : a.blockSize ≠ 0) : (a.job openFile i).Sound (memory i) := by
  obtain ⟨w, hw, hpc⟩ := exists_ended hup i _ _ .refl (Nat.le_refl _) rfl
  refine ⟨hb, ?_⟩
  rw [run_of_ended (j := a.job openFile i) hb hpc hw]

end

def twoThreads : List Text := [['p'], ['2'], ['/', 'd'], ['2'], ['2', '6', '2', '1', '4', '4'], ['1']]

def twoArgs : Args := ⟨2, ['/', 'd'], 2, 262144, 1048576⟩

theorem parse_twoThreads : parse twoThreads = .ok twoArgs := by decide +kernel

theorem exists_twoThreads_returned :
    ∃ u, Reach (twoArgs.step fun _ => 3) (fun l => l.2.Complete 262144 ∧ l.2.From (some 262144))
        (twoArgs.start (fun _ => true) fun _ => none) u ∧
      ∀ i, (u.part i).pc = .ended .returned :=
  have hsound : ∀ i : Fin twoArgs.numThread.toInt.toNat, (twoArgs.job (fun _ => 3) i).Sound (some 262144) :=
    fun _ => sound_of_works (show twoArgs.blockSize ≠ 0 by decide) fun _ =>
      show posixMemalign (some 262144) twoArgs.blockSize twoArgs.blockSize = true ∧
        (twoArgs.totalSize / twoArgs.blockSize).toNat < 2 ^ 31 by decide
  @threads_can_return twoArgs (fun _ => some 262144) _ _ _ _ hsound _ (fun _ hl => hl.2) (fun _ hl => hl) .refl

section
variable {argv : List Text} (hargc : 6 ≤ argv.length) {a : Args} (hparse : parse argv = .ok a)
  {memory : Nat → Memory} {openFile : Text → Int}
include hargc hparse

/-- **Which command lines are safe.** For what the allocator answers to each thread,
the program overruns none of its arrays, has a buffer in every thread and divides
by no zero exactly when there are slots for its threads, the paths fit, the block
size is not zero, `posix_memalign` gives each worker its buffer, and an `int`
counts the requests; a type that is none of the four only needs a block. -/
theorem safe_iff (allocated : Text → Bool) (disk : Text → Option (List UInt8)) :
    ((∃ runs, main memory openFile argv = .ok runs) ∧
      ∀ s, Reach (a.step openFile) (fun l => l.2.From (memory l.1)) (a.start allocated disk) s → s.down = false) ↔
    ∀ i < a.numThread.toInt.toNat, i < 32 ∧ (fileName a.path i).length < 32 ∧ a.blockSize ≠ 0 ∧
      (Workload.ofType a.type.toInt ≠ none →
        posixMemalign (memory i) a.blockSize a.blockSize = true ∧ (a.totalSize / a.blockSize).toNat < 2 ^ 31) := by
  constructor
  · rintro ⟨⟨runs, hmain⟩, hup⟩ i hi
    obtain ⟨hslot, hname, hb⟩ := fits_of_main hargc hparse hmain i hi
    refine ⟨hslot, hname, hb, fun hk => ?_⟩
    obtain ⟨k, hk⟩ := Option.ne_none_iff_exists'.mp hk
    exact (run_returned_iff (j := a.job openFile i) hk hb).mp (sound_of_up hup ⟨i, hi⟩ hb).2
  · intro hfits
    have hmain := main_ok hargc hparse memory openFile fun i hi =>
      ⟨(hfits i hi).1, (hfits i hi).2.1, (hfits i hi).2.2.1⟩
    refine ⟨⟨_, hmain⟩, fun s h => (@threads_up a memory _ _ _ _ (fun i => ?_) _ (fun _ hl => hl) h).1⟩
    obtain ⟨-, -, hb, hworks⟩ := hfits i i.isLt
    exact sound_of_works hb hworks

/-- **Every thread returns.** Where `posix_memalign` gives each worker its buffer and
an `int` counts the requests, all threads can return from every state in which
the process can be, with the requests of `main`. No run goes on for longer than
the requests of all threads take, whatever the allocator answers. -/
theorem run_ends {runs : List Run} (hmain : main memory openFile argv = .ok runs)
    (hworks : Workload.ofType a.type.toInt ≠ none → ∀ i < a.numThread.toInt.toNat,
      posixMemalign (memory i) a.blockSize a.blockSize = true ∧ (a.totalSize / a.blockSize).toNat < 2 ^ 31)
    (allocated : Text → Bool) (disk : Text → Option (List UInt8)) :
    (∀ s, Reach (a.step openFile) (fun l => l.2.From (memory l.1)) (a.start allocated disk) s →
      ∃ u, Reach (a.step openFile) (fun l => l.2.From (memory l.1)) s u ∧
        ∀ i, (u.part i).pc = .ended .returned ∧ runs[i.val]? = some ⟨(u.part i).issued, .returned⟩) ∧
    ∀ ls u, Lib.runs (a.step openFile) (a.start allocated disk) ls = some u →
      ls.length ≤ a.numThread.toInt.toNat * (intPasses (a.totalSize / a.blockSize) + 2) := by
  obtain ⟨hfits, rfl⟩ := (main_eq_ok_iff hargc hparse).mp hmain
  have hsound : ∀ i : Fin a.numThread.toInt.toNat, (a.job openFile i).Sound (memory i) :=
    fun i => sound_of_works (hfits i i.isLt).2.2 fun hk => hworks hk i i.isLt
  refine ⟨fun s h => ?_, fun ls u hls => ?_⟩
  · obtain ⟨u, hu, hret⟩ := threads_can_return hsound (fun _ hl => hl) (fun _ hl => hl.2) h
    refine ⟨u, hu, fun i => ⟨hret i, ?_⟩⟩
    rw [List.getElem?_map, List.getElem?_range i.isLt, Option.map_some,
      run_of_ended (hsound i).1 (hret i) (follows_reach (h.trans hu))]
  · have hkeep : ∀ {i : Fin a.numThread.toInt.toNat} {p : Worker} {l : Label} {q : Worker},
        (a.job openFile i).step p l = some q → (∃ m, p.Follows (a.job openFile i) m) →
        (∃ m, q.Follows (a.job openFile i) m) ∧ q.left (a.job openFile i) < p.left (a.job openFile i) :=
      fun hs hw => ⟨exists_follows_step hs hw, left_lt hs hw.choose_spec⟩
    have hlen := Process.length_le (fun i p => p.left (a.job openFile i)) hkeep
      (fun i => ⟨⟨none, rfl, rfl, rfl⟩, Nat.le_refl (intPasses (a.totalSize / a.blockSize) + 2)⟩) hls
    rwa [Fintype.card_fin] at hlen

end

theorem fits_twoArgs : twoArgs.Fits := by
  unfold Args.Fits
  decide

theorem safe_iff_two_threads :
    (∃ runs, main (fun _ => some 262144) (fun _ => 3) twoThreads = .ok runs) ∧
      ∀ s, Reach (twoArgs.step fun _ => 3) (fun l => l.2.From (some 262144))
        (twoArgs.start (fun _ => true) fun _ => none) s → s.down = false :=
  (safe_iff (by decide) parse_twoThreads (fun _ => true) fun _ => none).mpr fun i hi =>
    ⟨(fits_twoArgs i hi).1, (fits_twoArgs i hi).2.1, by decide, fun _ => by decide⟩

theorem run_ends_two_threads :
    ∃ runs u, main (fun _ => some 262144) (fun _ => 3) twoThreads = .ok runs ∧
      Reach (twoArgs.step fun _ => 3) (fun l => l.2.From (some 262144))
        (twoArgs.start (fun _ => true) fun _ => none) u ∧
      ∀ i, (u.part i).pc = .ended .returned ∧ runs[i.val]? = some ⟨(u.part i).issued, .returned⟩ := by
  have hmain := main_ok (by decide) parse_twoThreads (fun _ => some 262144) (fun _ => 3) fits_twoArgs
  obtain ⟨u, hu, hret⟩ := (run_ends (by decide) parse_twoThreads hmain (fun _ _ _ => by decide) (fun _ => true)
    fun _ => none).1 _ .refl
  exact ⟨_, u, hmain, hu, hret⟩

/-! ## The files of a run -/

theorem length_prepared (a : Args) {allocated : Text → Bool} (disk : Text → Option (List UInt8)) {i : Nat}
    (h : allocated (fileName a.path i) = true) : a.totalSize.toNat ≤ (a.prepared allocated disk i).length := by
  simp only [Args.prepared, prepareFile, h, if_true, List.length_append, List.length_replicate]
  omega

section
variable {a : Args} {openFile : Text → Int} {allocated : Text → Bool} {disk : Text → Option (List UInt8)}
  {s : a.Threads} {i : Fin a.numThread.toInt.toNat}

/-- A thread that does not write leaves its file alone. -/
theorem file_reach {ok : Fin a.numThread.toInt.toNat × Label → Prop}
    (hread : ∀ k, Workload.ofType a.type.toInt = some k → opOf k = .pread)
    (h : Reach (a.step openFile) ok (a.start allocated disk) s) : (s.part i).file = a.prepared allocated disk i :=
  (Process.reach_part h i).invariant (P := fun w => w.file = a.prepared allocated disk i) rfl
    fun _ hs hw => (file_step (j := a.job openFile i) hread hs).trans hw

theorem written_reach {ok : Fin a.numThread.toInt.toNat × Label → Prop} (hok : ∀ l, ok l → l.2.Complete a.blockSize)
    {k : Workload} (hk : Workload.ofType a.type.toInt = some k) (hop : opOf k = .pwrite)
    (h : Reach (a.step openFile) ok (a.start allocated disk) s) :
    (s.part i).Written (a.job openFile i) (a.prepared allocated disk i) :=
  (Process.reach_part h i).invariant ⟨rfl, fun hpc => by cases hpc⟩
    fun hl hs hw => hw.step (j := a.job openFile i) hk hop (hok _ hl) hs

end

theorem type_of_pwrite {type : Int} {k : Workload} (hk : Workload.ofType type = some k) (hop : opOf k = .pwrite) :
    type = 1 ∨ type = 2 := by
  by_cases h₁ : type = 1
  · exact .inl h₁
  by_cases h₂ : type = 2
  · exact .inr h₂
  unfold Workload.ofType at hk
  rw [if_neg h₁, if_neg h₂] at hk
  split at hk
  · cases hk
    cases hop
  · split at hk
    · cases hk
      cases hop
    · cases hk

/-- **What a run leaves.** A thread that has returned leaves its file as `main`
prepared it, unless it was started to write. If each of its writes wrote its
block, the file is then `0xff` in the bytes that `Writes` describes and as it was
in all others. -/
theorem files_after {argv : List Text} (hargc : 6 ≤ argv.length) {a : Args} (hparse : parse argv = .ok a)
    {memory : Nat → Memory} {openFile : Text → Int} {runs : List Run} (hmain : main memory openFile argv = .ok runs)
    {allocated : Text → Bool} (hallocated : ∀ file, allocated file = true) (disk : Text → Option (List UInt8))
    (hfit : a.totalSize.toNat + (16384 + a.blockSize.toNat) < 2 ^ 64) {s : a.Threads}
    (h : Reach (a.step openFile) (fun l => a.type.toInt = 1 ∨ a.type.toInt = 2 → l.2.Complete a.blockSize)
      (a.start allocated disk) s)
    (i : Fin a.numThread.toInt.toNat) (hpc : (s.part i).pc = .ended .returned) (x : Nat) :
    (s.part i).file[x]? =
      match Workload.ofType a.type.toInt with
      | some k => if (a.job openFile i).Writes x k then some 0xff else (a.prepared allocated disk i)[x]?
      | none => (a.prepared allocated disk i)[x]? := by
  have hb : a.blockSize ≠ 0 := ((main_eq_ok_iff hargc hparse).mp hmain).1 i i.isLt |>.2.2
  cases hk : Workload.ofType a.type.toInt with
  | none => rw [file_reach (by simp [hk]) h]
  | some k =>
    dsimp only
    cases hop : opOf k with
    | pread =>
      have hnot : ¬ (a.job openFile i).Writes x k := by
        cases k with
        | DO_RW => cases hop
        | DO_SW => cases hop
        | DO_RR => exact id
        | DO_SR => exact id
      rw [file_reach (fun k' hk' => by cases hk.symm.trans hk'; exact hop) h, if_neg hnot]
    | pwrite =>
      have htype := type_of_pwrite hk hop
      have hwritten := @written_reach a openFile allocated disk s i _ (fun l hl => hl htype) k hk hop h
      obtain ⟨m, hfollows⟩ := @exists_follows_reach a openFile allocated disk s i _ h
      rw [hwritten.file, issued_of_returned hk hb hpc hfollows, getElem?_foldl_fill]
      · exact if_congr (covered_iff (toNat_pos_iff.mpr hb) hfit hop x) rfl rfl
      · intro t ht
        obtain ⟨n, hn, rfl⟩ := (mem_spans hfit).mp ht
        exact Nat.le_trans (offset_le hn) (length_prepared a disk (hallocated _))

/-- Two threads that write `1 MiB` each leave the first gap as it was. -/
theorem files_after_two_threads :
    ∃ u, Reach (twoArgs.step fun _ => 3) (fun l => l.2.Complete 262144 ∧ l.2.From (some 262144))
        (twoArgs.start (fun _ => true) fun _ => none) u ∧
      ∀ i, (u.part i).file[262143]? = some 0xff ∧ (u.part i).file[262144]? = some 0 := by
  obtain ⟨u, hu, hret⟩ := exists_twoThreads_returned
  have hmain := main_ok (by decide) parse_twoThreads (fun _ => some 262144) (fun _ => 3) fits_twoArgs
  have hafter := fun i => files_after (by decide) parse_twoThreads hmain (fun _ => rfl) (fun _ => none) (by decide)
    (hu.mono fun _ hl _ => hl.1) i (hret i)
  have hwrites : ∀ i : Fin twoArgs.numThread.toInt.toNat, (twoArgs.job (fun _ => 3) i).Writes 262143 .DO_SW ∧
      ¬ (twoArgs.job (fun _ => 3) i).Writes 262144 .DO_SW := by decide +kernel
  have hprepared : ∀ i : Fin twoArgs.numThread.toInt.toNat,
      twoArgs.prepared (fun _ => true) (fun _ => none) i = List.replicate 1048576 0 := fun _ => rfl
  refine ⟨u, hu, fun i => ⟨(hafter i 262143).trans (if_pos (hwrites i).1), (hafter i 262144).trans ?_⟩⟩
  refine (if_neg (hwrites i).2).trans ?_
  rw [hprepared, List.getElem?_replicate, if_pos (by decide)]

end IoTester.IoPosix

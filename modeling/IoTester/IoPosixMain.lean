import IoTester.CommandLine
import IoTester.IoPosix
import IoTester.Lib.Except

/-!
# `io_tester/posix.cc`: `main` and its threads

`main` reads five arguments, creates the test files, fills one slot of `options`
for each thread and starts `run_benchmark` on it. `openFile` gives the
descriptor that `open` returns; the allocator answers each thread on its own.
-/

namespace IoTester.IoPosix

structure ThreadOptions where
  type : Int32
  threadId : Nat
  blockSize : UInt64
  totalSize : UInt64
  path : Text
  deriving Repr, DecidableEq

/-- The variables that `main` sets from its arguments. -/
structure Args where
  type : Int32
  path : Text
  numThread : Int32
  blockSize : UInt64
  totalSize : UInt64
  deriving Repr, DecidableEq

def parse (argv : List Text) : Except Fault Args := do
  let type ← argInt argv 1
  let numThread ← argInt argv 3
  let blockSize ← argSize argv 4
  let megabytes ← argSize argv 5
  let path ← argAt argv 2
  .ok { type, path, numThread, blockSize, totalSize := megabytes * 1048576 }

def threadOptions (a : Args) (i : Nat) : Except Fault ThreadOptions :=
  if 32 ≤ i then .error .index
  else do
    let path ← store 128 a.path
    .ok ⟨a.type, i, a.blockSize, a.totalSize, path⟩

section
variable (memory : Nat → Memory) (openFile : Text → Int)

/-- A thread up to its report. Both the workers and the report divide by
`block_size`; what ends the process without a division is no fault. -/
def benchmark (o : ThreadOptions) : Except Fault Run := do
  let file ← store 32 (fileName o.path o.threadId)
  let run := dispatch (memory o.threadId) o.type.toInt (openFile file) o.blockSize o.totalSize
  match run.exit with
  | .fault => .error .divisor
  | .returned => if o.blockSize = 0 then .error .divisor else .ok run
  | .aborted | .crashed | .overflow => .ok run

def main (argv : List Text) : Except Fault (List Run) :=
  if argv.length < 6 then .ok []
  else do
    let a ← parse argv
    let _ ← (List.range a.numThread.toInt.toNat).mapM fun i => store 32 (fileName a.path i)
    let options ← (List.range a.numThread.toInt.toNat).mapM (threadOptions a)
    options.mapM (benchmark memory openFile)

end

/-! ## The four workers as one -/

def opOf : Workload → IoOp
  | .DO_RW | .DO_SW => .pwrite
  | .DO_RR | .DO_SR => .pread

def moveOf (blockSize totalSize : UInt64) : Workload → UInt64 → UInt64
  | .DO_RW | .DO_RR => (· + blockSize)
  | .DO_SW | .DO_SR => wrapAt (skipOf blockSize) totalSize

theorem select_eq (memory : Memory) (w : Workload) (fd : Int) (bs total : UInt64) :
    select memory w fd bs total = counted memory (opOf w) fd bs total (moveOf bs total w) := by
  cases w <;> rfl

/-- The worker that a thread calls, if any. -/
structure Job where
  workload : Option Workload
  fd : Int
  blockSize : UInt64
  totalSize : UInt64
  deriving Repr, DecidableEq

def Job.count (j : Job) : Nat := intPasses (j.totalSize / j.blockSize)

/-- The last `n` requests of a worker that stands at `pos`. -/
def Job.rest (j : Job) (w : Workload) (n : Nat) (pos : UInt64) : List Request :=
  passes (opOf w) j.fd j.blockSize (moveOf j.blockSize j.totalSize w) n pos

def Job.run (j : Job) (memory : Memory) : Run :=
  match j.workload with
  | some w => select memory w j.fd j.blockSize j.totalSize
  | none => ⟨[], .returned⟩

section
variable {j : Job} {memory : Memory} {w : Workload} (hw : j.workload = some w)
include hw

theorem run_of_buffer (h : posixMemalign memory j.blockSize j.blockSize = true) :
    j.run memory = ⟨j.rest w j.count 0, intExit (j.totalSize / j.blockSize)⟩ := by
  have hb : j.blockSize ≠ 0 := toNat_pos_iff.mp (pos_of_posixMemalign h)
  simp only [Job.run, hw, select_eq, counted, if_neg hb, if_pos h]
  rfl

theorem run_of_no_buffer (hb : j.blockSize ≠ 0) (h : posixMemalign memory j.blockSize j.blockSize = false) :
    j.run memory = ⟨[], .crashed⟩ := by
  simp [Job.run, hw, select_eq, counted, hb, h]

theorem run_of_no_block (hb : j.blockSize = 0) : j.run memory = ⟨[], .fault⟩ := by
  simp [Job.run, hw, select_eq, counted, hb]

end

/-- A worker divides by zero, or it ends as its loop does, or it has no buffer. -/
theorem run_fault_iff {j : Job} {memory : Memory} :
    (j.run memory).exit = .fault ↔ j.workload ≠ none ∧ j.blockSize = 0 := by
  cases hw : j.workload with
  | none => simp [Job.run, hw]
  | some w =>
    by_cases hb : j.blockSize = 0
    · simp [run_of_no_block hw hb, hb]
    · cases h : posixMemalign memory j.blockSize j.blockSize with
      | false => simp [run_of_no_buffer hw hb h, hb]
      | true => simp [run_of_buffer hw h, hb, intExit_ne_fault]

def Args.job (a : Args) (openFile : Text → Int) (i : Nat) : Job :=
  ⟨Workload.ofType a.type.toInt, openFile (fileName a.path i), a.blockSize, a.totalSize⟩

/-! ## Which command lines are safe -/

def Args.Fits (a : Args) : Prop :=
  ∀ i < a.numThread.toInt.toNat, i < 32 ∧ (fileName a.path i).length < 32 ∧ a.blockSize ≠ 0

section
variable {a : Args} {i : Nat} (hfit : (fileName a.path i).length < 32)
include hfit

theorem threadOptions_ok_iff {o : ThreadOptions} :
    threadOptions a i = .ok o ↔ i < 32 ∧ o = ⟨a.type, i, a.blockSize, a.totalSize, a.path⟩ := by
  have hpath : a.path.length < 128 := by
    rw [length_fileName] at hfit
    omega
  unfold threadOptions
  by_cases hi : 32 ≤ i
  · rw [if_pos hi]
    exact iff_of_false (fun h => by cases h) (fun h => Nat.not_lt.mpr hi h.1)
  · rw [if_neg hi, store_ok hpath]
    exact ⟨fun h => ⟨Nat.not_le.mp hi, (Except.ok.inj h).symm⟩, fun h => congrArg _ h.2.symm⟩

theorem benchmark_ok_iff (memory : Nat → Memory) (openFile : Text → Int) {run : Run} :
    benchmark memory openFile ⟨a.type, i, a.blockSize, a.totalSize, a.path⟩ = .ok run ↔
      a.blockSize ≠ 0 ∧ run = (a.job openFile i).run (memory i) := by
  have hjob : dispatch (memory i) a.type.toInt (openFile (fileName a.path i)) a.blockSize a.totalSize =
      (a.job openFile i).run (memory i) := rfl
  have hfault := @run_fault_iff (a.job openFile i) (memory i)
  unfold benchmark
  rw [store_ok hfit]
  simp only [bind, Except.bind, hjob]
  by_cases hb : a.blockSize = 0
  · refine iff_of_false (fun h => ?_) (fun h => h.1 hb)
    cases hw : (a.job openFile i).workload with
    | none =>
      simp only [Job.run, hw, if_pos hb] at h
      cases h
    | some w =>
      simp only [hfault.mpr ⟨by simp [hw], hb⟩] at h
      cases h
  · have hne : ((a.job openFile i).run (memory i)).exit ≠ .fault := fun h => hb (hfault.mp h).2
    simp only [if_neg hb]
    split
    · rename_i hexit
      exact absurd hexit hne
    all_goals exact ⟨fun h => ⟨hb, (Except.ok.inj h).symm⟩, fun h => congrArg _ h.2.symm⟩

end

section
variable {memory : Nat → Memory} {openFile : Text → Int} {argv : List Text} (hargc : 6 ≤ argv.length) {a : Args}
  (hparse : parse argv = .ok a)
include hargc hparse

theorem main_ok (memory : Nat → Memory) (openFile : Text → Int) (hfits : a.Fits) :
    main memory openFile argv =
      .ok ((List.range a.numThread.toInt.toNat).map fun i => (a.job openFile i).run (memory i)) := by
  have hnames : ∀ i ∈ List.range a.numThread.toInt.toNat, ∃ name, store 32 (fileName a.path i) = .ok name :=
    fun i hi => ⟨_, store_ok (hfits i (List.mem_range.mp hi)).2.1⟩
  obtain ⟨names, hnames⟩ := Lib.exists_mapM_ok hnames
  unfold main
  rw [if_neg (Nat.not_lt.mpr hargc), hparse]
  refine Lib.bind_eq_ok.mpr ⟨a, rfl, Lib.bind_eq_ok.mpr ⟨names, hnames, ?_⟩⟩
  refine Lib.mapM_mapM_ok fun i hi => ?_
  obtain ⟨hslot, hfit, hb⟩ := hfits i (List.mem_range.mp hi)
  exact Lib.bind_eq_ok.mpr ⟨_, (threadOptions_ok_iff hfit).mpr ⟨hslot, rfl⟩,
    (benchmark_ok_iff hfit memory openFile).mpr ⟨hb, rfl⟩⟩

theorem fits_of_main {runs : List Run} (h : main memory openFile argv = .ok runs) : a.Fits := by
  unfold main at h
  rw [if_neg (Nat.not_lt.mpr hargc)] at h
  obtain ⟨a', ha, h⟩ := Lib.bind_eq_ok.mp h
  obtain rfl : a = a' := Except.ok.inj (hparse.symm.trans ha)
  obtain ⟨names, hnames, h⟩ := Lib.bind_eq_ok.mp h
  obtain ⟨options, hoptions, h⟩ := Lib.bind_eq_ok.mp h
  intro i hi
  obtain ⟨name, _, hname⟩ := Lib.ok_of_mapM hnames (List.mem_range.mpr hi)
  have hfit := lt_of_store hname
  obtain ⟨o, ho, hslot⟩ := Lib.ok_of_mapM hoptions (List.mem_range.mpr hi)
  obtain ⟨hi, rfl⟩ := (threadOptions_ok_iff hfit).mp hslot
  obtain ⟨run, _, hrun⟩ := Lib.ok_of_mapM h ho
  exact ⟨hi, hfit, ((benchmark_ok_iff hfit memory openFile).mp hrun).1⟩

theorem main_eq_ok_iff {runs : List Run} :
    main memory openFile argv = .ok runs ↔
      a.Fits ∧ runs = (List.range a.numThread.toInt.toNat).map fun i => (a.job openFile i).run (memory i) := by
  constructor
  · intro h
    have hfits := fits_of_main hargc hparse h
    rw [main_ok hargc hparse memory openFile hfits] at h
    exact ⟨hfits, (Except.ok.inj h).symm⟩
  · rintro ⟨hfits, rfl⟩
    exact main_ok hargc hparse memory openFile hfits

end

end IoTester.IoPosix

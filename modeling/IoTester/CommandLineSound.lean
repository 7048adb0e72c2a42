import IoTester.IoLibaioMain
import IoTester.TailPosixThreads
import IoTester.TailSpdkWait
import IoTester.Percentiles

/-!
# Which command lines are safe

The arrays of the programs have fixed sizes, and the numbers that index them
come from the command line unchecked. For each program that has such arrays:
the command lines for which no run goes past one, formats a name that does not
fit, or divides by zero.
-/

namespace IoTester

/-! ## The libaio program -/

namespace IoLibaio

theorem dispatch_eq (memory : Memory) (kernel : Kernel) (type ioDepth fd : Int) (bs total : UInt64) :
    dispatch memory kernel type ioDepth fd bs total =
      if type = 2 ∨ type = 4 then sequential memory kernel .IOCB_CMD_PWRITE ioDepth fd bs total
      else ⟨[], .returned⟩ := by
  unfold dispatch Workload.ofType
  by_cases h₁ : type = 1
  · subst h₁
    rfl
  by_cases h₂ : type = 2
  · subst h₂
    rfl
  by_cases h₃ : type = 3
  · subst h₃
    rfl
  by_cases h₄ : type = 4
  · subst h₄
    rfl
  simp [h₁, h₂, h₃, h₄]

theorem submitLoop_fault_iff {done : Exit} (hdone : done ≠ .fault) (op : Opcode) (fd : Int) (bs q : UInt64) :
    ∀ (kernel : Kernel) (n : Nat) (cur : UInt64),
    (submitLoop done op fd bs q kernel n cur).exit = .fault ↔ 0 < n ∧ slots < q.toNat
  | _, 0, _ => by simp [submitLoop, hdone]
  | kernel, n + 1, cur => by
    unfold submitLoop
    by_cases hq : slots < q.toNat
    · simp [hq]
    · have ih := submitLoop_fault_iff hdone op fd bs q (fun i => kernel (i + 1)) n
      dsimp only
      rw [if_neg hq]
      split
      · simp [hq, ih]
      · simp [hq]

theorem sequential_fault_iff (memory : Memory) (kernel : Kernel) (op : Opcode) (ioDepth fd : Int) (bs total : UInt64) :
    (sequential memory kernel op ioDepth fd bs total).exit = .fault ↔
      bs * UInt64.ofInt ioDepth = 0 ∨ posixMemalign memory bs (bs * UInt64.ofInt ioDepth) = true ∧
        slots < (UInt64.ofInt ioDepth).toNat ∧ bs * UInt64.ofInt ioDepth ≤ total := by
  unfold sequential
  by_cases hzero : bs * UInt64.ofInt ioDepth = 0
  · simp [hzero]
  · have hpos : 0 < (bs * UInt64.ofInt ioDepth).toNat := toNat_pos_iff.mpr hzero
    have hpass : 0 < intPasses (total / (bs * UInt64.ofInt ioDepth)) ↔ bs * UInt64.ofInt ioDepth ≤ total := by
      rw [intPasses, UInt64.toNat_div, UInt64.le_iff_toNat_le, Nat.lt_min, Nat.div_pos_iff]
      omega
    cases hm : posixMemalign memory bs (bs * UInt64.ofInt ioDepth) with
    | false => simp [hzero, hm]
    | true =>
      simp only [hzero, hm, if_false, false_or, if_true, true_and, submitLoop_fault_iff (intExit_ne_fault _), hpass]
      exact and_comm

/-- The sizes for which a thread of the program divides by no zero and keeps to
its control blocks, whatever the allocator finds: where there are too many
control blocks, there is no pass or there can be no buffer. -/
def Sized (type ioDepth : Int) (bs total : UInt64) : Prop :=
  bs ≠ 0 ∧ (type = 2 ∨ type = 4 → bs * UInt64.ofInt ioDepth ≠ 0 ∧
    ((UInt64.ofInt ioDepth).toNat ≤ slots ∨ total < bs * UInt64.ofInt ioDepth ∨
      ¬ (alignment bs = true ∧ bs.toNat + (bs * UInt64.ofInt ioDepth).toNat ≤ 2 ^ 56)))

theorem sized_iff {type : Int} (htype : type = 2 ∨ type = 4) (op : Opcode) (ioDepth fd : Int) (bs total : UInt64)
    (kernel : Kernel) : Sized type ioDepth bs total ↔
      ∀ memory, (sequential memory kernel op ioDepth fd bs total).exit ≠ .fault := by
  have hfault := fun memory => sequential_fault_iff memory kernel op ioDepth fd bs total
  have hbuffer := @exists_posixMemalign_iff bs (bs * UInt64.ofInt ioDepth)
  constructor
  · rintro ⟨_, h⟩ memory hexit
    rcases (hfault memory).mp hexit with hzero | ⟨hm, hq, hle⟩
    · exact (h htype).1 hzero
    · rcases (h htype).2 with hq' | hlt | hnone
      · exact Nat.not_lt.mpr hq' hq
      · exact UInt64.not_le.mpr hlt hle
      · exact hnone (hbuffer.mp ⟨memory, hm⟩)
  · intro h
    simp only [Ne, hfault] at h
    refine ⟨fun hb => h none (.inl (by rw [hb, UInt64.zero_mul])), fun _ => ⟨fun hzero => h none (.inl hzero), ?_⟩⟩
    rcases Nat.lt_or_ge slots (UInt64.ofInt ioDepth).toNat with hq | hq
    · refine .inr (or_iff_not_imp_right.mpr fun hsome => UInt64.not_le.mp fun hle => ?_)
      obtain ⟨memory, hm⟩ := hbuffer.mpr (not_not.mp hsome)
      exact h memory (.inr ⟨hm, hq, hle⟩)
    · exact .inl hq

/-- A thread has no fault with any answer of the allocator exactly if its sizes are
right; the kernel has no part in it. -/
theorem benchmark_ok_iff (kernel : Nat → Kernel) (openFile : Text → Int) (ioDepth : Int32) {o : ThreadOptions}
    (hfit : (fileName o.path o.threadId).length < 32) :
    (∀ memory, ∃ run, benchmark memory kernel openFile ioDepth o = .ok run) ↔
      Sized o.type.toInt ioDepth.toInt o.blockSize o.totalSize := by
  have hrun := fun memory => dispatch_eq memory (kernel o.threadId) o.type.toInt ioDepth.toInt
    (openFile (fileName o.path o.threadId)) o.blockSize o.totalSize
  unfold benchmark
  rw [store_ok hfit]
  simp only [bind, Except.bind, hrun]
  by_cases htype : o.type.toInt = 2 ∨ o.type.toInt = 4
  · simp only [if_pos htype]
    rw [sized_iff htype .IOCB_CMD_PWRITE ioDepth.toInt (openFile (fileName o.path o.threadId)) o.blockSize o.totalSize
      (kernel o.threadId)]
    constructor
    · intro h memory hexit
      obtain ⟨run, hok⟩ := h fun _ => memory
      rw [hexit] at hok
      cases hok
    · intro h memory
      have hexit := h (memory o.threadId)
      have hb : o.blockSize ≠ 0 := by
        intro hb
        exact hexit ((sequential_fault_iff ..).mpr (.inl (by rw [hb, UInt64.zero_mul])))
      split
      · rename_i hfault
        exact absurd hfault hexit
      · exact ⟨_, if_neg hb⟩
      all_goals exact ⟨_, rfl⟩
  · simp only [if_neg htype]
    unfold Sized
    by_cases hb : o.blockSize = 0
    · simp [hb]
    · simp [hb, htype]

def Args.Fits (a : Args) : Prop :=
  ∀ i < a.numThread.toInt.toNat, i < 32 ∧ (fileName a.path i).length < 32 ∧
    Sized a.type.toInt a.ioDepth.toInt a.blockSize a.totalSize

theorem threadOptions_ok_iff {a : Args} {i : Nat} (hfit : (fileName a.path i).length < 32) {o : ThreadOptions} :
    threadOptions a i = .ok o ↔ i < 32 ∧ o = ⟨a.type, i, a.blockSize, a.totalSize, a.path⟩ := by
  have hpath : a.path.length < 128 := by
    rw [length_fileName] at hfit
    omega
  unfold threadOptions
  by_cases hi : 32 ≤ i
  · rw [if_pos hi]
    exact iff_of_false (fun h => by cases h) (fun h => Nat.not_lt.mpr hi h.1)
  · rw [if_neg hi, store_ok hpath]
    exact ⟨fun h => ⟨Nat.not_le.mp hi, (Except.ok.inj h).symm⟩, fun h => congrArg _ h.2.symm⟩

def Args.thread (a : Args) (i : Nat) : ThreadOptions := ⟨a.type, i, a.blockSize, a.totalSize, a.path⟩

section
variable {memory : Nat → Memory} {kernel : Nat → Kernel} {openFile : Text → Int} {argv : List Text}
  (hargc : 7 ≤ argv.length)
include hargc

/-- Where the slots and the names fit, `main` is its threads. -/
theorem main_eq_ok_iff {a : Args} (hparse : parse argv = .ok a) {runs : List Run} :
    main memory kernel openFile argv = .ok runs ↔
      (∀ i < a.numThread.toInt.toNat, i < 32 ∧ (fileName a.path i).length < 32) ∧
      (List.range a.numThread.toInt.toNat).mapM (fun i => benchmark memory kernel openFile a.ioDepth (a.thread i)) =
        .ok runs := by
  have hthreads : ∀ {runs}, ((List.range a.numThread.toInt.toNat).map a.thread).mapM
      (benchmark memory kernel openFile a.ioDepth) = .ok runs ↔ (List.range a.numThread.toInt.toNat).mapM
        (fun i => benchmark memory kernel openFile a.ioDepth (a.thread i)) = .ok runs := by
    intro runs
    rw [Lib.mapM_eq_ok, Lib.mapM_eq_ok, List.map_map]
    rfl
  have hslots : (∀ i < a.numThread.toInt.toNat, i < 32 ∧ (fileName a.path i).length < 32) →
      (List.range a.numThread.toInt.toNat).mapM (threadOptions a) =
        .ok ((List.range a.numThread.toInt.toNat).map a.thread) := by
    refine fun hfit => Lib.mapM_ok fun i hi => ?_
    obtain ⟨hslot, hname⟩ := hfit i (List.mem_range.mp hi)
    exact (threadOptions_ok_iff hname).mpr ⟨hslot, rfl⟩
  unfold main
  rw [if_neg (Nat.not_lt.mpr hargc), hparse]
  constructor
  · intro h
    obtain ⟨_, ha, h⟩ := Lib.bind_eq_ok.mp h
    cases ha
    obtain ⟨names, hnames, h⟩ := Lib.bind_eq_ok.mp h
    obtain ⟨options, hoptions, h⟩ := Lib.bind_eq_ok.mp h
    have hfit : ∀ i < a.numThread.toInt.toNat, i < 32 ∧ (fileName a.path i).length < 32 := by
      intro i hi
      obtain ⟨name, _, hname⟩ := Lib.ok_of_mapM hnames (List.mem_range.mpr hi)
      obtain ⟨o, _, hslot⟩ := Lib.ok_of_mapM hoptions (List.mem_range.mpr hi)
      exact ⟨((threadOptions_ok_iff (lt_of_store hname)).mp hslot).1, lt_of_store hname⟩
    rw [hslots hfit] at hoptions
    cases hoptions
    exact ⟨hfit, hthreads.mp h⟩
  · rintro ⟨hfit, h⟩
    obtain ⟨names, hnames⟩ := Lib.exists_mapM_ok fun i hi =>
      (⟨_, store_ok (hfit i (List.mem_range.mp hi)).2⟩ : ∃ name, store 32 (fileName a.path i) = .ok name)
    exact Lib.bind_eq_ok.mpr ⟨a, rfl, Lib.bind_eq_ok.mpr ⟨names, hnames,
      Lib.bind_eq_ok.mpr ⟨_, hslots hfit, hthreads.mpr h⟩⟩⟩

theorem main_ok_iff :
    (∀ memory, ∃ runs, main memory kernel openFile argv = .ok runs) ↔ ∃ a, parse argv = .ok a ∧ a.Fits := by
  constructor
  · intro h
    obtain ⟨a, hparse⟩ : ∃ a, parse argv = .ok a := by
      obtain ⟨runs, hmain⟩ := h fun _ => none
      unfold main at hmain
      rw [if_neg (Nat.not_lt.mpr hargc)] at hmain
      obtain ⟨a, ha, -⟩ := Lib.bind_eq_ok.mp hmain
      exact ⟨a, ha⟩
    simp only [main_eq_ok_iff hargc hparse] at h
    refine ⟨a, hparse, fun i hi => ?_⟩
    obtain ⟨hslot, hname⟩ := (h fun _ => none).choose_spec.1 i hi
    refine ⟨hslot, hname, (benchmark_ok_iff kernel openFile a.ioDepth (o := a.thread i) hname).mp fun memory => ?_⟩
    obtain ⟨runs, -, hruns⟩ := h memory
    obtain ⟨run, -, hrun⟩ := Lib.ok_of_mapM hruns (List.mem_range.mpr hi)
    exact ⟨run, hrun⟩
  · rintro ⟨a, hparse, hfits⟩ memory
    obtain ⟨runs, hruns⟩ := Lib.exists_mapM_ok fun i hi =>
      have hfit := hfits i (List.mem_range.mp hi)
      (benchmark_ok_iff kernel openFile a.ioDepth (o := a.thread i) hfit.2.1).mpr hfit.2.2 memory
    exact ⟨runs, (main_eq_ok_iff hargc hparse).mpr ⟨fun i hi => ⟨(hfits i hi).1, (hfits i hi).2.1⟩, hruns⟩⟩

end

end IoLibaio

/-! ## The SPDK tester -/

namespace TailSpdk

/-- The slots that a round has used tell where it is. -/
def InSlots (o : WorkerOptions) (s : State) : Prop :=
  s.phase ≠ .fault ∧ (s.phase.Sending → s.phase = phaseAt o s.c)

theorem lt_sends_of_sending {o : WorkerOptions} {n : Nat} (h : (phaseAt o n).Sending) : n < o.sends := by
  unfold WorkerOptions.sends
  unfold phaseAt at h
  by_cases hr : n < o.numRead.toNat
  · omega
  · by_cases hw : n - o.numRead.toNat < o.numWrite.toNat
    · omega
    · rw [if_neg hr, if_neg hw] at h
      exact h.elim

theorem phaseAt_ne_fault (o : WorkerOptions) (n : Nat) : phaseAt o n ≠ .fault := by
  unfold phaseAt
  by_cases hr : n < o.numRead.toNat
  · simp [hr]
  · by_cases hw : n - o.numRead.toNat < o.numWrite.toNat
    · simp [hr, hw]
    · simp [hr, hw]

theorem InSlots.of_phaseAt {o : WorkerOptions} {s : State} (h : s.phase = phaseAt o s.c) : InSlots o s := by
  refine ⟨?_, fun _ => h⟩
  rw [h]
  exact phaseAt_ne_fault o s.c

theorem InSlots.count {o : WorkerOptions} (s : State) (num : Int) : InSlots o (s.count o num) := by
  by_cases h : s.cnt + num = o.ioDepth <;> simp [InSlots, State.count, h, Phase.Sending]

theorem ioDepth_le_sends (o : WorkerOptions) : o.ioDepth ≤ o.sends := by
  unfold WorkerOptions.sends WorkerOptions.numWrite
  omega

section
variable {o : WorkerOptions} (ho : o.sends ≤ 64)
include ho

theorem inSlots_step {s t : State} {l : Label} (h : step o s l = some t) (hs : InSlots o s) : InSlots o t := by
  obtain ⟨hfault, hphase⟩ := hs
  cases step_moves h with
  | overrun now buff rc hsend hc =>
    have hp := hphase hsend
    rw [hp] at hsend
    have := lt_sends_of_sending hsend
    omega
  | refused now buff rc p hsend hcase hno =>
    rcases hcase with rfl | rfl <;> simp [InSlots, Phase.Sending]
  | read now i hp hc =>
    have hat := hphase (by rw [hp]; trivial)
    have hlt : s.c < o.sends := lt_sends_of_sending (by rw [← hat, hp]; trivial)
    rcases phaseAt_cases hlt with ⟨hr, he⟩ | ⟨_, he⟩
    · rw [← hat, hp] at he
      cases he
      exact .of_phaseAt (enter_reads hr)
    · rw [← hat, hp] at he
      cases he
  | write now i hp hc =>
    have hat := hphase (by rw [hp]; trivial)
    have hlt : s.c < o.sends := lt_sends_of_sending (by rw [← hat, hp]; trivial)
    rcases phaseAt_cases hlt with ⟨_, he⟩ | ⟨hr, he⟩
    · rw [← hat, hp] at he
      cases he
    · rw [← hat, hp] at he
      cases he
      refine .of_phaseAt ?_
      show enter o (.writes (s.c - o.numRead.toNat + 1)) = phaseAt o (s.c + 1)
      rw [enter_writes, ← Nat.add_assoc, Nat.add_sub_cancel' hr]
  | poll done num u hp hu => exact .count u _
  | outside now hp hd =>
    have := ioDepth_le_sends o
    omega
  | finish now hp hd => simp [InSlots, Phase.Sending]
  | again now hp hd => exact .of_phaseAt (enter_reads (Nat.zero_le _))

theorem inSlots_reach {ok : Label → Prop} {now : Timespec} {s : State}
    (h : Lib.Reach (step o) ok (init o now) s) : InSlots o s :=
  h.invariant (.of_phaseAt (enter_reads (Nat.zero_le _))) fun _ hstep hs => inSlots_step ho hstep hs

end

theorem report_ok (savePath : Text) (latency : List UInt64) : ∃ r, report savePath latency = .ok r := by
  unfold report
  by_cases hlen : latency.length > 0
  · have hne : latency ≠ [] := List.length_pos_iff.mp hlen
    have hsorted := Lib.mergeSort_ne_nil hne
    obtain ⟨x, hx⟩ := @exists_prints latency (99 / 100) hne (by norm_num) (by norm_num)
    obtain ⟨y, hy⟩ := @exists_prints latency (999 / 1000) hne (by norm_num) (by norm_num)
    simp only [hlen, if_true, getAvgLatency, hsorted, if_false, hx.spdk, hy.spdk, bind, Except.bind]
    exact ⟨_, rfl⟩
  · exact ⟨none, if_neg hlen⟩

theorem reports_ok (s : State) (gSavePath : Text) : ∃ r, s.reports gSavePath = .ok r := by
  obtain ⟨read, hread⟩ := report_ok (gSavePath ++ ['/', 'r', 'e', 'a', 'd', '.', 'l', 'a', 't']) s.readLatency
  obtain ⟨write, hwrite⟩ := report_ok (gSavePath ++ ['/', 'w', 'r', 'i', 't', 'e', '.', 'l', 'a', 't']) s.writeLatency
  exact ⟨(read, write), Lib.bind_eq_ok.mpr ⟨read, hread, Lib.bind_eq_ok.mpr ⟨write, hwrite, rfl⟩⟩⟩

/-- The numbers of reads and writes are `int` values, and a round has slots for
all of them. -/
def Args.Fits (a : Args) : Prop :=
  -2 ^ 31 ≤ a.options.numRead ∧ -2 ^ 31 ≤ a.options.numWrite ∧ a.options.sends ≤ 64

theorem main_eq_ok_iff {atof : Text → Rat} {argv : List Text} {o : WorkerOptions} : main atof argv = .ok o ↔
    ∃ a, parse atof argv = .ok a ∧ (-2 ^ 31 ≤ a.options.numRead ∧ a.options.numRead < 2 ^ 31) ∧
      (-2 ^ 31 ≤ a.options.numWrite ∧ a.options.numWrite < 2 ^ 31) ∧ a.options = o := by
  unfold main
  constructor
  · intro h
    obtain ⟨a, ha, h⟩ := Lib.bind_eq_ok.mp h
    obtain ⟨r, hr, h⟩ := Lib.bind_eq_ok.mp h
    obtain ⟨w, hw, h⟩ := Lib.bind_eq_ok.mp h
    exact ⟨a, ha, (intValue_eq_ok.mp hr).1, (intValue_eq_ok.mp hw).1, Except.ok.inj h⟩
  · rintro ⟨a, ha, hr, hw, rfl⟩
    exact Lib.bind_eq_ok.mpr ⟨a, ha, Lib.bind_eq_ok.mpr ⟨_, intValue_eq_ok.mpr ⟨hr, rfl⟩,
      Lib.bind_eq_ok.mpr ⟨_, intValue_eq_ok.mpr ⟨hw, rfl⟩, rfl⟩⟩⟩

theorem lt_of_parse {atof : Text → Rat} {argv : List Text} {a : Args} (h : parse atof argv = .ok a) :
    6 < argv.length := by
  obtain ⟨_, _, h⟩ := Lib.bind_eq_ok.mp h
  obtain ⟨_, _, h⟩ := Lib.bind_eq_ok.mp h
  obtain ⟨_, _, h⟩ := Lib.bind_eq_ok.mp h
  obtain ⟨_, _, h⟩ := Lib.bind_eq_ok.mp h
  obtain ⟨_, _, h⟩ := Lib.bind_eq_ok.mp h
  obtain ⟨_, hlast, _⟩ := Lib.bind_eq_ok.mp h
  unfold argSize argLong at hlast
  cases harg : argAt argv 6 with
  | error e =>
    rw [harg] at hlast
    cases hlast
  | ok t => exact lt_of_argAt harg

end TailSpdk

/-! ## All three -/

inductive Program where
  | tailPosix
  | tailSpdk
  | libaio
  deriving Repr, DecidableEq

/-- The command lines after the check of `argc`, which does not stop the SPDK
tester. -/
def Program.PastCheck (argv : List Text) : Program → Prop
  | .tailPosix => 10 ≤ argv.length
  | .tailSpdk => True
  | .libaio => 7 ≤ argv.length

/-- No fault in the whole run, whatever the device, the allocator and the kernel
do. -/
def Program.Safe (openFile : Text → Int) (atof : Text → Rat) (argv : List Text) : Program → Prop
  | .tailPosix => ∃ threads, TailPosix.main openFile argv = .ok threads
  | .tailSpdk => ∃ o, TailSpdk.main atof argv = .ok o ∧
      ∀ now s, Lib.Reach (TailSpdk.step o) (fun _ => True) (TailSpdk.init o now) s →
        s.phase ≠ .fault ∧ ∀ gSavePath, ∃ r, s.reports gSavePath = .ok r
  | .libaio => ∀ kernel memory, ∃ runs, IoLibaio.main memory kernel openFile argv = .ok runs

/-- The number of threads is an `int`, and there are slots and short enough
names for all of them. -/
def TailPosix.Args.Fits (a : TailPosix.Args) : Prop :=
  -2 ^ 31 ≤ a.numWriteThread.toInt + a.numReadThread.toInt ∧
    ∀ i < (a.numWriteThread.toInt + a.numReadThread.toInt).toNat, i < 32 ∧ (fileName a.path i).length < 32

def Program.Fits (atof : Text → Rat) (argv : List Text) : Program → Prop
  | .tailPosix => ∃ a, TailPosix.parse argv = .ok a ∧ a.Fits
  | .tailSpdk => 7 ≤ argv.length ∧ ∃ a, TailSpdk.parse atof argv = .ok a ∧ a.Fits
  | .libaio => ∃ a, IoLibaio.parse argv = .ok a ∧ a.Fits

section
variable {openFile : Text → Int} {atof : Text → Rat} {argv : List Text}

theorem tailPosix_safe_iff (hargc : 10 ≤ argv.length) :
    Program.tailPosix.Safe openFile atof argv ↔ Program.tailPosix.Fits atof argv := by
  constructor
  · rintro ⟨threads, hmain⟩
    have hparse := hmain
    unfold TailPosix.main at hparse
    rw [if_neg (Nat.not_lt.mpr hargc)] at hparse
    obtain ⟨a, ha, _⟩ := Lib.bind_eq_ok.mp hparse
    obtain ⟨n, hn, hfit, _⟩ := (TailPosix.main_eq_ok_iff hargc ha).mp hmain
    obtain ⟨⟨hlow, _⟩, rfl⟩ := intValue_eq_ok.mp hn
    exact ⟨a, ha, hlow, hfit⟩
  · rintro ⟨a, ha, hlow, hfit⟩
    refine ⟨_, TailPosix.main_ok hargc ha (intValue_eq_ok.mpr ⟨⟨hlow, ?_⟩, rfl⟩) hfit⟩
    -- a thread beyond the range of `int` would have no slot
    refine Int.not_le.mp fun hge => ?_
    have := (hfit 32 (by omega)).1
    omega

theorem tailSpdk_safe_iff : Program.tailSpdk.Safe openFile atof argv ↔ Program.tailSpdk.Fits atof argv := by
  constructor
  · rintro ⟨o, hmain, hsafe⟩
    obtain ⟨a, ha, ⟨hr, _⟩, ⟨hw, _⟩, rfl⟩ := TailSpdk.main_eq_ok_iff.mp hmain
    have hsends := TailSpdk.sends_le_of_no_fault (fun _ _ => trivial) fun now s hs => (hsafe now s hs).1
    exact ⟨TailSpdk.lt_of_parse ha, a, ha, hr, hw, hsends⟩
  · rintro ⟨_, a, ha, hr, hw, hsends⟩
    have hbounds : a.options.numRead < 2 ^ 31 ∧ a.options.numWrite < 2 ^ 31 := by
      unfold TailSpdk.WorkerOptions.sends at hsends
      omega
    refine ⟨a.options, TailSpdk.main_eq_ok_iff.mpr ⟨a, ha, ⟨hr, hbounds.1⟩, ⟨hw, hbounds.2⟩, rfl⟩, fun now s hs => ?_⟩
    exact ⟨(TailSpdk.inSlots_reach hsends hs).1, TailSpdk.reports_ok s⟩

theorem libaio_safe_iff (hargc : 7 ≤ argv.length) :
    Program.libaio.Safe openFile atof argv ↔ Program.libaio.Fits atof argv :=
  ⟨fun h => (IoLibaio.main_ok_iff hargc).mp (h fun _ _ => ⟨0, 0⟩), fun h _ => (IoLibaio.main_ok_iff hargc).mpr h⟩

end

/-- **Safe command lines.** -/
theorem safe_iff_fits (p : Program) (openFile : Text → Int) (atof : Text → Rat) (argv : List Text)
    (hpast : p.PastCheck argv) : p.Safe openFile atof argv ↔ p.Fits atof argv := by
  cases p with
  | tailPosix => exact tailPosix_safe_iff hpast
  | tailSpdk => exact tailSpdk_safe_iff
  | libaio => exact libaio_safe_iff hpast

theorem safe_iff_fits_four_threads :
    Program.tailPosix.Safe (fun _ => 3) (fun _ => 0) (TailPosix.twoAndTwo ['1'] ['4', '0', '9', '6']) := by
  refine (safe_iff_fits .tailPosix _ _ _ (show 10 ≤ List.length _ by decide)).mpr ⟨_, rfl, ?_, ?_⟩
  · decide
  · decide

/-- A thread for which there is no slot, an argument that was not given, and a
block size of zero. -/
theorem unsafe_command_lines :
    ¬ Program.tailPosix.Safe (fun _ => 3) (fun _ => 0)
        [['p'], ['/', 'd'], ['1'], ['1'], ['0'], ['3', '3'], ['5', '1', '2'], ['0'], ['0'], ['5', '1', '2']] ∧
      ¬ Program.tailSpdk.Safe (fun _ => 3) (fun _ => 0) [['s'], ['1'], ['8'], ['1'], ['0'], ['5', '1', '2']] ∧
      ¬ Program.libaio.Safe (fun _ => 3) (fun _ => 0) [['l'], ['2'], ['/', 'd'], ['1'], ['8'], ['0'], ['1']] := by
  refine ⟨fun h => ?_, fun h => ?_, fun h => ?_⟩
  · obtain ⟨a, ha, _, hfit⟩ := (tailPosix_safe_iff (by decide)).mp h
    have hthreads : (33 : Nat) ≤ (a.numWriteThread.toInt + a.numReadThread.toInt).toNat := by
      cases ha
      decide
    have := (hfit 32 (by omega)).1
    omega
  · have hargs := (tailSpdk_safe_iff.mp h).1
    revert hargs
    decide
  · obtain ⟨a, ha, hfit⟩ := (libaio_safe_iff (by decide)).mp h
    cases ha
    obtain ⟨_, _, hb, _⟩ := hfit 0 (by decide)
    exact hb (by decide)

end IoTester

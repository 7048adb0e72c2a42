import IoTester.Lib.Except
import IoTester.Decimal
import IoTester.TailPosixMain
import Mathlib.Data.List.Nodup
import Mathlib.Tactic.IntervalCases

/-!
# The threads of `tail_latency/posix.cc`

The role of a thread is a type argument, not checked, with the bit of writers
set by `main`. The threads do what the command line asks for when the types are
types of their role and the two block sizes are equal. What it asks for are
integers; `main` keeps them in an `int` or a `size_t`, where a large one becomes
another.
-/

namespace IoTester.TailPosix

/-! ## Types -/

def Task.writes : Task → Bool
  | .randwrite | .seqwrite => true
  | .randread | .seqread => false

def Task.random : Task → Bool
  | .randwrite | .randread => true
  | .seqwrite | .seqread => false

theorem toNat_or_write (x : Int32) : (OPT_WRITE ||| x).toBitVec.toNat = 2 ||| x.toBitVec.toNat := rfl

theorem eq_of_toNat_le_three {x : Int32} (h : x.toBitVec.toNat ≤ 3) : x = 0 ∨ x = 1 ∨ x = 2 ∨ x = 3 := by
  have hx : x = ⟨⟨BitVec.ofNat 32 x.toBitVec.toNat⟩⟩ := by
    rw [BitVec.ofNat_toNat, BitVec.setWidth_eq]
    rfl
  rw [hx]
  interval_cases x.toBitVec.toNat
  · exact .inl rfl
  · exact .inr (.inl rfl)
  · exact .inr (.inr (.inl rfl))
  · exact .inr (.inr (.inr rfl))

theorem ne_of_three_lt {x : Int32} (h : 3 < x.toBitVec.toNat) : ∀ y : Int32, y.toBitVec.toNat ≤ 3 → x ≠ y := by
  rintro y hy rfl
  exact Nat.not_lt.mpr hy h

theorem Task.ofType_eq_none {x : Int32} (h : 3 < x.toBitVec.toNat) : Task.ofType x = none := by
  have hne := ne_of_three_lt h
  simp only [Task.ofType, hne _ (show (OPT_WRITE ||| OPT_RANDOM).toBitVec.toNat ≤ 3 by decide),
    hne _ (show OPT_WRITE.toBitVec.toNat ≤ 3 by decide),
    hne _ (show (OPT_READ ||| OPT_RANDOM).toBitVec.toNat ≤ 3 by decide),
    hne _ (show OPT_READ.toBitVec.toNat ≤ 3 by decide), if_false]

theorem Task.ofType_write (x : Int32) : Task.ofType (OPT_WRITE ||| x) =
    if x = 1 ∨ x = 3 then some .randwrite else if x = 0 ∨ x = 2 then some .seqwrite else none := by
  rcases Nat.lt_or_ge 3 x.toBitVec.toNat with h | h
  · have hne := ne_of_three_lt h
    rw [Task.ofType_eq_none (Nat.lt_of_lt_of_le h (toNat_or_write x ▸ Nat.right_le_or))]
    simp [hne 0 (by decide), hne 1 (by decide), hne 2 (by decide), hne 3 (by decide)]
  · rcases eq_of_toNat_le_three h with rfl | rfl | rfl | rfl <;> decide

theorem Task.ofType_read (x : Int32) : Task.ofType (OPT_READ ||| x) =
    if x = 3 then some .randwrite else if x = 2 then some .seqwrite else if x = 1 then some .randread
    else if x = 0 then some .seqread else none := by
  rw [show OPT_READ ||| x = x from Int32.zero_or]
  rfl

/-! ## The threads of a run -/

def thread (openFile : Text → Int) (a : Args) (i : Nat) : Thread where
  file := fileName a.path i
  options := ⟨openFile (fileName a.path i), i, a.fileSize, a.writeBlockSize, a.time * 1000000000⟩
  task := Task.ofType (if (i : Int) < a.numWriteThread.toInt then OPT_WRITE ||| a.writeType else OPT_READ ||| a.readType)

section
variable {openFile : Text → Int} {argv : List Text} {a : Args}

theorem threadOptions_run {i : Nat} (hi : i < 32) (hfit : (fileName a.path i).length < 32) :
    threadOptions a i >>= runBenchmark openFile = .ok (thread openFile a i) := by
  have hpath : a.path.length < 128 := by
    rw [length_fileName] at hfit
    omega
  simp only [threadOptions, if_neg (Nat.not_le.mpr hi), store_ok hpath, bind, Except.bind, runBenchmark, store_ok hfit,
    thread]

theorem lt_of_threadOptions {i : Nat} {o : ThreadOptions} (h : threadOptions a i = .ok o) : i < 32 := by
  unfold threadOptions at h
  by_cases hi : 32 ≤ i
  · rw [if_pos hi] at h
    cases h
  · exact Nat.not_le.mp hi

section
variable (hargc : 10 ≤ argv.length) (ha : parse argv = .ok a)
include hargc ha

theorem main_ok {n : Int} (hn : addInt a.numWriteThread a.numReadThread = .ok n)
    (hfit : ∀ i < n.toNat, i < 32 ∧ (fileName a.path i).length < 32) :
    main openFile argv = .ok ((List.range n.toNat).map (thread openFile a)) := by
  have hnames : ∀ i ∈ List.range n.toNat, store 32 (fileName a.path i) = .ok (fileName a.path i) := fun i hi =>
    store_ok (hfit i (List.mem_range.mp hi)).2
  unfold main
  rw [if_neg (Nat.not_lt.mpr hargc), ha]
  refine Lib.bind_eq_ok.mpr ⟨a, rfl, Lib.bind_eq_ok.mpr ⟨n, hn, Lib.bind_eq_ok.mpr ⟨_, Lib.mapM_ok hnames, ?_⟩⟩⟩
  refine Lib.mapM_mapM_ok fun i hi => ?_
  obtain ⟨hi, hfit⟩ := hfit i (List.mem_range.mp hi)
  exact threadOptions_run hi hfit

/-- What `main` starts, if nothing goes past an array or a buffer. -/
theorem main_eq_ok_iff {threads : List Thread} : main openFile argv = .ok threads ↔
    ∃ n, addInt a.numWriteThread a.numReadThread = .ok n ∧
      (∀ i < n.toNat, i < 32 ∧ (fileName a.path i).length < 32) ∧
      threads = (List.range n.toNat).map (thread openFile a) := by
  constructor
  · intro h
    have hmain := h
    unfold main at h
    rw [if_neg (Nat.not_lt.mpr hargc), ha] at h
    obtain ⟨_, hb, h⟩ := Lib.bind_eq_ok.mp h
    cases hb
    obtain ⟨n, hn, h⟩ := Lib.bind_eq_ok.mp h
    obtain ⟨names, hnames, h⟩ := Lib.bind_eq_ok.mp h
    obtain ⟨options, hoptions, _⟩ := Lib.bind_eq_ok.mp h
    have hfit : ∀ i < n.toNat, i < 32 ∧ (fileName a.path i).length < 32 := by
      intro i hi
      obtain ⟨o, _, ho⟩ := Lib.ok_of_mapM hoptions (List.mem_range.mpr hi)
      obtain ⟨name, _, hname⟩ := Lib.ok_of_mapM hnames (List.mem_range.mpr hi)
      exact ⟨lt_of_threadOptions ho, lt_of_store hname⟩
    rw [main_ok hargc ha hn hfit] at hmain
    exact ⟨n, hn, hfit, (Except.ok.inj hmain).symm⟩
  · rintro ⟨n, hn, hfit, rfl⟩
    exact main_ok hargc ha hn hfit

end

end

/-! ## What was asked for -/

def Args.writers (a : Args) : Nat := a.numWriteThread.toInt.toNat

def Args.readers (a : Args) : Nat := a.numReadThread.toInt.toNat

/-- The integers of a command line. -/
structure Asked where
  writeType : Int
  numWriteThread : Int
  writeBlockSize : Int
  readType : Int
  numReadThread : Int
  readBlockSize : Int
  deriving Repr, DecidableEq

def asked (argv : List Text) : Asked where
  writeType := integer (argv.getD 4 [])
  numWriteThread := integer (argv.getD 5 [])
  writeBlockSize := integer (argv.getD 6 [])
  readType := integer (argv.getD 7 [])
  numReadThread := integer (argv.getD 8 [])
  readBlockSize := integer (argv.getD 9 [])

def Asked.typeOf (q : Asked) (i : Nat) : Int := if i < q.numWriteThread.toNat then q.writeType else q.readType

/-- The threads do what the arguments say. -/
structure AsAsked (q : Asked) (threads : List Thread) : Prop where
  writers : threads.countP (fun t => t.task.any Task.writes) = q.numWriteThread.toNat
  readers : threads.countP (fun t => t.task.any (!·.writes)) = q.numReadThread.toNat
  writeBlock : ∀ t ∈ threads, t.task.any Task.writes → (t.options.blockSize.toNat : Int) = q.writeBlockSize
  readBlock : ∀ t ∈ threads, t.task.any (!·.writes) → (t.options.blockSize.toNat : Int) = q.readBlockSize
  random : ∀ i t, threads[i]? = some t → (t.task.any Task.random ↔ q.typeOf i = 1)
  files : (threads.map (·.file)).Nodup

/-- What `main` keeps of few threads and of a type `1`. -/
structure Kept (q : Asked) (a : Args) : Prop where
  writers : a.numWriteThread.toInt = q.numWriteThread
  readers : a.numReadThread.toInt = q.numReadThread
  writeType : q.writeType = 1 → a.writeType = 1
  readType : q.readType = 1 → a.readType = 1

theorem kept_of_parse {argv : List Text} {a : Args} (h : parse argv = .ok a) (hw : 0 ≤ (asked argv).numWriteThread)
    (hr : 0 ≤ (asked argv).numReadThread) (hsum : (asked argv).numWriteThread + (asked argv).numReadThread ≤ 32) :
    Kept (asked argv) a := by
  unfold parse at h
  obtain ⟨_, -, h⟩ := Lib.bind_eq_ok.mp h
  obtain ⟨_, -, h⟩ := Lib.bind_eq_ok.mp h
  obtain ⟨_, -, h⟩ := Lib.bind_eq_ok.mp h
  obtain ⟨writeType, hwt, h⟩ := Lib.bind_eq_ok.mp h
  obtain ⟨numWriteThread, hnw, h⟩ := Lib.bind_eq_ok.mp h
  obtain ⟨_, -, h⟩ := Lib.bind_eq_ok.mp h
  obtain ⟨readType, hrt, h⟩ := Lib.bind_eq_ok.mp h
  obtain ⟨numReadThread, hnr, h⟩ := Lib.bind_eq_ok.mp h
  obtain ⟨_, -, h⟩ := Lib.bind_eq_ok.mp h
  cases h
  have hone : ∀ {x : Int32} {i : Nat}, argInt argv i = .ok x → integer (argv.getD i []) = 1 → x = 1 := by
    intro x i hx hi
    rw [eq_of_argInt hx, ← Int32.toInt_inj, toInt_atol (by omega) (by omega), hi]
    rfl
  refine ⟨?_, ?_, hone hwt, hone hrt⟩
  · rw [eq_of_argInt hnw]
    simp only [asked] at hw hr hsum
    exact toInt_atol (by omega) (by omega)
  · rw [eq_of_argInt hnr]
    simp only [asked] at hw hr hsum
    exact toInt_atol (by omega) (by omega)

section
variable {openFile : Text → Int} {a : Args} (hw : 0 ≤ a.numWriteThread.toInt)
include hw

theorem task_thread (i : Nat) : (thread openFile a i).task =
    Task.ofType (if i < a.writers then OPT_WRITE ||| a.writeType else OPT_READ ||| a.readType) := by
  have hrole : (i : Int) < a.numWriteThread.toInt ↔ i < a.writers := by
    unfold Args.writers
    omega
  simp only [thread, hrole]

/-- All writers have one task, and all readers. -/
theorem countP_threads (p : Option Task → Bool) (r : Nat) :
    ((List.range (a.writers + r)).map (thread openFile a)).countP (fun t => p t.task) =
      (if p (Task.ofType (OPT_WRITE ||| a.writeType)) then a.writers else 0) +
        if p (Task.ofType (OPT_READ ||| a.readType)) then r else 0 := by
  have hconst : ∀ (l : List Nat) (f : Nat → Nat) (task : Option Task),
      (∀ i ∈ l, (thread openFile a (f i)).task = task) →
      l.countP (fun i => p (thread openFile a (f i)).task) = if p task then l.length else 0 := by
    intro l f task h
    have : l.countP (fun i => p (thread openFile a (f i)).task) = l.countP fun _ => p task :=
      List.countP_congr fun i hi => by rw [h i hi]
    rw [this]
    cases p task <;> simp
  rw [List.countP_map, List.range_add, List.countP_append, List.countP_map]
  refine congrArg₂ (· + ·) ?_ ?_
  · refine (hconst (List.range a.writers) id _ fun i hi => ?_).trans (by rw [List.length_range])
    rw [id, task_thread hw, if_pos (List.mem_range.mp hi)]
  · refine (hconst (List.range r) (a.writers + ·) _ fun i _ => ?_).trans (by rw [List.length_range])
    rw [task_thread hw, if_neg (by omega)]

end

theorem not_reads_write (x : Int32) : (Task.ofType (OPT_WRITE ||| x)).any (!·.writes) = false := by
  rw [Task.ofType_write]
  split
  · rfl
  · split <;> rfl

theorem writes_write_iff {x : Int32} :
    (Task.ofType (OPT_WRITE ||| x)).any Task.writes = true ↔ x = 0 ∨ x = 1 ∨ x = 2 ∨ x = 3 := by
  rw [Task.ofType_write]
  by_cases h₁ : x = 1 ∨ x = 3
  · simp only [h₁, if_true]
    exact iff_of_true rfl (by tauto)
  · by_cases h₂ : x = 0 ∨ x = 2
    · simp only [h₁, h₂, if_false, if_true]
      exact iff_of_true rfl (by tauto)
    · simp only [h₁, h₂, if_false]
      exact iff_of_false (by decide) (by tauto)

theorem random_write_iff {x : Int32} :
    (Task.ofType (OPT_WRITE ||| x)).any Task.random = true ↔ x = 1 ∨ x = 3 := by
  rw [Task.ofType_write]
  by_cases h₁ : x = 1 ∨ x = 3
  · simp only [h₁, if_true]
    exact iff_of_true rfl trivial
  · simp only [h₁, if_false, iff_false]
    split <;> decide

theorem task_read (x : Int32) :
    ((Task.ofType (OPT_READ ||| x)).any Task.writes = true ↔ x = 2 ∨ x = 3) ∧
      ((Task.ofType (OPT_READ ||| x)).any (!·.writes) = true ↔ x = 0 ∨ x = 1) ∧
      ((Task.ofType (OPT_READ ||| x)).any Task.random = true ↔ x = 1 ∨ x = 3) := by
  rw [Task.ofType_read]
  by_cases h₃ : x = 3
  · subst h₃
    decide
  by_cases h₂ : x = 2
  · subst h₂
    decide
  by_cases h₁ : x = 1
  · subst h₁
    decide
  by_cases h₀ : x = 0
  · subst h₀
    decide
  simp [h₀, h₁, h₂, h₃]

theorem not_writes_read {x : Int32} (h : x = 0 ∨ x = 1) : (Task.ofType (OPT_READ ||| x)).any Task.writes = false := by
  rcases h with rfl | rfl <;> decide

section
variable {openFile : Text → Int} {q : Asked} {a : Args} (hq : Kept q a)
include hq

theorem Kept.typeOf (i : Nat) : q.typeOf i = if i < a.writers then q.writeType else q.readType := by
  rw [Asked.typeOf, ← hq.writers]
  rfl

theorem Kept.random_write (h : a.writeType = 0 ∨ a.writeType = 2 ∨ q.writeType = 1) :
    (Task.ofType (OPT_WRITE ||| a.writeType)).any Task.random = true ↔ q.writeType = 1 := by
  rw [random_write_iff]
  refine ⟨fun hrandom => ?_, fun hone => .inl (hq.writeType hone)⟩
  rcases h with h₀ | h₂ | h₁
  · rw [h₀] at hrandom
    exact absurd hrandom (by decide)
  · rw [h₂] at hrandom
    exact absurd hrandom (by decide)
  · exact h₁

theorem Kept.random_read (h : a.readType = 0 ∨ q.readType = 1) :
    (Task.ofType (OPT_READ ||| a.readType)).any Task.random = true ↔ q.readType = 1 := by
  rw [(task_read a.readType).2.2]
  refine ⟨fun hrandom => ?_, fun hone => .inl (hq.readType hone)⟩
  rcases h with h₀ | h₁
  · rw [h₀] at hrandom
    exact absurd hrandom (by decide)
  · exact h₁

variable (hw : 0 ≤ a.numWriteThread.toInt)
include hw

theorem types_of_asAsked (h : AsAsked q ((List.range (a.writers + a.readers)).map (thread openFile a))) :
    (0 < a.writers → (a.writeType = 0 ∨ a.writeType = 2 ∨ q.writeType = 1) ∧
      (a.writeBlockSize.toNat : Int) = q.writeBlockSize) ∧
    (0 < a.readers → (a.readType = 0 ∨ q.readType = 1) ∧ (a.writeBlockSize.toNat : Int) = q.readBlockSize) := by
  obtain ⟨-, hreads, hrandom⟩ := task_read a.readType
  have hwriters := h.writers
  have hreaders := h.readers
  rw [countP_threads hw (·.any Task.writes), ← hq.writers] at hwriters
  rw [countP_threads hw (·.any (!·.writes)), not_reads_write, ← hq.readers] at hreaders
  change _ = a.writers at hwriters
  change _ = a.readers at hreaders
  have hread : 0 < a.readers → a.readType = 0 ∨ a.readType = 1 := by
    intro hpos
    refine hreads.mp (Classical.byContradiction fun hnot => ?_)
    rw [if_neg hnot] at hreaders
    simp at hreaders
    omega
  refine ⟨fun hpos => ?_, fun hpos => ?_⟩
  · have hmine : (Task.ofType (OPT_WRITE ||| a.writeType)).any Task.writes = true := by
      -- writers in place of the missing ones would be readers
      refine Classical.byContradiction fun hnot => ?_
      rw [if_neg hnot] at hwriters
      by_cases hnone : 0 < a.readers
      · rw [not_writes_read (hread hnone)] at hwriters
        simp at hwriters
        omega
      · split at hwriters <;> omega
    refine ⟨?_, ?_⟩
    · have hzero := h.random 0 (thread openFile a 0) (by simp [hpos])
      rw [task_thread hw, if_pos hpos, random_write_iff, hq.typeOf, if_pos hpos] at hzero
      rcases writes_write_iff.mp hmine with h₀ | h₁ | h₂ | h₃
      · exact .inl h₀
      · exact .inr (.inr (hzero.mp (.inl h₁)))
      · exact .inr (.inl h₂)
      · exact .inr (.inr (hzero.mp (.inr h₃)))
    · refine h.writeBlock (thread openFile a 0) ?_ ?_
      · exact List.mem_map_of_mem (List.mem_range.mpr (by omega))
      · rwa [task_thread hw, if_pos hpos]
  · have hlt : ¬ a.writers < a.writers := Nat.lt_irrefl _
    refine ⟨?_, ?_⟩
    · have hlast := h.random a.writers (thread openFile a a.writers) (by simp [hpos])
      rw [task_thread hw, if_neg hlt, hrandom, hq.typeOf, if_neg hlt] at hlast
      rcases hread hpos with h₀ | h₁
      · exact .inl h₀
      · exact .inr (hlast.mp (.inl h₁))
    · refine h.readBlock (thread openFile a a.writers) ?_ ?_
      · exact List.mem_map_of_mem (List.mem_range.mpr (by omega))
      · rw [task_thread hw, if_neg hlt]
        exact hreads.mpr (hread hpos)

theorem asAsked_of_types
    (hwt : 0 < a.writers → (a.writeType = 0 ∨ a.writeType = 2 ∨ q.writeType = 1) ∧
      (a.writeBlockSize.toNat : Int) = q.writeBlockSize)
    (hrt : 0 < a.readers → (a.readType = 0 ∨ q.readType = 1) ∧ (a.writeBlockSize.toNat : Int) = q.readBlockSize) :
    AsAsked q ((List.range (a.writers + a.readers)).map (thread openFile a)) := by
  have hwrite : 0 < a.writers → a.writeType = 0 ∨ a.writeType = 1 ∨ a.writeType = 2 := by
    intro hpos
    rcases (hwt hpos).1 with h | h | h
    · exact .inl h
    · exact .inr (.inr h)
    · exact .inr (.inl (hq.writeType h))
  have hread : 0 < a.readers → a.readType = 0 ∨ a.readType = 1 := fun hpos =>
    (hrt hpos).1.imp_right hq.readType
  refine ⟨?_, ?_, fun t ht hr => ?_, fun t ht hr => ?_, fun i t ht => ?_, ?_⟩
  · rw [countP_threads hw (·.any Task.writes), ← hq.writers]
    refine congrArg₂ (· + ·) (ite_eq_left_iff.mpr fun hnot => ?_) (ite_eq_right_iff.mpr fun hother => ?_)
    · refine (Nat.eq_zero_of_not_pos fun hpos => hnot (writes_write_iff.mpr ?_)).symm
      rcases hwrite hpos with h | h | h <;> simp [h]
    · refine Nat.eq_zero_of_not_pos fun hpos => ?_
      rw [not_writes_read (hread hpos)] at hother
      cases hother
  · rw [countP_threads hw (·.any (!·.writes)), not_reads_write, ← hq.readers]
    refine (Nat.zero_add _).trans (ite_eq_left_iff.mpr fun hnot => ?_)
    exact (Nat.eq_zero_of_not_pos fun hpos => hnot ((task_read _).2.1.mpr (hread hpos))).symm
  · obtain ⟨i, hi, rfl⟩ := List.mem_map.mp ht
    have hi := List.mem_range.mp hi
    rw [task_thread hw] at hr
    by_cases hrole : i < a.writers
    · exact (hwt (by omega)).2
    · rw [if_neg hrole, not_writes_read (hread (by omega))] at hr
      cases hr
  · obtain ⟨i, hi, rfl⟩ := List.mem_map.mp ht
    have hi := List.mem_range.mp hi
    rw [task_thread hw] at hr
    by_cases hrole : i < a.writers
    · rw [if_pos hrole, not_reads_write] at hr
      cases hr
    · exact (hrt (by omega)).2
  · rw [List.getElem?_map, Option.map_eq_some_iff] at ht
    obtain ⟨j, hj, rfl⟩ := ht
    obtain ⟨hi, rfl⟩ := List.getElem?_eq_some_iff.mp hj
    rw [List.length_range] at hi
    rw [List.getElem_range, task_thread hw, hq.typeOf]
    by_cases hrole : i < a.writers
    · rw [if_pos hrole, if_pos hrole]
      exact hq.random_write (hwt (by omega)).1
    · rw [if_neg hrole, if_neg hrole]
      exact hq.random_read (hrt (by omega)).1
  · rw [List.map_map]
    exact List.Nodup.map (fun i j he => fileName_inj he) List.nodup_range

end

/-- **The threads are as asked for** exactly when the paths fit, the types are
types of their role, and readers and writers have the block size of the writers.
A type is one of its role if `main` keeps `0` of it (or `2`, for writers), or if
it is `1` itself: another integer of which an `int` keeps `1` makes the threads
random though they were not asked to be. -/
theorem as_asked_iff (openFile : Text → Int) {argv : List Text} (hargc : 10 ≤ argv.length) {a : Args}
    (ha : parse argv = .ok a) (hw : 0 ≤ (asked argv).numWriteThread) (hr : 0 ≤ (asked argv).numReadThread)
    (hsum : (asked argv).numWriteThread + (asked argv).numReadThread ≤ 32) :
    (∃ threads, main openFile argv = .ok threads ∧ AsAsked (asked argv) threads) ↔
      (∀ i < a.writers + a.readers, (fileName a.path i).length < 32) ∧
      (0 < a.writers → (a.writeType = 0 ∨ a.writeType = 2 ∨ (asked argv).writeType = 1) ∧
        (a.writeBlockSize.toNat : Int) = (asked argv).writeBlockSize) ∧
      (0 < a.readers → (a.readType = 0 ∨ (asked argv).readType = 1) ∧
        (a.writeBlockSize.toNat : Int) = (asked argv).readBlockSize) := by
  have hq := kept_of_parse ha hw hr hsum
  rw [← hq.writers] at hw hsum
  rw [← hq.readers] at hr hsum
  have hn : addInt a.numWriteThread a.numReadThread = .ok (a.numWriteThread.toInt + a.numReadThread.toInt) :=
    if_pos (by omega)
  have hcount : (a.numWriteThread.toInt + a.numReadThread.toInt).toNat = a.writers + a.readers := Int.toNat_add hw hr
  constructor
  · rintro ⟨threads, hmain, hasked⟩
    obtain ⟨n, hn', hfit, rfl⟩ := (main_eq_ok_iff hargc ha).mp hmain
    obtain rfl := Except.ok.inj (hn.symm.trans hn')
    rw [hcount] at hfit hasked
    exact ⟨fun i hi => (hfit i hi).2, types_of_asAsked hq hw hasked⟩
  · rintro ⟨hfit, hwt, hrt⟩
    refine ⟨_, main_ok hargc ha hn fun i hi => ?_, ?_⟩
    · rw [hcount] at hi
      refine ⟨?_, hfit i hi⟩
      unfold Args.writers Args.readers at hi
      omega
    · rw [hcount]
      exact asAsked_of_types hq hw hwt hrt

/-- Two writers with blocks of `4 KiB` and two readers. -/
def twoAndTwo (readType readBlockSize : Text) : List Text :=
  [['p'], ['/', 'd'], ['1'], ['1'], ['0'], ['2'], ['4', '0', '9', '6'], readType, ['2'], readBlockSize]

theorem as_asked_iff_one_size : ∃ threads,
    main (fun _ => 3) (twoAndTwo ['1'] ['4', '0', '9', '6']) = .ok threads ∧
      AsAsked (asked (twoAndTwo ['1'] ['4', '0', '9', '6'])) threads :=
  (as_asked_iff (fun _ => 3) (by decide) rfl (by decide) (by decide) (by decide)).mpr
    ⟨by decide, fun _ => ⟨.inl rfl, by decide⟩, fun _ => ⟨.inr (by decide), by decide⟩⟩

/-- Readers that ask for blocks of `512` bytes get those of the writers, and
readers of type `2` write. -/
theorem not_as_asked :
    (¬ ∃ threads, main (fun _ => 3) (twoAndTwo ['1'] ['5', '1', '2']) = .ok threads ∧
      AsAsked (asked (twoAndTwo ['1'] ['5', '1', '2'])) threads) ∧
    ¬ ∃ threads, main (fun _ => 3) (twoAndTwo ['2'] ['4', '0', '9', '6']) = .ok threads ∧
      AsAsked (asked (twoAndTwo ['2'] ['4', '0', '9', '6'])) threads := by
  have hsum : addInt 2 2 = .ok 4 := rfl
  refine ⟨?_, ?_⟩
  · rintro ⟨threads, hmain, hasked⟩
    obtain ⟨n, hn, _, rfl⟩ := (main_eq_ok_iff (by decide) rfl).mp hmain
    obtain rfl := Except.ok.inj (hsum.symm.trans hn)
    have hkept := @kept_of_parse (twoAndTwo ['1'] ['5', '1', '2']) _ rfl (by decide) (by decide) (by decide)
    have hblocks := ((types_of_asAsked hkept (by decide) hasked).2 (by decide)).2
    revert hblocks
    decide
  · rintro ⟨threads, hmain, hasked⟩
    obtain ⟨n, hn, _, rfl⟩ := (main_eq_ok_iff (by decide) rfl).mp hmain
    obtain rfl := Except.ok.inj (hsum.symm.trans hn)
    have hkept := @kept_of_parse (twoAndTwo ['2'] ['4', '0', '9', '6']) _ rfl (by decide) (by decide) (by decide)
    have htypes := ((types_of_asAsked hkept (by decide) hasked).2 (by decide)).1
    revert htypes
    decide

end IoTester.TailPosix

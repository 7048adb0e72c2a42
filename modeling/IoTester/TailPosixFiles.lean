import IoTester.TailPosixRunSound

/-!
# The test files of `tail_latency/posix.cc`

`main` fills the test files with `0xff` before it starts the threads, and all
that the threads write is `0xff` again. So a file holds `0xff` from its start to
the file size at any time, and past it as far as some thread has written beyond
the file size; the readers never read a hole.
-/

namespace IoTester.TailPosix

open Lib

/-! ## Filling -/

theorem ffWrite_full {wrote : Nat → Nat} (hw : ∀ i, 16384 ≤ wrote i) (f : List UInt8) (n : Nat) :
    (List.range n).foldl (ffWrite wrote) (f, 0) =
      (List.replicate (n * 16384) 0xff ++ f.drop (n * 16384), n * 16384) := by
  induction n with
  | zero => simp
  | succ n ih =>
    have hmin : min (wrote n) 16384 = 16384 := Nat.min_eq_right (hw n)
    have hnext : max (n * 16384) (n * 16384 + 16384) = (n + 1) * 16384 := by omega
    rw [List.range_succ, List.foldl_append, ih]
    simp only [List.foldl_cons, List.foldl_nil, ffWrite, hmin]
    rw [fill_front 0 0xff f (s := ⟨n * 16384, 16384⟩) (Nat.le_refl _), hnext, Nat.succ_mul]

theorem ffFile_full {wrote : Nat → Nat} (hw : ∀ i, 16384 ≤ wrote i) {sz : UInt64} (hsz : 16384 ∣ sz.toNat)
    (f : List UInt8) : ffFile wrote sz f = List.replicate sz.toNat 0xff ++ f.drop sz.toNat := by
  have hblocks : (sz / 16384).toNat * 16384 = sz.toNat := by
    rw [UInt64.toNat_div]
    exact Nat.div_mul_cancel hsz
  rw [ffFile, ffWrite_full hw, hblocks]

theorem prepareFile_full {c : Calls} (ho : c.opened = true) (hw : ∀ i, 16384 ≤ c.wrote i) {size : UInt64}
    (hsize : 16384 ∣ size.toNat) (f : Option (List UInt8)) :
    prepareFile c size f = some (List.replicate size.toNat 0xff ++ (f.getD []).drop size.toNat) := by
  simp only [prepareFile, ho, if_true, ffFile_full hw hsize]
  by_cases ha : c.allocated = true
  · -- what `fallocate` adds is before the file size
    rw [if_pos ha, List.drop_append]
    simp
  · rw [if_neg ha]

section
variable {calls : Nat → Calls} {a : Args} {disk : Disk}

theorem prepare_other {file : Text} {n : Nat} (h : ∀ i < n, file ≠ fileName a.path i) :
    prepare calls a n disk file = disk file := by
  induction n with
  | zero => rfl
  | succ n ih =>
    simp only [prepare]
    rw [Function.update_of_ne (h n (Nat.lt_succ_self n))]
    apply ih
    intro i hi
    exact h i (Nat.lt_succ_of_lt hi)

theorem prepare_file {i n : Nat} (h : i < n) :
    prepare calls a n disk (fileName a.path i) = prepareFile (calls i) a.fileSize (disk (fileName a.path i)) := by
  induction n with
  | zero => exact absurd h (Nat.not_lt_zero i)
  | succ n ih =>
    simp only [prepare]
    by_cases hi : i = n
    · subst hi
      rw [Function.update_self, prepare_other]
      intro j hj he
      rw [fileName_inj he] at hj
      exact absurd hj (Nat.lt_irrefl j)
    · rw [Function.update_of_ne (fun he => hi (fileName_inj he))]
      exact ih (by omega)

end

theorem dvd_fileSize {argv : List Text} {a : Args} (h : parse argv = .ok a) : 16384 ∣ a.fileSize.toNat := by
  unfold parse at h
  obtain ⟨_, -, h⟩ := Lib.bind_eq_ok.mp h
  obtain ⟨gigabytes, -, h⟩ := Lib.bind_eq_ok.mp h
  obtain ⟨_, -, h⟩ := Lib.bind_eq_ok.mp h
  obtain ⟨_, -, h⟩ := Lib.bind_eq_ok.mp h
  obtain ⟨_, -, h⟩ := Lib.bind_eq_ok.mp h
  obtain ⟨_, -, h⟩ := Lib.bind_eq_ok.mp h
  obtain ⟨_, -, h⟩ := Lib.bind_eq_ok.mp h
  obtain ⟨_, -, h⟩ := Lib.bind_eq_ok.mp h
  obtain ⟨_, -, h⟩ := Lib.bind_eq_ok.mp h
  cases h
  have hmod : (gigabytes * 1073741824).toNat = gigabytes.toNat * 1073741824 % 2 ^ 64 := UInt64.toNat_mul ..
  simp only [hmod]
  omega

/-! ## The threads -/

/-- The file is `0xff` up to some place from the file size to a block past it,
and what it was before from there on. -/
def Filled (fs bs : UInt64) (old f : Option (List UInt8)) : Prop :=
  ∃ m, fs.toNat ≤ m ∧ m ≤ fs.toNat + bs.toNat ∧ f = some (List.replicate m 0xff ++ (old.getD []).drop m)

theorem Filled.write {fs bs pos : UInt64} {old f : Option (List UInt8)} (h : Filled fs bs old f) (hpos : pos ≤ fs)
    (n : Nat) : Filled fs bs old (f.map fun f => fill 0 0xff f ⟨pos.toNat, min n bs.toNat⟩) := by
  obtain ⟨m, hm, hle, rfl⟩ := h
  have hpos : pos.toNat ≤ fs.toNat := UInt64.le_iff_toNat_le.mp hpos
  have hn : min n bs.toNat ≤ bs.toNat := Nat.min_le_right ..
  refine ⟨max m (pos.toNat + min n bs.toNat), ?_, ?_, ?_⟩
  · exact Nat.le_trans hm (Nat.le_max_left ..)
  · exact Nat.max_le.mpr ⟨hle, Nat.add_le_add hpos hn⟩
  · rw [Option.map_some, fill_front 0 0xff _ (Nat.le_trans hpos hm)]

/-- The test files, when each thread has its own. -/
structure Contents (threads : List Thread) (disk₀ : Disk) (s : State) : Prop where
  filled : ∀ ⦃t : Nat⦄ ⦃th : Thread⦄, threads[t]? = some th →
    Filled th.options.fileSize th.options.blockSize (disk₀ th.file) (s.disk th.file)
  other : ∀ file, (∀ (t : Nat) (th : Thread), threads[t]? = some th → file ≠ th.file) → s.disk file = disk₀ file

namespace Contents

variable {threads : List Thread} {disk₀ : Disk} {s u : State} (h : Contents threads disk₀ s)
include h

theorem frame (hd : u.disk = s.disk) : Contents threads disk₀ u := by
  refine ⟨?_, ?_⟩
  · rw [hd]
    exact h.filled
  · rw [hd]
    exact h.other

theorem wrote {t : Nat} {th : Thread} {pos : UInt64} (n : Nat) (ht : threads[t]? = some th)
    (hfiles : (threads.map (·.file)).Nodup) (hpos : pos ≤ th.options.fileSize) :
    Contents threads disk₀ (s.wrote th pos n) := by
  unfold State.wrote
  by_cases hfd : th.options.fd < 0
  · rw [if_pos hfd]
    exact h
  · rw [if_neg hfd]
    refine ⟨?_, ?_⟩
    · intro t' th' ht'
      by_cases hfile : th'.file = th.file
      · -- a file is the file of one thread
        have heq : t' = t := by
          have hlt : t' < (threads.map (·.file)).length := by
            rw [List.length_map]
            exact (List.getElem?_eq_some_iff.mp ht').1
          apply (List.getElem?_inj hlt hfiles).mp
          simp [ht, ht', hfile]
        subst heq
        rw [ht] at ht'
        cases ht'
        simpa using (h.filled ht).write hpos n
      · simpa [hfile] using h.filled ht'
    · intro file hother
      simpa [hother t th ht] using h.other file hother

theorem moves {savePath : Text} {saved : Detail.Files} {t : Nat} {th : Thread} (ht : threads[t]? = some th)
    (hfiles : (threads.map (·.file)).Nodup) (hinv : Inv threads savePath saved s) (hm : Moves savePath s t th u) :
    Contents threads disk₀ u := by
  cases hm with
  | pass tick n k hpc hk =>
    have hpos := (hinv.follows ht hk).pos
    have hcontents : Contents threads disk₀ (s.transfer th k (s.worker t).loop.pos n) := by
      unfold State.transfer
      cases k.op with
      | pread => exact h
      | pwrite => exact h.wrote n ht hfiles hpos
    exact hcontents.frame rfl
  | _ => exact h.frame rfl

end Contents

section
variable {openFile : Text → Int} {a : Args} {n : Nat}

theorem nodup_files : (((List.range n).map (thread openFile a)).map (·.file)).Nodup := by
  rw [List.map_map]
  exact List.Nodup.map (fun i j he => fileName_inj he) List.nodup_range

theorem contents_start {calls : Nat → Calls} (hcalls : ∀ i < n, (calls i).opened = true ∧ ∀ j, 16384 ≤ (calls i).wrote j)
    (hsize : 16384 ∣ a.fileSize.toNat) (disk : Disk) (saved : Detail.Files) :
    Contents ((List.range n).map (thread openFile a)) disk (start calls a n disk saved) := by
  refine ⟨?_, ?_⟩
  · intro t th ht
    obtain ⟨hlt, rfl⟩ := getElem?_threads ht
    obtain ⟨hopen, hwrote⟩ := hcalls t hlt
    refine ⟨a.fileSize.toNat, Nat.le_refl _, Nat.le_add_right .., ?_⟩
    exact (prepare_file hlt).trans (prepareFile_full hopen hwrote hsize _)
  · intro file hfile
    refine prepare_other fun i hi => ?_
    exact hfile i (thread openFile a i) (by simp [hi])

end

/-- **The test files.** If `main` could open the test files and every `write`
took its block, then at any time while the threads run a test file is `0xff`
from its start to the file size and at most one block past it, and as it was
before from there on; and so is what any request inside the file size reads. All
other files are as they were. -/
theorem files_stay_filled {openFile : Text → Int} {argv : List Text} (hargc : 10 ≤ argv.length) {a : Args}
    (ha : parse argv = .ok a) {threads : List Thread} (hmain : main openFile argv = .ok threads) {calls : Nat → Calls}
    (hcalls : ∀ i < threads.length, (calls i).opened = true ∧ ∀ j, 16384 ≤ (calls i).wrote j)
    (savePath : Text) (disk : Disk) (saved : Detail.Files) {s : State}
    (h : Reach (step threads savePath) (fun _ => True) (start calls a threads.length disk saved) s) :
    (∀ i < threads.length, ∃ f m, s.disk (fileName a.path i) = some f ∧
      a.fileSize.toNat ≤ m ∧ m ≤ a.fileSize.toNat + a.writeBlockSize.toNat ∧
      f = List.replicate m 0xff ++ ((disk (fileName a.path i)).getD []).drop m ∧
      ∀ pos len, pos + len ≤ a.fileSize.toNat → readAt f pos len = List.replicate len 0xff) ∧
    ∀ file, (∀ i < threads.length, file ≠ fileName a.path i) → s.disk file = disk file := by
  obtain ⟨n, -, -, rfl⟩ := (main_eq_ok_iff hargc ha).mp hmain
  have hlen : ((List.range n.toNat).map (thread openFile a)).length = n.toNat := by simp
  rw [hlen] at hcalls h ⊢
  have hboth : Inv ((List.range n.toNat).map (thread openFile a)) savePath saved s ∧
      Contents ((List.range n.toNat).map (thread openFile a)) disk s := by
    refine h.invariant (P := fun s => Inv _ savePath saved s ∧ Contents _ disk s)
      ⟨Inv.init _, contents_start hcalls (dvd_fileSize ha) disk saved⟩ ?_
    intro x y l _ hs hx
    obtain ⟨th, ht, hm⟩ := step_moves hs
    exact ⟨hx.1.moves (apart_threads openFile a n.toNat) ht hm, hx.2.moves ht nodup_files hx.1 hm⟩
  refine ⟨?_, ?_⟩
  · intro i hi
    have hi : ((List.range n.toNat).map (thread openFile a))[i]? = some (thread openFile a i) := by simp [hi]
    obtain ⟨m, hm, hle, hfile⟩ := hboth.2.filled hi
    refine ⟨_, m, hfile, hm, hle, rfl, ?_⟩
    intro pos len hfit
    have hin : pos + len ≤ m := Nat.le_trans hfit hm
    rw [readAt_append_left (by simpa using hin), readAt_replicate _ hin]
  · intro file hfile
    refine hboth.2.other file fun t th ht => ?_
    obtain ⟨hlt, rfl⟩ := getElem?_threads ht
    exact hfile t hlt

/-- The first of the writers of a run with files of `1 GiB` has done a pass. -/
theorem files_stay_filled_one_pass : ∃ s, Reach (step pair ['r']) (fun _ => True)
      (start (fun _ => ⟨true, true, fun _ => 16384⟩) pairArgs 2 (fun _ => none) (fun _ => none)) s ∧
      (s.worker 0).pc = .loop ∧ ∃ f m, s.disk ['/', 'd', '/', '0', '.', 'i', 'o'] = some f ∧
        1073741824 ≤ m ∧ m ≤ 1073745920 ∧ readAt f 0 4096 = List.replicate 4096 0xff := by
  obtain ⟨s, hrun, hs⟩ : ∃ s, Reach (step pair ['r']) (fun _ => True)
      (start (fun _ => ⟨true, true, fun _ => 16384⟩) pairArgs 2 (fun _ => none) (fun _ => none)) s ∧
        decide ((s.worker 0).pc = .loop) = true :=
    Reach.of_check [.enter 0 (some 4096) ⟨1, 0⟩, .pass 0 ⟨⟨1, 5⟩, ⟨1, 9⟩, ⟨1, 10⟩⟩ 512] (fun _ _ => trivial)
      (by decide +kernel)
  obtain ⟨hfiles, -⟩ := files_stay_filled (by decide) rfl main_pair (fun _ _ => ⟨rfl, fun _ => Nat.le_refl _⟩)
    _ _ _ hrun
  obtain ⟨f, m, hf, hm, hle, -, hread⟩ := hfiles 0 (by decide)
  exact ⟨s, hrun, of_decide_eq_true hs, f, m, hf, hm, hle, hread 0 4096 (by decide)⟩

end IoTester.TailPosix

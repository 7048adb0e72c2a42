import IoTester.Lib.Cursor
import IoTester.IoPosix
import IoTester.TailPosix

/-!
# The cursors of the POSIX workers

The workers that wrap test only the start of the next request against the file
size, and let it be equal. Their positions are those of a cyclic cursor with
bound `file_size + 1`, whatever the length of a request is.
-/

namespace IoTester

open Lib

def posixCursor (skip fs : UInt64) : Cursor := ⟨skip.toNat, fs.toNat + 1, 2 ^ 64⟩

section
variable (skip fs : UInt64)

theorem posixCursor_fits : (posixCursor skip fs).bound ≤ (posixCursor skip fs).word := fs.toNat_lt

theorem posixCursor_bound_pos : 0 < (posixCursor skip fs).bound := Nat.succ_pos _

theorem lap_posixCursor (hs : 0 < skip.toNat) : (posixCursor skip fs).lap = fs.toNat / skip.toNat + 1 := by
  show (fs.toNat + 1 + skip.toNat - 1) / skip.toNat = _
  rw [show fs.toNat + 1 + skip.toNat - 1 = fs.toNat + skip.toNat by omega, Nat.add_div_right _ hs]

theorem toNat_advance (pos : UInt64) :
    (TailPosix.advance skip fs pos).toNat = (posixCursor skip fs).next pos.toNat := by
  have e : (posixCursor skip fs).next pos.toNat =
      if fs.toNat + 1 ≤ (pos + skip).toNat then 0 else (pos + skip).toNat := by rw [UInt64.toNat_add]; rfl
  rw [e]
  simp only [TailPosix.advance, gt_iff_lt, UInt64.lt_iff_toNat_lt, Nat.lt_iff_add_one_le]
  split <;> rfl

theorem toNat_iterate_advance (k : Nat) :
    ((TailPosix.advance skip fs)^[k] 0).toNat = (posixCursor skip fs).pos k := by
  induction k with
  | zero => rfl
  | succ k ih => rw [Function.iterate_succ_apply', toNat_advance, ih]; rfl

end

theorem wrapAt_eq_advance : IoPosix.wrapAt = TailPosix.advance := rfl

/-! ## What a worker of `tail_latency` issues -/

/-- The clock that never moves: no pass ends the run. -/
def stillClock (n : Nat) : TailPosix.Clock := ⟨default, List.replicate n default⟩

section
variable (op : IoOp) (skip : UInt64) (o : TailPosix.WorkerOptions)

theorem loop_issued : ∀ (ticks : List TailPosix.Tick) (s : TailPosix.Loop),
    ∃ m, (TailPosix.loop op skip o ticks s).issued =
      s.issued ++ IoPosix.passes op o.fd o.blockSize (TailPosix.advance skip o.fileSize) m s.pos
  | [], s => ⟨0, by simp [TailPosix.loop, IoPosix.passes]⟩
  | t :: ts, s => by
    unfold TailPosix.loop
    simp only
    split
    · exact ⟨1, rfl⟩
    · obtain ⟨m, hm⟩ := loop_issued ts { s.issue op o t with
        pos := TailPosix.advance skip o.fileSize (s.issue op o t).pos }
      exact ⟨m + 1, by rw [hm]; simp [TailPosix.Loop.issue, IoPosix.passes]⟩

theorem loop_still : ∀ (n : Nat) (s : TailPosix.Loop), s.timer.start = default →
    (TailPosix.loop op skip o (List.replicate n default) s).issued =
      s.issued ++ IoPosix.passes op o.fd o.blockSize (TailPosix.advance skip o.fileSize) n s.pos
  | 0, s, _ => by simp [TailPosix.loop, IoPosix.passes]
  | n + 1, s, h => by
    rw [List.replicate_succ]
    unfold TailPosix.loop
    have hz : ¬ (s.issue op o default).timer.Get > o.runTime := by
      have : (s.issue op o default).timer.Get = 0 := by
        simp only [TailPosix.Loop.issue, Timer.Get_Stop, h]; rfl
      rw [this, gt_iff_lt, UInt64.lt_iff_toNat_lt]; simp
    simp only [hz, ite_false]
    rw [loop_still n _ (by simpa [TailPosix.Loop.issue, Timer.Stop] using h)]
    simp [TailPosix.Loop.issue, IoPosix.passes]

variable (tag savePath : Text) (memory : Memory)

theorem worker_crashes (h : TailPosix.crashes op o memory = true) (clock : TailPosix.Clock) :
    (TailPosix.worker op skip tag savePath o memory clock).loop.issued = [] := by
  simp [TailPosix.worker, h]

theorem worker_issued (clock : TailPosix.Clock) :
    ∃ m, (TailPosix.worker op skip tag savePath o memory clock).loop.issued =
      IoPosix.passes op o.fd o.blockSize (TailPosix.advance skip o.fileSize) m 0 := by
  cases hc : TailPosix.crashes op o memory with
  | true => exact ⟨0, worker_crashes op skip o tag savePath memory hc clock⟩
  | false =>
    obtain ⟨m, hm⟩ := loop_issued op skip o clock.ticks { timer := Timer.Start {} clock.start }
    exact ⟨m, by simpa [TailPosix.worker, hc] using hm⟩

theorem worker_still (h : TailPosix.crashes op o memory = false) (n : Nat) :
    (TailPosix.worker op skip tag savePath o memory (stillClock n)).loop.issued =
      IoPosix.passes op o.fd o.blockSize (TailPosix.advance skip o.fileSize) n 0 := by
  have := loop_still op skip o n { timer := Timer.Start {} default } rfl
  simpa [TailPosix.worker, stillClock, h] using this

end

/-! ## Requests against the file size -/

theorem passes_inFile_iff (op : IoOp) (fd : Int) (bs skip fs : UInt64) (n : Nat) :
    (∀ r ∈ IoPosix.passes op fd bs (TailPosix.advance skip fs) n 0, r.InFile fs) ↔
      ∀ k < n, (posixCursor skip fs).pos k + bs.toNat ≤ fs.toNat := by
  constructor
  · intro h k hk
    have := h _ (List.mem_of_getElem? (IoPosix.passes_getElem? op fd bs _ n 0 k hk))
    rwa [Request.InFile, toNat_iterate_advance] at this
  · intro h r hr
    obtain ⟨k, hk, rfl⟩ := IoPosix.mem_passes hr
    rw [Request.InFile, toNat_iterate_advance]
    exact h k hk

section
variable {skip fs bs : UInt64}

theorem pos_last :
    (posixCursor skip fs).pos (fs.toNat / skip.toNat) = fs.toNat / skip.toNat * skip.toNat := by
  refine Cursor.pos_first_lap _ (posixCursor_fits skip fs) ?_
  have := Nat.div_mul_le_self fs.toNat skip.toNat
  show _ < fs.toNat + 1
  simp only [posixCursor]; omega

theorem last_overruns (h : fs.toNat % skip.toNat < bs.toNat) :
    ¬ (posixCursor skip fs).pos (fs.toNat / skip.toNat) + bs.toNat ≤ fs.toNat := by
  rw [pos_last]
  have := Nat.div_add_mod' fs.toNat skip.toNat
  omega

theorem pos_room (hs : 0 < skip.toNat) (hl : (posixCursor skip fs).lap * skip.toNat ≤ 2 ^ 64)
    (h : bs.toNat ≤ fs.toNat % skip.toNat) (k : Nat) :
    (posixCursor skip fs).pos k + bs.toNat ≤ fs.toNat := by
  have hlt := (posixCursor skip fs).pos_lt (posixCursor_bound_pos skip fs) k
  obtain ⟨m, hm⟩ := (posixCursor skip fs).pos_dvd hs (posixCursor_bound_pos skip fs) hl k
  have hm' : (posixCursor skip fs).pos k = m * skip.toNat := by rw [hm, Nat.mul_comm]; rfl
  rw [hm'] at hlt ⊢
  have hle : m ≤ fs.toNat / skip.toNat := by
    rw [Nat.le_div_iff_mul_le hs]; exact Nat.lt_succ_iff.mp hlt
  have := Nat.mul_le_mul_right skip.toNat hle
  have := Nat.div_add_mod' fs.toNat skip.toNat
  omega

theorem pos_first_room (hbs : bs.toNat ≤ skip.toNat) {k n : Nat} (hk : k < n) (h : n ≤ fs.toNat / skip.toNat) :
    (posixCursor skip fs).pos k + bs.toNat ≤ fs.toNat := by
  have h1 := Nat.mul_le_mul_right skip.toNat (show k + 1 ≤ fs.toNat / skip.toNat by omega)
  rw [Nat.add_mul, Nat.one_mul] at h1
  have h2 := Nat.div_mul_le_self fs.toNat skip.toNat
  have h3 : k * skip.toNat < fs.toNat + 1 := by omega
  rw [Cursor.pos_first_lap _ (posixCursor_fits skip fs) h3]
  show k * skip.toNat + bs.toNat ≤ fs.toNat
  omega

end

/-! ## The wrapping workers of `io_tester` -/

theorem skipOf_cases {fs bs : UInt64} (hle : bs ≤ fs) :
    fs.toNat / bs.toNat ≤ 1 ∨ (IoPosix.skipOf bs).toNat = 16384 + bs.toNat := by
  have h1 := UInt64.le_iff_toNat_le.mp hle
  have h2 := fs.toNat_lt
  rcases Nat.lt_or_ge (16384 + bs.toNat) (2 ^ 64) with h | h
  · exact .inr (IoPosix.toNat_skipOf h)
  · left
    have : fs.toNat / bs.toNat < 2 := (Nat.div_lt_iff_lt_mul (by omega)).mpr (by omega)
    omega

/-- When a lap overflows, the loop ends before its second lap does: small
blocks make more than `2 ^ 31` requests a lap, and with large ones a stride is
at most two blocks. -/
theorem passes_lt_two_laps {fs bs n : Nat} (hb : 0 < bs) (hfs : fs < 2 ^ 64)
    (hl : 2 ^ 64 < (fs / (16384 + bs) + 1) * (16384 + bs)) (hn : n ≤ fs / bs) (hn' : n ≤ 2 ^ 31) :
    n < 2 * (fs / (16384 + bs) + 1) := by
  have hs : 0 < 16384 + bs := by omega
  by_cases hsm : bs < 16384
  · have hdiv := Nat.div_mul_le_self fs (16384 + bs)
    rw [Nat.add_mul, Nat.one_mul] at hl
    have : 2 ^ 31 ≤ fs / (16384 + bs) := by
      rw [Nat.le_div_iff_mul_le hs]
      omega
    omega
  · have hissued : n * bs ≤ fs := (Nat.le_div_iff_mul_le hb).mp hn
    have hlap : fs < 2 * (fs / (16384 + bs) + 1) * bs := by
      calc fs < (16384 + bs) * (fs / (16384 + bs) + 1) := Nat.lt_mul_div_succ fs hs
        _ ≤ 2 * bs * (fs / (16384 + bs) + 1) := Nat.mul_le_mul_right _ (by omega)
        _ = 2 * (fs / (16384 + bs) + 1) * bs := Nat.mul_right_comm _ _ _
    exact Nat.lt_of_mul_lt_mul_right (Nat.lt_of_le_of_lt hissued hlap)

/-- **Room past the last position.** A remainder that holds a block keeps every
request inside the file, also when the position overflows: it then starts
again less than `16 KiB` into the file, and the loop ends before that lap
does. -/
theorem io_room {fs bs s : UInt64} {n k : Nat} (hb : 0 < bs.toNat) (hs : s.toNat = 16384 + bs.toNat)
    (hn : n ≤ fs.toNat / bs.toNat) (hn' : n ≤ 2 ^ 31) (h : bs.toNat ≤ fs.toNat % s.toNat) (hk : k < n) :
    (posixCursor s fs).pos k + bs.toNat ≤ fs.toNat := by
  have hs0 : 0 < s.toNat := by omega
  have hlap := lap_posixCursor s fs hs0
  by_cases hl : (posixCursor s fs).lap * s.toNat ≤ 2 ^ 64
  · exact pos_room hs0 hl h k
  have hfs := fs.toNat_lt
  have hmod := Nat.div_add_mod' fs.toNat s.toNat
  -- the position from which the second lap starts
  obtain ⟨r, hr⟩ : ∃ r, (posixCursor s fs).lap * s.toNat = 2 ^ 64 + r :=
    ⟨_, (Nat.add_sub_of_le (Nat.le_of_not_le hl)).symm⟩
  have hend : fs.toNat / s.toNat * s.toNat + s.toNat = 2 ^ 64 + r := by
    rw [← hr, hlap, Nat.add_mul, Nat.one_mul]
  have hr' : r < 16384 := by omega
  have hwrap : (posixCursor s fs).pos (posixCursor s fs).lap = r := by
    have := s.toNat_lt
    exact Cursor.pos_lap_of_overflow _ hs0 (posixCursor_fits s fs) hr (show r < fs.toNat + 1 by omega)
  have hlaps : n < 2 * (fs.toNat / s.toNat + 1) := by
    rw [hs] at hl hlap ⊢
    exact passes_lt_two_laps hb hfs (by rw [← hlap]; omega) hn hn'
  generalize fs.toNat / s.toNat = q at *
  by_cases hfirst : k ≤ q
  · have hle := Nat.mul_le_mul_right s.toNat hfirst
    rw [Cursor.pos_first_lap _ (posixCursor_fits s fs) (show k * s.toNat < fs.toNat + 1 by omega)]
    show k * s.toNat + bs.toNat ≤ fs.toNat
    omega
  · obtain ⟨j, rfl⟩ : ∃ j, k = (posixCursor s fs).lap + j := ⟨k - (posixCursor s fs).lap, by omega⟩
    have hj := Nat.mul_le_mul_right s.toNat (show j + 1 ≤ q by omega)
    rw [Nat.add_mul, Nat.one_mul] at hj
    have hadd := (posixCursor s fs).pos_add (posixCursor_fits s fs) (posixCursor s fs).lap j
      (by rw [hwrap]; show r + j * s.toNat < fs.toNat + 1; omega)
    rw [hadd, hwrap]
    show r + j * s.toNat + bs.toNat ≤ fs.toNat
    omega

/-! ## The six wrapping workers -/

inductive Wrapping where
  | tailRandwrite
  | tailSeqwrite
  | tailRandread
  | tailSeqread
  | ioSeqwrite
  | ioSeqread
  deriving Repr, DecidableEq

/-- A worker of `tail_latency`, without the path of its results and its options. -/
abbrev TailWorker := Text → TailPosix.WorkerOptions → Memory → TailPosix.Clock → TailPosix.Outcome

/-- `reqs` is what worker `f` issues in some run, of any number of passes. -/
def TailRuns (f : TailWorker) (memory : Memory) (fs bs : UInt64) (reqs : List Request) : Prop :=
  ∃ savePath o clock, o.fileSize = fs ∧ o.blockSize = bs ∧ (f savePath o memory clock).loop.issued = reqs

def Wrapping.Issues (memory : Memory) (fs bs : UInt64) (reqs : List Request) : Wrapping → Prop
  | .tailRandwrite => TailRuns TailPosix.doRandwrite memory fs bs reqs
  | .tailSeqwrite => TailRuns TailPosix.doSeqwrite memory fs bs reqs
  | .tailRandread => TailRuns TailPosix.doRandread memory fs bs reqs
  | .tailSeqread => TailRuns TailPosix.doSeqread memory fs bs reqs
  | .ioSeqwrite => ∃ fd, (IoPosix.doSeqwrite memory fd bs fs).issued = reqs
  | .ioSeqread => ∃ fd, (IoPosix.doSeqread memory fd bs fs).issued = reqs

/-- The sizes for which no request of the worker leaves the file. A random
worker needs a block of room past the last multiple of its skip, which a
sequential one never has. The `io_tester` workers may also stop before they
come to the last position. A worker that fills its buffer issues nothing if it
has none. -/
def Wrapping.Fits (memory : Memory) (fs bs : UInt64) : Wrapping → Prop
  | .tailRandwrite => posixMemalign memory bs bs = false ∨ bs ≤ fs % TailPosix.RANDOM_SKIP
  | .tailRandread => bs ≤ fs % TailPosix.RANDOM_SKIP
  | .tailSeqwrite => posixMemalign memory bs bs = false
  | .tailSeqread => False
  | .ioSeqwrite | .ioSeqread => posixMemalign memory bs bs = false ∨
    intPasses (fs / bs) ≤ (fs / IoPosix.skipOf bs).toNat ∨ bs ≤ fs % IoPosix.skipOf bs

/-- The stride of a worker as it computes it. -/
def Wrapping.stride (bs : UInt64) : Wrapping → UInt64
  | .tailRandwrite | .tailRandread => TailPosix.RANDOM_SKIP
  | .tailSeqwrite | .tailSeqread => bs
  | .ioSeqwrite | .ioSeqread => IoPosix.skipOf bs

section
variable {memory : Memory} {fs bs : UInt64} {reqs : List Request}

theorem TailRuns.passes {f : TailWorker} {op : IoOp} {skip : UInt64} {tag : Text}
    (hf : ∀ p o m c, o.blockSize = bs → f p o m c = TailPosix.worker op skip tag p o m c)
    (h : TailRuns f memory fs bs reqs) :
    ∃ op fd n, reqs = IoPosix.passes op fd bs (TailPosix.advance skip fs) n 0 := by
  obtain ⟨p, o, clock, hfs, hbs, rfl⟩ := h
  obtain ⟨n, hn⟩ := worker_issued op skip o tag p memory clock
  rw [hfs, hbs] at hn
  exact ⟨op, o.fd, n, by rw [hf p o memory clock hbs, hn]⟩

theorem doSeqwrite_eq (savePath : Text) (o : TailPosix.WorkerOptions) (memory : Memory) (clock : TailPosix.Clock)
    (h : o.blockSize = bs) : TailPosix.doSeqwrite savePath o memory clock =
      TailPosix.worker .pwrite bs ['_', 's', 'w', '_'] savePath o memory clock := by
  rw [TailPosix.doSeqwrite, h]

theorem doSeqread_eq (savePath : Text) (o : TailPosix.WorkerOptions) (memory : Memory) (clock : TailPosix.Clock)
    (h : o.blockSize = bs) : TailPosix.doSeqread savePath o memory clock =
      TailPosix.worker .pread bs ['_', 's', 'r', '_'] savePath o memory clock := by
  rw [TailPosix.doSeqread, h]

/-- With a buffer, the requests of a worker of `io_tester`; without one, none. -/
theorem counted_issued (hb : bs ≠ 0) (op : IoOp) (fd : Int) (total : UInt64) (move : UInt64 → UInt64) :
    (IoPosix.counted memory op fd bs total move).issued =
      if posixMemalign memory bs bs then IoPosix.passes op fd bs move (intPasses (total / bs)) 0 else [] := by
  unfold IoPosix.counted
  rw [if_neg hb]
  split <;> rfl

theorem counted_passes (op : IoOp) (fd : Int) (skip : UInt64) :
    ∃ n, (IoPosix.counted memory op fd bs fs (IoPosix.wrapAt skip fs)).issued =
      IoPosix.passes op fd bs (TailPosix.advance skip fs) n 0 := by
  by_cases hb : bs = 0
  · exact ⟨0, by simp [IoPosix.counted, hb, IoPosix.passes]⟩
  · rw [counted_issued hb]
    split
    · exact ⟨_, rfl⟩
    · exact ⟨0, rfl⟩

theorem Wrapping.Issues.passes {w : Wrapping} (h : w.Issues memory fs bs reqs) :
    ∃ op fd n, reqs = IoPosix.passes op fd bs (TailPosix.advance (w.stride bs) fs) n 0 := by
  cases w with
  | tailRandwrite => exact TailRuns.passes (fun _ _ _ _ _ => rfl) h
  | tailSeqwrite => exact TailRuns.passes doSeqwrite_eq h
  | tailRandread => exact TailRuns.passes (fun _ _ _ _ _ => rfl) h
  | tailSeqread => exact TailRuns.passes doSeqread_eq h
  | ioSeqwrite =>
    obtain ⟨fd, rfl⟩ := h
    exact ⟨.pwrite, fd, counted_passes .pwrite fd _⟩
  | ioSeqread =>
    obtain ⟨fd, rfl⟩ := h
    exact ⟨.pread, fd, counted_passes .pread fd _⟩

end

section
variable {memory : Memory} {fs bs : UInt64}

section
variable {f : TailWorker} {op : IoOp} {skip : UInt64} {tag : Text}
  (hf : ∀ p o m c, o.blockSize = bs → f p o m c = TailPosix.worker op skip tag p o m c)
include hf

theorem tailRuns_inFile_iff (hcrash : ∀ o : TailPosix.WorkerOptions, o.blockSize = bs →
    TailPosix.crashes op o memory = false) :
    (∀ reqs, TailRuns f memory fs bs reqs → ∀ r ∈ reqs, r.InFile fs) ↔
      ∀ k, (posixCursor skip fs).pos k + bs.toNat ≤ fs.toNat := by
  constructor
  · intro h k
    let o : TailPosix.WorkerOptions := ⟨0, 0, fs, bs, 0⟩
    have hrun : TailRuns f memory fs bs (f [] o memory (stillClock (k + 1))).loop.issued := ⟨[], o, _, rfl, rfl, rfl⟩
    have hall := h _ hrun
    rw [hf [] o memory _ rfl, worker_still op skip o tag [] memory (hcrash o rfl)] at hall
    exact (passes_inFile_iff op o.fd bs skip fs (k + 1)).mp hall k (Nat.lt_succ_self k)
  · intro h reqs hrun
    obtain ⟨op, fd, n, rfl⟩ := hrun.passes hf
    exact (passes_inFile_iff op fd bs skip fs n).mpr fun k _ => h k

theorem tailRuns_nil (hcrash : ∀ o : TailPosix.WorkerOptions, o.blockSize = bs →
    TailPosix.crashes op o memory = true) {reqs : List Request} (h : TailRuns f memory fs bs reqs) : reqs = [] := by
  obtain ⟨p, o, clock, -, hbs, rfl⟩ := h
  rw [hf p o memory clock hbs, worker_crashes op skip o tag p memory (hcrash o hbs)]

end

theorem pread_inFile_iff {f : TailWorker} {skip : UInt64} {tag : Text}
    (hf : ∀ p o m c, o.blockSize = bs → f p o m c = TailPosix.worker .pread skip tag p o m c) :
    (∀ reqs, TailRuns f memory fs bs reqs → ∀ r ∈ reqs, r.InFile fs) ↔
      ∀ k, (posixCursor skip fs).pos k + bs.toNat ≤ fs.toNat :=
  tailRuns_inFile_iff hf fun _ _ => rfl

theorem pwrite_inFile_iff {f : TailWorker} {skip : UInt64} {tag : Text}
    (hf : ∀ p o m c, o.blockSize = bs → f p o m c = TailPosix.worker .pwrite skip tag p o m c) :
    (∀ reqs, TailRuns f memory fs bs reqs → ∀ r ∈ reqs, r.InFile fs) ↔
      posixMemalign memory bs bs = false ∨ ∀ k, (posixCursor skip fs).pos k + bs.toNat ≤ fs.toNat := by
  cases hm : posixMemalign memory bs bs with
  | true =>
    refine (tailRuns_inFile_iff hf fun o ho => ?_).trans (by simp)
    simp [TailPosix.crashes, TailPosix.fills, ho, hm]
  | false =>
    refine iff_of_true (fun reqs hrun r hr => ?_) (.inl rfl)
    rw [tailRuns_nil hf (fun o ho => by simp [TailPosix.crashes, TailPosix.fills, ho, hm]) hrun] at hr
    cases hr

theorem random_room_iff :
    (∀ k, (posixCursor TailPosix.RANDOM_SKIP fs).pos k + bs.toNat ≤ fs.toNat) ↔
      bs ≤ fs % TailPosix.RANDOM_SKIP := by
  rw [UInt64.le_iff_toNat_le, UInt64.toNat_mod]
  have hs : 0 < TailPosix.RANDOM_SKIP.toNat := by decide
  constructor
  · intro h
    exact Nat.le_of_not_lt fun hlt => last_overruns hlt (h _)
  · intro h k
    refine pos_room hs ?_ h k
    exact Cursor.lap_fits_of_dvd _ hs (show 16384 ∣ 2 ^ 64 by decide) (posixCursor_fits _ fs)

theorem sequential_no_room (hb : 0 < bs) :
    ¬ ∀ k, (posixCursor bs fs).pos k + bs.toNat ≤ fs.toNat := fun h =>
  last_overruns (Nat.mod_lt _ (UInt64.lt_iff_toNat_lt.mp hb)) (h _)

theorem counted_inFile_iff (op : IoOp) (hb : 0 < bs) (hle : bs ≤ fs) :
    (∀ reqs, (∃ fd, (IoPosix.counted memory op fd bs fs (IoPosix.wrapAt (IoPosix.skipOf bs) fs)).issued = reqs) →
      ∀ r ∈ reqs, r.InFile fs) ↔
      posixMemalign memory bs bs = false ∨
        intPasses (fs / bs) ≤ (fs / IoPosix.skipOf bs).toNat ∨ bs ≤ fs % IoPosix.skipOf bs := by
  have hb' := UInt64.lt_iff_toNat_lt.mp hb
  have hle' := UInt64.le_iff_toNat_le.mp hle
  have hb0 : bs ≠ 0 := (UInt64.ne_of_lt hb).symm
  have hn : intPasses (fs / bs) ≤ fs.toNat / bs.toNat := by
    unfold intPasses; rw [UInt64.toNat_div]; exact Nat.min_le_left _ _
  simp only [counted_issued hb0, wrapAt_eq_advance, UInt64.le_iff_toNat_le, UInt64.toNat_mod, UInt64.toNat_div]
  cases hm : posixMemalign memory bs bs with
  | false => simp
  | true =>
    simp only [ite_true, Bool.true_eq_false, false_or]
    have hiff := fun fd => passes_inFile_iff op fd bs (IoPosix.skipOf bs) fs (intPasses (fs / bs))
    constructor
    · intro h
      refine Decidable.byContradiction fun hnot => ?_
      simp only [not_or, Nat.not_le] at hnot
      exact last_overruns hnot.2 ((hiff 0).mp (h _ ⟨0, rfl⟩) _ hnot.1)
    · rintro h _ ⟨fd, rfl⟩
      refine (hiff fd).mpr fun k hk => ?_
      rcases skipOf_cases hle with h1 | hs
      · have : k = 0 := by omega
        subst this; simpa using hle'
      · rcases h with h | h
        · exact pos_first_room (by omega) hk h
        · exact io_room hb' hs hn (Nat.min_le_right _ _) h hk

/-- **Requests inside the file.** For a block no larger than the file, and
whatever the allocator finds, every request of every run of a wrapping worker
lies inside the file exactly when the worker has no buffer to write from or the
sizes leave the room that `Fits` describes. -/
theorem requests_inFile_iff (w : Wrapping) (memory : Memory) (fs bs : UInt64) (hb : 0 < bs) (hle : bs ≤ fs) :
    (∀ reqs, w.Issues memory fs bs reqs → ∀ r ∈ reqs, r.InFile fs) ↔ w.Fits memory fs bs := by
  cases w with
  | tailRandwrite => exact (pwrite_inFile_iff fun _ _ _ _ _ => rfl).trans (or_congr_right random_room_iff)
  | tailRandread => exact (pread_inFile_iff fun _ _ _ _ _ => rfl).trans random_room_iff
  | tailSeqwrite =>
    exact (pwrite_inFile_iff doSeqwrite_eq).trans (or_iff_left (sequential_no_room hb))
  | tailSeqread => exact (pread_inFile_iff doSeqread_eq).trans (iff_false_intro (sequential_no_room hb))
  | ioSeqwrite => exact counted_inFile_iff .pwrite hb hle
  | ioSeqread => exact counted_inFile_iff .pread hb hle

/-- Random writes of `4 KiB` to a file with a block of room after the last position. -/
theorem requests_inFile_iff_one_block :
    posixMemalign (some 8192) 4096 4096 = true ∧
      ((∀ reqs, Wrapping.tailRandwrite.Issues (some 8192) 20480 4096 reqs → ∀ r ∈ reqs, r.InFile 20480) ↔
        Wrapping.tailRandwrite.Fits (some 8192) 20480 4096) ∧ Wrapping.tailRandwrite.Fits (some 8192) 20480 4096 :=
  ⟨by decide, requests_inFile_iff .tailRandwrite (some 8192) 20480 4096 (by decide) (by decide),
    .inr (show (4096 : UInt64) ≤ 20480 % 16384 by decide)⟩

/-- Sequential writes of `4 KiB` blocks to a file of `1 GiB`: the request after
`2 ^ 18` others is issued at the end of the file. -/
theorem seqwrite_extends_file :
    ∃ reqs, Wrapping.tailSeqwrite.Issues (some 8192) 1073741824 4096 reqs ∧
      (⟨.pwrite, 0, 4096, 1073741824⟩ : Request) ∈ reqs ∧
      ¬ (⟨.pwrite, 0, 4096, 1073741824⟩ : Request).InFile 1073741824 := by
  let o : TailPosix.WorkerOptions := ⟨0, 0, 1073741824, 4096, 0⟩
  refine ⟨_, ⟨[], o, stillClock (2 ^ 18 + 1), rfl, rfl, rfl⟩, ?_, by decide⟩
  have hpos : (TailPosix.advance 4096 1073741824)^[2 ^ 18] 0 = 1073741824 :=
    UInt64.toNat_inj.mp ((toNat_iterate_advance 4096 1073741824 (2 ^ 18)).trans (@pos_last 4096 1073741824))
  rw [TailPosix.doSeqwrite, worker_still _ _ _ _ _ _ (by decide)]
  refine List.mem_of_getElem? (i := 2 ^ 18) ?_
  rw [IoPosix.passes_getElem? _ _ _ _ _ _ _ (Nat.lt_succ_self _)]
  exact congrArg (fun p => some (⟨.pwrite, 0, 4096, p⟩ : Request)) hpos

end

/-! ## The closed form -/

section
variable {skip fs : UInt64} (hfit : fs.toNat + skip.toNat < 2 ^ 64)
include hfit

theorem posixCursor_lap_fits : (posixCursor skip fs).lap * skip.toNat ≤ 2 ^ 64 := by
  refine (posixCursor skip fs).lap_fits_of_add_le ?_
  show fs.toNat + 1 + skip.toNat ≤ 2 ^ 64
  omega

theorem offset_no_overflow (k : Nat) : ((TailPosix.advance skip fs)^[k] 0).toNat + skip.toNat < 2 ^ 64 := by
  have hlt : (posixCursor skip fs).pos k < fs.toNat + 1 := Cursor.pos_lt _ (posixCursor_bound_pos skip fs) k
  rw [toNat_iterate_advance]
  omega

variable (hs : 0 < skip.toNat)
include hs

theorem offset_eq (k : Nat) :
    ((TailPosix.advance skip fs)^[k] 0).toNat = k % (fs.toNat / skip.toNat + 1) * skip.toNat := by
  rw [toNat_iterate_advance, ← lap_posixCursor skip fs hs]
  exact Cursor.pos_eq _ hs (posixCursor_bound_pos skip fs) (posixCursor_lap_fits hfit) k

theorem offset_add_period (k : Nat) :
    (TailPosix.advance skip fs)^[k + (fs.toNat / skip.toNat + 1)] 0 = (TailPosix.advance skip fs)^[k] 0 := by
  refine UInt64.toNat_inj.mp ?_
  rw [toNat_iterate_advance, toNat_iterate_advance, ← lap_posixCursor skip fs hs]
  exact Cursor.pos_add_lap _ hs (posixCursor_bound_pos skip fs) (posixCursor_lap_fits hfit) k

theorem offset_ne {i j : Nat} (hij : i < j) (hj : j < i + (fs.toNat / skip.toNat + 1)) :
    (TailPosix.advance skip fs)^[i] 0 ≠ (TailPosix.advance skip fs)^[j] 0 := by
  intro h
  have hpos := congrArg UInt64.toNat h
  rw [toNat_iterate_advance, toNat_iterate_advance] at hpos
  rw [← lap_posixCursor skip fs hs] at hj
  exact Cursor.pos_ne _ hs (posixCursor_bound_pos skip fs) (posixCursor_lap_fits hfit) hij hj hpos

end

/-- **Closed form.** While file size and stride fit a word together, the
requests of a wrapping worker go through the multiples of the stride up to the
file size, over and over. No move overflows, the requests repeat after one
lap, and no two of them less than a lap apart have the same offset. -/
theorem issues_closed_form (w : Wrapping) (memory : Memory) (fs bs : UInt64) (hs : 0 < (w.stride bs).toNat)
    (hfit : fs.toNat + (w.stride bs).toNat < 2 ^ 64) {reqs : List Request} (h : w.Issues memory fs bs reqs) :
    let s := (w.stride bs).toNat
    let period := fs.toNat / s + 1
    (∀ k r, reqs[k]? = some r → r.pos.toNat = k % period * s ∧ r.pos.toNat + s < 2 ^ 64) ∧
      (∀ k r r', reqs[k]? = some r → reqs[k + period]? = some r' → r' = r) ∧
      (∀ i j r r', i < j → j < i + period → reqs[i]? = some r → reqs[j]? = some r' → r.pos ≠ r'.pos) := by
  obtain ⟨op, fd, n, rfl⟩ := h.passes
  intro s period
  refine ⟨fun k r hr => ?_, fun k r r' hr hr' => ?_, fun i j r r' hij hj hr hr' => ?_⟩
  · obtain ⟨_, rfl⟩ := IoPosix.eq_of_passes_getElem? hr
    exact ⟨offset_eq hfit hs k, offset_no_overflow hfit k⟩
  · obtain ⟨_, rfl⟩ := IoPosix.eq_of_passes_getElem? hr
    obtain ⟨_, rfl⟩ := IoPosix.eq_of_passes_getElem? hr'
    rw [offset_add_period hfit hs k]
  · obtain ⟨_, rfl⟩ := IoPosix.eq_of_passes_getElem? hr
    obtain ⟨_, rfl⟩ := IoPosix.eq_of_passes_getElem? hr'
    exact offset_ne hfit hs hij hj

/-- Sequential writes of `4 KiB` to a file of `8 KiB`: the sixth ends the second
lap, at the end of the file. -/
theorem issues_closed_form_two_laps :
    ∃ reqs r, Wrapping.tailSeqwrite.Issues (some 8192) 8192 4096 reqs ∧ reqs[5]? = some r ∧
      r.pos.toNat = 5 % 3 * 4096 ∧ r.pos.toNat + 4096 < 2 ^ 64 := by
  let o : TailPosix.WorkerOptions := ⟨0, 0, 8192, 4096, 0⟩
  have hrun : Wrapping.tailSeqwrite.Issues (some 8192) 8192 4096
      (TailPosix.doSeqwrite [] o (some 8192) (stillClock 6)).loop.issued := ⟨[], o, stillClock 6, rfl, rfl, rfl⟩
  have hr : (TailPosix.doSeqwrite [] o (some 8192) (stillClock 6)).loop.issued[5]? =
      some ⟨.pwrite, 0, 4096, 8192⟩ := by
    decide +kernel
  exact ⟨_, _, hrun, hr, (issues_closed_form .tailSeqwrite (some 8192) 8192 4096 (by decide) (by decide) hrun).1 5 _ hr⟩

end IoTester

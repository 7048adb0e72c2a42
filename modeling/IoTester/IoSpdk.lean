import IoTester.Basic
import IoTester.Lib.Spans

/-!
# `io_tester/spdk.cc`: batched writes to a device

The one worker that does anything submits `io_depth` writes, polls until as
many completions are counted, and repeats this `(total_size / block_size) /
io_depth` times. The device is given by what the calls for each batch return.
The number of sectors of a command is narrowed to the 32 bits of the
`lba_count` parameter of `spdk_nvme_ns_cmd_write`.
-/

namespace IoTester.IoSpdk

open Lib

structure Cmd where
  lba : UInt64
  lbaCount : UInt32
  deriving Repr, DecidableEq

/-- How a worker ends: normally, by a failed `assert`, by a `memset` without a
buffer, by a division by zero, or still polling when the device returns nothing
more. -/
inductive Exit where
  | returned
  | aborted
  | crashed
  | fault
  | polling
  deriving Repr, DecidableEq

/-- What the calls of batch `i` return: for its command `j` no buffer or the result
of the submission, and then the values of
`spdk_nvme_qpair_process_completions`. -/
structure Device where
  sends : Nat → Nat → Option Int
  polls : Nat → List Int

structure Run where
  batches : List (List Cmd)
  exit : Exit
  deriving Repr, DecidableEq

/-- The commands of a batch from the `j`-th on, and the sector after the last one
unless a call fails. -/
def sendBatch (nLba : UInt64) (sends : Nat → Option Int) : Nat → Nat → UInt64 → List Cmd × Except Exit UInt64
  | 0, _, k => ([], .ok k)
  | n + 1, j, k =>
    match sends j with
    | none => ([], .error .crashed)
    | some rc =>
      if rc = 0 then
        let rest := sendBatch nLba sends n (j + 1) (k + nLba)
        (⟨k, nLba.toUInt32⟩ :: rest.1, rest.2)
      else ([], .error .aborted)

/-- The polling loop on the values that it gets: does it come to
`c == io_depth`? -/
def waits (ioDepth : Int) : List Int → Int → Bool
  | [], _ => false
  | num :: rets, c => if c + num = ioDepth then true else waits ioDepth rets (c + num)

def submitLoop (ioDepth : Int) (nLba : UInt64) (dev : Device) : Nat → Nat → UInt64 → Run
  | 0, _, _ => ⟨[], .returned⟩
  | n + 1, i, k =>
    let batch := sendBatch nLba (dev.sends i) ioDepth.toNat 0 k
    match batch.2 with
    | .error e => ⟨[batch.1], e⟩
    | .ok k =>
      if waits ioDepth (dev.polls i) 0 then
        let rest := submitLoop ioDepth nLba dev n (i + 1) k
        ⟨batch.1 :: rest.batches, rest.exit⟩
      else ⟨[batch.1], .polling⟩

def doSeqwrite (ioDepth : Int) (blockSize totalSize : UInt64) (dev : Device) : Run :=
  if blockSize % 512 ≠ 0 then ⟨[], .aborted⟩
  else if blockSize = 0 ∨ UInt64.ofInt ioDepth = 0 then ⟨[], .fault⟩
  else
    submitLoop ioDepth (blockSize / 512) dev (totalSize / blockSize / UInt64.ofInt ioDepth).toNat 0 0

def doRandwrite (_blockSize _totalSize : UInt64) : Run := ⟨[], .returned⟩

def doSeqread (_blockSize _totalSize : UInt64) : Run := ⟨[], .returned⟩

def doRandread (_blockSize _totalSize : UInt64) : Run := ⟨[], .returned⟩

def select (w : Workload) (ioDepth : Int) (blockSize totalSize : UInt64) (dev : Device) : Run :=
  match w with
  | .DO_RW => doRandwrite blockSize totalSize
  | .DO_SW => doSeqwrite ioDepth blockSize totalSize dev
  | .DO_RR => doRandread blockSize totalSize
  | .DO_SR => doSeqread blockSize totalSize

def runBenchmark (type ioDepth : Int) (blockSize totalSize : UInt64) (dev : Device) :
    Option (Measured (List (List Cmd))) :=
  let run := match Workload.ofType type with
    | some w => select w ioDepth blockSize totalSize dev
    | none => ⟨[], .returned⟩
  if run.exit = .returned ∧ blockSize ≠ 0 then some ⟨run.batches, totalSize / blockSize⟩ else none

def Cmd.span (c : Cmd) : Span := ⟨c.lba.toNat * 512, c.lbaCount.toNat * 512⟩

def Run.requests (r : Run) : List (List Span) := r.batches.map (·.map Cmd.span)

/-- A device that takes every command and whose polls report each of them once:
there is a buffer for every command, no submission is refused, and the counts of
a batch are not negative and add up to the depth. -/
structure Device.Drains (dev : Device) (ioDepth : Int) : Prop where
  sends : ∀ i j, dev.sends i j = some 0
  polls : ∀ i, (∀ r ∈ dev.polls i, 0 ≤ r) ∧ (dev.polls i).sum = ioDepth

/-! ## The polling loop -/

theorem waits_of_sum {ioDepth : Int} : ∀ {rets : List Int} {c : Int},
    rets ≠ [] → c + rets.sum = ioDepth → waits ioDepth rets c = true
  | [], _, h, _ => absurd rfl h
  | num :: rets, c, _, h => by
    unfold waits
    split
    · rfl
    · rename_i hne
      rw [List.sum_cons, ← Int.add_assoc] at h
      refine waits_of_sum (fun e => ?_) h
      rw [e, List.sum_nil, Int.add_zero] at h
      exact hne h

theorem Device.Drains.waits {ioDepth : Int} {dev : Device} (h : dev.Drains ioDepth) (h0 : 1 ≤ ioDepth) (i : Nat) :
    IoSpdk.waits ioDepth (dev.polls i) 0 = true := by
  have hsum := (h.polls i).2
  refine waits_of_sum (fun e => ?_) (by rw [hsum, Int.zero_add])
  rw [e, List.sum_nil] at hsum
  omega

/-! ## The batches -/

section
variable {ioDepth : Int} {n : UInt64} {dev : Device}

def sectors (n : UInt64) (depth first : Nat) : List Cmd :=
  (List.range depth).map fun t => ⟨UInt64.ofNat ((first + t) * n.toNat), n.toUInt32⟩

theorem sectors_succ (n : UInt64) (depth first : Nat) : sectors n (depth + 1) first =
    ⟨UInt64.ofNat (first * n.toNat), n.toUInt32⟩ :: sectors n depth (first + 1) := by
  simp only [sectors, List.range_succ_eq_map, List.map_cons, List.map_map, Nat.add_zero]
  refine congrArg (_ :: ·) (List.map_congr_left fun t _ => ?_)
  simp only [Function.comp]
  rw [show first + 1 + t = first + t.succ by omega]

theorem ofNat_next (first : Nat) :
    UInt64.ofNat (first * n.toNat) + n = UInt64.ofNat ((first + 1) * n.toNat) := by
  rw [Nat.add_mul, Nat.one_mul, UInt64.ofNat_add, UInt64.ofNat_toNat]

/-- A batch of which every command is taken. -/
theorem sendBatch_eq {sends : Nat → Option Int} (h : ∀ j, sends j = some 0) : ∀ (depth j first : Nat),
    sendBatch n sends depth j (UInt64.ofNat (first * n.toNat)) =
      (sectors n depth first, .ok (UInt64.ofNat ((first + depth) * n.toNat)))
  | 0, _, first => by simp [sendBatch, sectors]
  | depth + 1, j, first => by
    unfold sendBatch
    simp only [h j, ite_true, ofNat_next]
    rw [sendBatch_eq h depth (j + 1) (first + 1), sectors_succ, show first + (depth + 1) = first + 1 + depth by omega]

theorem submitLoop_batches (hd : dev.Drains ioDepth) (h0 : 1 ≤ ioDepth) : ∀ (m i first : Nat),
    submitLoop ioDepth n dev m i (UInt64.ofNat (first * n.toNat)) =
      ⟨(List.range m).map fun t => sectors n ioDepth.toNat (first + t * ioDepth.toNat), .returned⟩
  | 0, _, _ => rfl
  | m + 1, i, first => by
    unfold submitLoop
    simp only [sendBatch_eq (hd.sends i), hd.waits h0 i, ite_true, submitLoop_batches hd h0 m (i + 1),
      List.range_succ_eq_map, List.map_cons, List.map_map, Nat.zero_mul, Nat.add_zero]
    refine congrArg (fun l => Run.mk (_ :: l) _) (List.map_congr_left fun t _ => ?_)
    simp only [Function.comp, Nat.succ_eq_add_one, Nat.add_mul, Nat.one_mul]
    congr 1; omega

theorem doSeqwrite_batches {bs total : UInt64} (hd : dev.Drains ioDepth) (h0 : 1 ≤ ioDepth) (h1 : ioDepth < 2 ^ 31)
    (hb : 0 < bs) (h512 : 512 ∣ bs.toNat) :
    doSeqwrite ioDepth bs total dev =
      ⟨(List.range (total.toNat / bs.toNat / ioDepth.toNat)).map fun t =>
        sectors (bs / 512) ioDepth.toNat (t * ioDepth.toNat), .returned⟩ := by
  have hdep : (UInt64.ofInt ioDepth).toNat = ioDepth.toNat := by
    rw [UInt64.ofInt, Int.emod_eq_of_lt (by omega) (by omega),
      UInt64.toNat_ofNat_of_lt' (show ioDepth.toNat < 2 ^ 64 by omega)]
  have hb' := UInt64.lt_iff_toNat_lt.mp hb
  have e1 : ¬ bs % 512 ≠ 0 := by
    rw [Ne, Decidable.not_not, ← UInt64.toNat_inj, UInt64.toNat_mod]
    exact Nat.mod_eq_zero_of_dvd h512
  have e2 : ¬ (bs = 0 ∨ UInt64.ofInt ioDepth = 0) := by
    rw [← UInt64.toNat_inj, ← UInt64.toNat_inj, hdep, show (0 : UInt64).toNat = 0 from rfl]
    rw [show (0 : UInt64).toNat = 0 from rfl] at hb'
    omega
  have := submitLoop_batches (n := bs / 512) hd h0 (total / bs / UInt64.ofInt ioDepth).toNat 0 0
  simp only [Nat.zero_mul, Nat.zero_add, show UInt64.ofNat 0 = 0 from rfl] at this
  simp only [doSeqwrite, e1, e2, ite_false]
  rw [this, UInt64.toNat_div, UInt64.toNat_div, hdep]

end

end IoTester.IoSpdk

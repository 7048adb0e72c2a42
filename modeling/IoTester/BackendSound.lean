import IoTester.IoPosix
import IoTester.IoSpdk
import IoTester.LibaioSound

/-!
# The three `io_tester` programs against one another

How many requests a worker issues and how many its report counts; the batches
of the two asynchronous writers; and the sequential pattern of the synchronous
program against that of the asynchronous one.
-/

namespace IoTester

open Lib

/-! ## Issued and counted operations -/

inductive Backend where
  | posix
  | libaio
  | spdk
  deriving Repr, DecidableEq

/-- What the allocator, the kernel and the device answer to a worker. -/
structure Answers where
  memory : Memory
  kernel : IoLibaio.Kernel
  device : IoSpdk.Device

/-- The program comes to its report, and the worker has issued as many requests
as the report divides the elapsed time by. -/
def Backend.CountsIssued (w : Workload) (depth fd : Int) (bs total : UInt64) (ans : Answers) : Backend → Prop
  | .posix => ∃ m, IoPosix.runBenchmark ans.memory w.type fd bs total = some m ∧ m.issued.length = m.ops.toNat
  | .libaio => ∃ m, IoLibaio.runBenchmark ans.memory ans.kernel w.type depth fd bs total = some m ∧
      m.issued.flatten.length = m.ops.toNat
  | .spdk => ∃ m, IoSpdk.runBenchmark w.type depth bs total ans.device = some m ∧
      m.issued.flatten.length = m.ops.toNat

/-- The device and the kernel do what they are asked for. -/
def Backend.Obeyed (depth : Int) (ans : Answers) : Backend → Prop
  | .posix => True
  | .libaio => ans.kernel.Willing depth.toNat
  | .spdk => ans.device.Drains depth

/-- Where the two numbers agree: the worker has a buffer and the operations make
whole batches, or the worker is an empty one and there is no operation to
count. -/
def Backend.Whole (w : Workload) (depth : Int) (bs total : UInt64) (memory : Memory) : Backend → Prop
  | .posix => posixMemalign memory bs bs = true
  | .libaio =>
    match w with
    | .DO_SW | .DO_SR =>
      posixMemalign memory bs (bs * UInt64.ofInt depth) = true ∧ depth.toNat ∣ total.toNat / bs.toNat
    | _ => total < bs
  | .spdk =>
    match w with
    | .DO_SW => depth.toNat ∣ total.toNat / bs.toNat
    | _ => total < bs

section
variable {depth : Int} {bs total : UInt64}

theorem div_eq_zero_iff_lt (hb : 0 < bs) : 0 = (total / bs).toNat ↔ total < bs := by
  have := UInt64.lt_iff_toNat_lt.mp hb
  rw [eq_comm, UInt64.toNat_div, Nat.div_eq_zero_iff, UInt64.lt_iff_toNat_lt]
  rw [show (0 : UInt64).toNat = 0 from rfl] at this
  omega

theorem mul_div_eq_iff_dvd {a d : Nat} : d * (a / d) = a ↔ d ∣ a :=
  ⟨fun h => ⟨_, h.symm⟩, Nat.mul_div_cancel'⟩

theorem posix_counts_iff (w : Workload) (fd : Int) (ans : Answers) (hb : 0 < bs)
    (hcount : total.toNat / bs.toNat < 2 ^ 31) :
    Backend.posix.CountsIssued w depth fd bs total ans ↔ Backend.posix.Whole w depth bs total ans.memory := by
  have hb0 : bs ≠ 0 := (UInt64.ne_of_lt hb).symm
  have hcount : (total / bs).toNat < 2 ^ 31 := by
    rw [UInt64.toNat_div]
    exact hcount
  have hone : ∀ (op : IoOp) (move : UInt64 → UInt64),
      (∃ m : Measured (List Request), (if (IoPosix.counted ans.memory op fd bs total move).exit = .returned ∧ bs ≠ 0
        then some ⟨(IoPosix.counted ans.memory op fd bs total move).issued, total / bs⟩ else none) = some m ∧
        m.issued.length = m.ops.toNat) ↔ posixMemalign ans.memory bs bs = true := by
    intro op move
    cases hm : posixMemalign ans.memory bs bs with
    | true => simp [IoPosix.counted, hb0, hm, intExit_of_lt hcount, IoPosix.length_passes, intPasses_of_lt hcount]
    | false => simp [IoPosix.counted, hb0, hm]
  simp only [Backend.CountsIssued, IoPosix.runBenchmark, IoPosix.dispatch, Workload.ofType_type]
  cases w with
  | DO_RW => exact hone .pwrite _
  | DO_SW => exact hone .pwrite _
  | DO_RR => exact hone .pread _
  | DO_SR => exact hone .pread _

theorem sequential_counts_iff {memory : Memory} {kernel : IoLibaio.Kernel} (op : IoLibaio.Opcode) (fd : Int)
    (h0 : 1 ≤ depth) (h1 : depth ≤ 128) (hcount : total.toNat / bs.toNat < 2 ^ 31)
    (hw : kernel.Willing depth.toNat) :
    ((IoLibaio.sequential memory kernel op depth fd bs total).exit = .returned ∧
      (IoLibaio.sequential memory kernel op depth fd bs total).batches.flatten.length = (total / bs).toNat) ↔
      posixMemalign memory bs (bs * UInt64.ofInt depth) = true ∧ depth.toNat ∣ total.toNat / bs.toNat := by
  cases hm : posixMemalign memory bs (bs * UInt64.ofInt depth) with
  | false => simp [(IoLibaio.sequential_unset kernel op fd total hm).2]
  | true =>
    have hlen : (IoLibaio.sequential memory kernel op depth fd bs total).taken = _ :=
      IoLibaio.taken_eq op fd total h0 h1 hw
    rw [if_pos hm] at hlen
    have hpass : (total / (bs * UInt64.ofInt depth)).toNat = total.toNat / bs.toNat / depth.toNat := by
      rw [UInt64.toNat_div, IoLibaio.toNat_bytes h0 h1 (IoLibaio.fits_of_buffer h0 h1 hm), Nat.div_div_eq_div_mul]
    have hlt : (total / (bs * UInt64.ofInt depth)).toNat < 2 ^ 31 := by
      rw [hpass]
      exact Nat.lt_of_le_of_lt (Nat.div_le_self _ _) hcount
    rw [(IoLibaio.sequential_requests op fd total h0 h1 hw hm).1, intExit_of_lt hlt, ← IoLibaio.Run.taken, hlen,
      IoLibaio.blocksTaken, intPasses_of_lt hlt, hpass, UInt64.toNat_div, mul_div_eq_iff_dvd]
    simp

theorem length_sectors (n : UInt64) (d first : Nat) : (IoSpdk.sectors n d first).length = d := by
  simp [IoSpdk.sectors]

theorem length_flatten_sectors (n : UInt64) (d m : Nat) :
    ((List.range m).map fun t => IoSpdk.sectors n d (t * d)).flatten.length = d * m := by
  induction m with
  | zero => rfl
  | succ m ih => simp [List.range_succ, ih, length_sectors, Nat.mul_add]

theorem measured_iff {α : Type} (hb : 0 < bs) (returned : Prop) [Decidable returned] (batches : List (List α)) :
    (∃ m : Measured (List (List α)), (if returned ∧ bs ≠ 0 then some ⟨batches, total / bs⟩ else none) = some m ∧
      m.issued.flatten.length = m.ops.toNat) ↔ returned ∧ batches.flatten.length = (total / bs).toNat := by
  have hb0 : bs ≠ 0 := (UInt64.ne_of_lt hb).symm
  by_cases h : returned <;> simp [h, hb0]

theorem libaio_counts_iff (w : Workload) (fd : Int) {ans : Answers} (h0 : 1 ≤ depth) (h1 : depth ≤ 128)
    (hb : 0 < bs) (hcount : total.toNat / bs.toNat < 2 ^ 31) (hw : ans.kernel.Willing depth.toNat) :
    Backend.libaio.CountsIssued w depth fd bs total ans ↔ Backend.libaio.Whole w depth bs total ans.memory := by
  simp only [Backend.CountsIssued, IoLibaio.runBenchmark, IoLibaio.dispatch, Workload.ofType_type]
  refine (measured_iff hb _ _).trans ?_
  cases w with
  | DO_SW => exact sequential_counts_iff .IOCB_CMD_PWRITE fd h0 h1 hcount hw
  | DO_SR => exact sequential_counts_iff .IOCB_CMD_PWRITE fd h0 h1 hcount hw
  | DO_RW => exact (and_iff_right rfl).trans (div_eq_zero_iff_lt hb)
  | DO_RR => exact (and_iff_right rfl).trans (div_eq_zero_iff_lt hb)

theorem spdk_counts_iff (w : Workload) (fd : Int) {ans : Answers} (h0 : 1 ≤ depth) (h1 : depth < 2 ^ 31)
    (hb : 0 < bs) (h512 : 512 ∣ bs.toNat) (hd : ans.device.Drains depth) :
    Backend.spdk.CountsIssued w depth fd bs total ans ↔ Backend.spdk.Whole w depth bs total ans.memory := by
  simp only [Backend.CountsIssued, IoSpdk.runBenchmark, Workload.ofType_type]
  refine (measured_iff hb _ _).trans ?_
  cases w with
  | DO_SW =>
    simp only [IoSpdk.select, IoSpdk.doSeqwrite_batches hd h0 h1 hb h512, length_flatten_sectors, UInt64.toNat_div,
      true_and]
    exact mul_div_eq_iff_dvd
  | DO_RW => exact (and_iff_right rfl).trans (div_eq_zero_iff_lt hb)
  | DO_RR => exact (and_iff_right rfl).trans (div_eq_zero_iff_lt hb)
  | DO_SR => exact (and_iff_right rfl).trans (div_eq_zero_iff_lt hb)

end

/-- **Counted operations.** In each program and for each workload type, the
worker issues as many requests as the report counts exactly when it has a buffer
and the operations make whole batches. -/
theorem backend_counts_iff (b : Backend) (w : Workload) (depth fd : Int) (bs total : UInt64) (ans : Answers)
    (h0 : 1 ≤ depth) (hint : depth < 2 ^ 31) (hb : 0 < bs) (hcount : total.toNat / bs.toNat < 2 ^ 31)
    (hlib : b = .libaio → depth ≤ 128) (h512 : b = .spdk → 512 ∣ bs.toNat) (hans : b.Obeyed depth ans) :
    b.CountsIssued w depth fd bs total ans ↔ b.Whole w depth bs total ans.memory := by
  cases b with
  | posix => exact posix_counts_iff w fd ans hb hcount
  | libaio => exact libaio_counts_iff w fd h0 (hlib rfl) hb hcount hans
  | spdk => exact spdk_counts_iff w fd h0 hint hb (h512 rfl) hans

/-- An allocator that finds a page, a kernel that takes `8` control blocks at a time
and a device that completes `8` commands in two steps. -/
def eightAtATime : Answers := ⟨some 4096, fun _ => ⟨8, 8⟩, fun _ _ => some 0, fun _ => [3, 0, 5]⟩

theorem drains_eightAtATime : eightAtATime.device.Drains 8 := ⟨fun _ _ => rfl, fun _ => ⟨by simp [eightAtATime], rfl⟩⟩

theorem backend_counts_iff_two_batches :
    Backend.libaio.CountsIssued .DO_SW 8 0 512 8192 eightAtATime ∧
      Backend.spdk.CountsIssued .DO_SW 8 0 512 8192 eightAtATime :=
  ⟨(backend_counts_iff .libaio .DO_SW 8 0 512 8192 eightAtATime (by decide) (by decide) (by decide) (by decide)
      (fun _ => by decide) (fun h => by cases h) (fun _ => ⟨Nat.le_refl _, rfl⟩)).mpr ⟨by decide, by decide⟩,
    (backend_counts_iff .spdk .DO_SW 8 0 512 8192 eightAtATime (by decide) (by decide) (by decide) (by decide)
      (fun h => by cases h) (fun _ => by decide) drains_eightAtATime).mpr (show 8 ∣ 8192 / 512 by decide)⟩

/-- `1 MiB` in blocks of `4 KiB` and batches of `24`: of the `256` operations
that the report counts, `240` are issued. -/
theorem libaio_counts_too_many :
    ¬ Backend.libaio.CountsIssued .DO_SW 24 3 4096 1048576
      ⟨some 4096, fun _ => ⟨24, 24⟩, fun _ _ => some 0, fun _ => [24]⟩ := by
  rw [libaio_counts_iff .DO_SW 3 (by decide) (by decide) (by decide) (by decide) fun _ => ⟨Nat.le_refl _, rfl⟩]
  exact fun h => absurd h.2 (by decide)

/-! ## The two asynchronous writers -/

/-- The two writers issue the same batches; the common sequence is
`q * block_size` for the operations of whole batches, its ranges are disjoint,
follow one another and lie below `total_size`. -/
def SeqwritersAgree (depth fd : Int) (bs total : UInt64) (ans : Answers) : Prop :=
  let aio := IoLibaio.doSeqwrite ans.memory ans.kernel depth fd bs total
  let nvme := IoSpdk.doSeqwrite depth bs total ans.device
  aio.requests = nvme.requests ∧
    aio.requests.flatten = chain bs.toNat (depth.toNat * (total.toNat / (bs.toNat * depth.toNat))) ∧
    aio.requests.flatten.Pairwise Span.Disjoint ∧
    (∀ (k : Nat) (s t : Span), aio.requests.flatten[k]? = some s → aio.requests.flatten[k + 1]? = some t →
      t.start = s.start + s.len) ∧
    ∀ s ∈ aio.requests.flatten, s.start + s.len ≤ total.toNat

theorem sectors_span {bs : UInt64} {d first : Nat} (h512 : 512 ∣ bs.toNat)
    (hfit : (first + d) * bs.toNat < 2 ^ 64) :
    (IoSpdk.sectors (bs / 512) d first).map IoSpdk.Cmd.span =
      (List.range d).map fun t => ⟨(first + t) * bs.toNat, bs.toNat / 512 % 2 ^ 32 * 512⟩ := by
  obtain ⟨n, hn⟩ := h512
  have hdiv : (bs / 512).toNat = n := by
    rw [UInt64.toNat_div, hn, show (512 : UInt64).toNat = 512 from rfl, Nat.mul_div_cancel_left _ (by decide)]
  rw [IoSpdk.sectors, List.map_map]
  refine List.map_congr_left fun t ht => ?_
  have hlt : (first + t) * n < 2 ^ 64 := by
    refine Nat.lt_of_le_of_lt (Nat.mul_le_mul ?_ ?_) hfit
    · have := List.mem_range.mp ht; omega
    · omega
  simp only [Function.comp, IoSpdk.Cmd.span, hdiv, UInt64.toNat_toUInt32, Span.mk.injEq]
  rw [UInt64.toNat_ofNat_of_lt' hlt, hn, Nat.mul_div_cancel_left _ (by decide), Nat.mul_assoc, Nat.mul_comm n]
  exact ⟨rfl, rfl⟩

theorem chain_below {len depth total : Nat} {s : Span} (hs : s ∈ chain len (depth * (total / (len * depth)))) :
    s.start + s.len ≤ total := by
  have hle : depth * (total / (len * depth)) * len ≤ total := by
    rw [Nat.mul_right_comm, Nat.mul_comm depth]; exact Nat.mul_div_le _ _
  rcases Nat.eq_zero_or_pos s.len with h | h
  · obtain ⟨k, hk, rfl⟩ := List.mem_map.mp hs
    rw [show len = 0 from h, Nat.mul_zero]
    exact Nat.zero_le _
  · exact Nat.le_trans ((tiles_chain len _).end_le hs h) hle

section
variable {depth : Int} {bs total : UInt64} {ans : Answers} (h0 : 1 ≤ depth) (h1 : depth ≤ 128)
include h0 h1

section
variable (hint : total.toNat / (bs.toNat * depth.toNat) < 2 ^ 31) (hw : ans.kernel.Willing depth.toNat)
  (hm : posixMemalign ans.memory bs (bs * UInt64.ofInt depth) = true) (op : IoLibaio.Opcode) (fd : Int)
include hint hw hm

theorem libaio_requests : (IoLibaio.sequential ans.memory ans.kernel op depth fd bs total).requests =
    batched bs.toNat depth.toNat (total.toNat / (bs.toNat * depth.toNat)) 0 := by
  have hcount : (total / (bs * UInt64.ofInt depth)).toNat = total.toNat / (bs.toNat * depth.toNat) := by
    rw [UInt64.toNat_div, IoLibaio.toNat_bytes h0 h1 (IoLibaio.fits_of_buffer h0 h1 hm)]
  rw [(IoLibaio.sequential_requests op fd total h0 h1 hw hm).2, intPasses_of_lt (by rw [hcount]; exact hint), hcount]

theorem libaio_sequence : (IoLibaio.sequential ans.memory ans.kernel op depth fd bs total).requests.flatten =
    chain bs.toNat (depth.toNat * (total.toNat / (bs.toNat * depth.toNat))) := by
  rw [libaio_requests h0 h1 hint hw hm op fd, flatten_batched, chainFrom_zero, Nat.mul_comm]

end

theorem spdk_requests (hb : 0 < bs) (h512 : 512 ∣ bs.toNat) (hd : ans.device.Drains depth) :
    (IoSpdk.doSeqwrite depth bs total ans.device).requests =
      (List.range (total.toNat / (bs.toNat * depth.toNat))).map fun i => (List.range depth.toNat).map fun j =>
        ⟨(i * depth.toNat + j) * bs.toNat, bs.toNat / 512 % 2 ^ 32 * 512⟩ := by
  rw [IoSpdk.doSeqwrite_batches hd h0 (by omega) hb h512, Nat.div_div_eq_div_mul, IoSpdk.Run.requests, List.map_map]
  refine List.map_congr_left fun i hi => sectors_span h512 ?_
  have h1 : (i + 1) * (bs.toNat * depth.toNat) ≤ total.toNat :=
    Nat.le_trans (Nat.mul_le_mul_right _ (List.mem_range.mp hi)) (Nat.div_mul_le_self _ _)
  have e : (i * depth.toNat + depth.toNat) * bs.toNat = (i + 1) * (bs.toNat * depth.toNat) := by
    rw [Nat.mul_comm bs.toNat, ← Nat.mul_assoc, Nat.add_mul i, Nat.one_mul]
  rw [e]; exact Nat.lt_of_le_of_lt h1 total.toNat_lt

omit h0 h1 in
/-- Whole batches of blocks are those of the commands if the count of sectors is not
cut to `32` bits. -/
theorem batched_eq_sectors_iff {m d : Nat} (h512 : 512 ∣ bs.toNat) (hm : 0 < m) (hd : 0 < d) :
    (batched bs.toNat d m 0 = (List.range m).map fun i => (List.range d).map fun j =>
      ⟨(i * d + j) * bs.toNat, bs.toNat / 512 % 2 ^ 32 * 512⟩) ↔ bs.toNat < 2 ^ 41 := by
  obtain ⟨m, rfl⟩ : ∃ n, m = n + 1 := ⟨m - 1, by omega⟩
  obtain ⟨d, rfl⟩ : ∃ n, d = n + 1 := ⟨d - 1, by omega⟩
  rw [batched_eq_map]
  constructor
  · intro h
    -- compare the first requests
    rw [List.range_succ_eq_map, List.map_cons, List.map_cons, List.cons.injEq, chainFrom, List.range_succ_eq_map,
      List.map_cons, List.map_cons, List.cons.injEq] at h
    have hlen : bs.toNat = bs.toNat / 512 % 2 ^ 32 * 512 := congrArg Span.len h.1.1
    have := Nat.mod_lt (bs.toNat / 512) (show 0 < 2 ^ 32 by decide)
    omega
  · intro hlt
    have hlen : bs.toNat / 512 % 2 ^ 32 * 512 = bs.toNat := by
      rw [Nat.mod_eq_of_lt (by omega), Nat.div_mul_cancel h512]
    rw [hlen]
    exact List.map_congr_left fun i _ => by rw [Nat.zero_add, chainFrom]

omit h0 h1 in
theorem libaio_no_buffer (hm : posixMemalign ans.memory bs (bs * UInt64.ofInt depth) = false) (op : IoLibaio.Opcode)
    (fd : Int) : (IoLibaio.sequential ans.memory ans.kernel op depth fd bs total).requests = [] := by
  rw [IoLibaio.Run.requests, (IoLibaio.sequential_unset ans.kernel op fd total hm).1]
  rfl

omit h0 h1 in
/-- Once the requests of the libaio writer are the ones of whole batches, the rest
is a fact about adjacent blocks. -/
theorem seqwritersAgree_iff_requests (fd : Int) : SeqwritersAgree depth fd bs total ans ↔
    (IoLibaio.doSeqwrite ans.memory ans.kernel depth fd bs total).requests =
        (IoSpdk.doSeqwrite depth bs total ans.device).requests ∧
      (IoLibaio.doSeqwrite ans.memory ans.kernel depth fd bs total).requests.flatten =
        chain bs.toNat (depth.toNat * (total.toNat / (bs.toNat * depth.toNat))) := by
  constructor
  · rintro ⟨hsame, hseq, -⟩
    exact ⟨hsame, hseq⟩
  · rintro ⟨hsame, hseq⟩
    unfold SeqwritersAgree
    dsimp only
    rw [hseq]
    exact ⟨hsame, rfl, chain_pairwise _ _, fun k s t hs ht => chain_contiguous hs ht, fun s hs => chain_below hs⟩

end

/-- **The two asynchronous writers.** They agree exactly when the libaio writer has
its buffer and the sectors of a block fit the 32-bit count of an NVMe command, or
when there is no batch. -/
theorem seqwriters_agree_iff (depth fd : Int) (bs total : UInt64) (ans : Answers) (h0 : 1 ≤ depth)
    (h1 : depth ≤ 128) (hb : 0 < bs) (h512 : 512 ∣ bs.toNat)
    (hint : total.toNat / (bs.toNat * depth.toNat) < 2 ^ 31) (hw : ans.kernel.Willing depth.toNat)
    (hd : ans.device.Drains depth) :
    SeqwritersAgree depth fd bs total ans ↔
      posixMemalign ans.memory bs (bs * UInt64.ofInt depth) = true ∧ bs.toNat < 2 ^ 41 ∨
        total.toNat < bs.toNat * depth.toNat := by
  have hb' : 0 < bs.toNat := UInt64.lt_iff_toNat_lt.mp hb
  have hbd : 0 < bs.toNat * depth.toNat := Nat.mul_pos hb' (by omega)
  have hnReq := @spdk_requests depth bs total ans h0 h1 hb h512 hd
  rw [seqwritersAgree_iff_requests, IoLibaio.doSeqwrite, hnReq]
  rcases Nat.lt_or_ge total.toNat (bs.toNat * depth.toNat) with hlt | hge
  · -- there is no batch, with or without a buffer
    refine iff_of_true ?_ (.inr hlt)
    have hnone : total.toNat / (bs.toNat * depth.toNat) = 0 := Nat.div_eq_of_lt hlt
    have hempty : (IoLibaio.sequential ans.memory ans.kernel .IOCB_CMD_PWRITE depth fd bs total).requests = [] := by
      cases hm : posixMemalign ans.memory bs (bs * UInt64.ofInt depth) with
      | true => rw [libaio_requests h0 h1 hint hw hm, hnone]; rfl
      | false => exact libaio_no_buffer hm _ fd
    rw [hempty, hnone]
    exact ⟨rfl, rfl⟩
  have hm : 0 < total.toNat / (bs.toNat * depth.toNat) := Nat.div_pos hge hbd
  have hdep : 0 < depth.toNat := by omega
  cases hbuff : posixMemalign ans.memory bs (bs * UInt64.ofInt depth) with
  | false =>
    refine iff_of_false (fun h => ?_) (fun h => ?_)
    · have hlen := congrArg List.length h.2
      rw [libaio_no_buffer hbuff, length_chain] at hlen
      exact absurd hlen (Nat.ne_of_lt (Nat.mul_pos hdep hm))
    · rcases h with h | h
      · cases h.1
      · omega
  | true =>
    rw [libaio_requests h0 h1 hint hw hbuff, flatten_batched, chainFrom_zero, Nat.mul_comm depth.toNat,
      batched_eq_sectors_iff h512 hm hdep]
    constructor
    · exact fun h => .inl ⟨rfl, h.1⟩
    · rintro (⟨-, hlt⟩ | hlt)
      · exact ⟨hlt, rfl⟩
      · omega

theorem seqwriters_agree_iff_two_batches : SeqwritersAgree 8 3 512 8192 eightAtATime :=
  (seqwriters_agree_iff 8 3 512 8192 eightAtATime (by decide) (by decide) (by decide) (by decide) (by decide)
    (fun _ => ⟨Nat.le_refl _, rfl⟩) drains_eightAtATime).mpr (.inl ⟨by decide, by decide⟩)

/-- Blocks of `1536` bytes: `posix_memalign` refuses them whatever the answers are,
and the libaio writer has no buffer for its first batch. -/
theorem seqwriters_disagree_no_buffer : ¬ ∃ ans, SeqwritersAgree 1 3 1536 1048576 ans := by
  rintro ⟨ans, -, hseq, -⟩
  have hnone : posixMemalign ans.memory 1536 (1536 * UInt64.ofInt 1) = false := by
    rw [posixMemalign, show alignment 1536 = false by decide, Bool.false_and]
  have hlen := congrArg List.length hseq
  rw [IoLibaio.doSeqwrite, libaio_no_buffer hnone, length_chain] at hlen
  exact absurd hlen (by decide)

/-! ## Sequential patterns of the synchronous and the asynchronous program -/

def Request.span (r : Request) : Span := ⟨r.pos.toNat, r.len.toNat⟩

def Consecutive (l : List Span) : Prop :=
  ∀ (k : Nat) (s t : Span), l[k]? = some s → l[k + 1]? = some t → t.start = s.start + s.len

/-- The requests of a POSIX worker are those of an asynchronous one, and are
consecutive. -/
def SamePattern (posix : IoPosix.Run) (aio : IoLibaio.Run) : Prop :=
  posix.issued.map Request.span = aio.requests.flatten ∧ Consecutive (posix.issued.map Request.span)

/-- The second request of a POSIX worker is not the second of a chain. -/
theorem passes_eq_chain_iff (io : IoOp) (fd : Int) {bs total : UInt64} (hb : 0 < bs.toNat) {n : Nat}
    (hn : n = total.toNat / bs.toNat) :
    (IoPosix.passes io fd bs (IoPosix.wrapAt (IoPosix.skipOf bs) total) n 0).map Request.span = chain bs.toNat n ↔
      n < 2 := by
  constructor
  · intro h
    refine Nat.lt_of_not_le fun hge => ?_
    have h2 : 1 < n := hge
    have htwo : 2 * bs.toNat ≤ total.toNat := (Nat.le_div_iff_mul_le hb).mp (hn ▸ hge)
    have htotal := total.toNat_lt
    have hskip := IoPosix.toNat_skipOf (show 16384 + bs.toNat < 2 ^ 64 by omega)
    have hsec := congrArg (·[1]?) h
    simp only [List.getElem?_map, IoPosix.passes_getElem? _ _ _ _ _ _ 1 h2, Option.map_some, chain,
      List.getElem?_range h2, Function.iterate_one] at hsec
    have hpos := congrArg Span.start (Option.some.inj hsec)
    simp only [Request.span, IoPosix.wrapAt, UInt64.zero_add, Nat.one_mul] at hpos
    split at hpos
    · exact absurd hpos (Nat.ne_of_lt hb)
    · omega
  · intro hlt
    obtain rfl | rfl : n = 0 ∨ n = 1 := by omega
    · rfl
    · simp [IoPosix.passes, chain, Request.span]

theorem consecutive_chain (len n : Nat) : Consecutive (chain len n) := fun _ _ _ hs ht => chain_contiguous hs ht

theorem samePattern_iff {ans : Answers} (io : IoOp) (op : IoLibaio.Opcode) (fd : Int) {bs total : UInt64} (hb : 0 < bs)
    (hcount : total.toNat / bs.toNat < 2 ^ 31) (hw : ans.kernel.Willing 1) :
    SamePattern (IoPosix.counted ans.memory io fd bs total (IoPosix.wrapAt (IoPosix.skipOf bs) total))
      (IoLibaio.sequential ans.memory ans.kernel op 1 fd bs total) ↔
      posixMemalign ans.memory bs bs = false ∨ total.toNat < 2 * bs.toNat := by
  have hb' : 0 < bs.toNat := UInt64.lt_iff_toNat_lt.mp hb
  have hb0 : bs ≠ 0 := (UInt64.ne_of_lt hb).symm
  have hbytes : bs * UInt64.ofInt 1 = bs := UInt64.mul_one bs
  cases hm : posixMemalign ans.memory bs bs with
  | false =>
    have hm' : posixMemalign ans.memory bs (bs * UInt64.ofInt 1) = false := by rw [hbytes, hm]
    refine iff_of_true ⟨?_, ?_⟩ (.inl rfl)
    · simp [IoPosix.counted, hb0, hm, libaio_no_buffer hm']
    · intro k s t hs
      simp [IoPosix.counted, hb0, hm] at hs
  | true =>
    have haio : (IoLibaio.sequential ans.memory ans.kernel op 1 fd bs total).requests.flatten = _ :=
      libaio_sequence (by decide) (by decide) (by simpa using hcount) hw (by rw [hbytes, hm]) op fd
    have hn : intPasses (total / bs) = total.toNat / bs.toNat := by
      rw [intPasses_of_lt] <;> rw [UInt64.toNat_div]
      exact hcount
    simp only [SamePattern, IoPosix.counted, hb0, hm, ite_false, ite_true, haio, hn, Bool.true_eq_false, false_or]
    rw [show Int.toNat 1 = 1 from rfl, Nat.one_mul, Nat.mul_one, ← Nat.div_lt_iff_lt_mul hb']
    have hiff := passes_eq_chain_iff io fd hb' (rfl : _ = total.toNat / bs.toNat)
    refine ⟨fun h => hiff.mp h.1, fun hlt => ?_⟩
    have hsame := hiff.mpr hlt
    rw [hsame]
    exact ⟨rfl, consecutive_chain _ _⟩

/-- **Sequential access.** `DO_SW` and `DO_SR` issue the requests of the
asynchronous program with depth one exactly when there is at most one, or when
neither program has a buffer. -/
theorem sequential_pattern_iff (fd : Int) (bs total : UInt64) (ans : Answers) (hb : 0 < bs)
    (hcount : total.toNat / bs.toNat < 2 ^ 31) (hw : ans.kernel.Willing 1) :
    (SamePattern (IoPosix.select ans.memory .DO_SW fd bs total)
        (IoLibaio.select ans.memory ans.kernel .DO_SW 1 fd bs total) ∧
      SamePattern (IoPosix.select ans.memory .DO_SR fd bs total)
        (IoLibaio.select ans.memory ans.kernel .DO_SR 1 fd bs total)) ↔
      posixMemalign ans.memory bs bs = false ∨ total.toNat < 2 * bs.toNat :=
  (and_congr (samePattern_iff .pwrite .IOCB_CMD_PWRITE fd hb hcount hw)
    (samePattern_iff .pread .IOCB_CMD_PWRITE fd hb hcount hw)).trans and_self_iff

/-- One request at a time, whatever is asked for. -/
def oneAtATime : Answers := ⟨some 4096, fun _ => ⟨1, 1⟩, fun _ _ => some 0, fun _ => [1]⟩

theorem sequential_pattern_iff_one_block :
    SamePattern (IoPosix.select oneAtATime.memory .DO_SW 3 4096 4096)
      (IoLibaio.select oneAtATime.memory oneAtATime.kernel .DO_SW 1 3 4096 4096) :=
  ((sequential_pattern_iff 3 4096 4096 oneAtATime (by decide) (by decide) fun _ => ⟨Nat.le_refl _, rfl⟩).mpr
    (.inr (by decide))).1

theorem sequential_pattern_differs :
    ¬ SamePattern (IoPosix.select oneAtATime.memory .DO_SW 3 4096 1048576)
      (IoLibaio.select oneAtATime.memory oneAtATime.kernel .DO_SW 1 3 4096 1048576) := fun h =>
  absurd ((@samePattern_iff oneAtATime .pwrite .IOCB_CMD_PWRITE 3 4096 1048576 (by decide) (by decide)
    fun _ => ⟨Nat.le_refl _, rfl⟩).mp h) (by decide)

end IoTester

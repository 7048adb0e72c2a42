import IoTester.IoLibaio

/-!
# The batches of the libaio workers

A worker that has a buffer addresses adjacent blocks from the start of the file,
as many as the kernel takes. No product overflows on the way: the buffer starts
at a multiple of the block size, so a block has no more than `56` bits.
-/

namespace IoTester.IoLibaio

open Lib

def Iocb.span (c : Iocb) : Span := ⟨c.offset.toNat, c.nbytes.toNat⟩

def Run.requests (r : Run) : List (List Span) := r.batches.map (·.map Iocb.span)

/-- The control blocks that the kernel has taken. -/
def Run.taken (r : Run) : Nat := r.batches.flatten.length

section
variable (op : Opcode) (fd : Int) (bs : UInt64)

def block (j : Nat) (cur : UInt64) : Iocb := ⟨fd, bs, bs * cur, op, UInt64.ofNat j * bs⟩

theorem ofNat_shift (cur : UInt64) (t : Nat) : cur + 1 + UInt64.ofNat t = cur + UInt64.ofNat (t + 1) := by
  rw [UInt64.ofNat_add, UInt64.add_assoc, UInt64.add_comm 1]; rfl

theorem fillBatch_fst : ∀ (n j : Nat) (cur : UInt64),
    (fillBatch op fd bs n j cur).1 = (List.range n).map fun t => block op fd bs (j + t) (cur + UInt64.ofNat t)
  | 0, _, _ => rfl
  | n + 1, j, cur => by
    rw [List.range_succ_eq_map, List.map_cons, List.map_map]
    simp only [fillBatch, fillBatch_fst n (j + 1) (cur + 1)]
    refine congr (congrArg _ ?_) (List.map_congr_left fun t _ => ?_)
    · rw [show UInt64.ofNat 0 = 0 from rfl, UInt64.add_zero]; rfl
    · rw [ofNat_shift, Nat.add_right_comm]; rfl

theorem fillBatch_snd : ∀ (n j : Nat) (cur : UInt64), (fillBatch op fd bs n j cur).2 = cur + UInt64.ofNat n
  | 0, _, cur => by rw [show UInt64.ofNat 0 = 0 from rfl, UInt64.add_zero]; rfl
  | n + 1, j, cur => by rw [← ofNat_shift, ← fillBatch_snd n (j + 1) (cur + 1)]; rfl

end

/-! ## One batch -/

theorem toNat_ofNat_mul {bs : UInt64} {j : Nat} (h : j * bs.toNat < 2 ^ 64) (hb : 0 < bs.toNat) :
    (UInt64.ofNat j * bs).toNat = j * bs.toNat := by
  have hj : j < 2 ^ 64 := Nat.lt_of_le_of_lt (Nat.le_mul_of_pos_right j hb) h
  rw [UInt64.toNat_mul, UInt64.toNat_ofNat_of_lt' hj, Nat.mod_eq_of_lt h]

theorem length_fillBatch (op : Opcode) (fd : Int) (bs : UInt64) (n j : Nat) (cur : UInt64) :
    (fillBatch op fd bs n j cur).1.length = n := by
  rw [fillBatch_fst, List.length_map, List.length_range]

/-- A batch that is taken in full is the batch. -/
theorem take_fillBatch {op : Opcode} {fd : Int} {bs : UInt64} {n j m : Nat} {cur : UInt64}
    (h : ((fillBatch op fd bs n j cur).1.take m).length = n) :
    (fillBatch op fd bs n j cur).1.take m = (fillBatch op fd bs n j cur).1 := by
  refine List.take_of_length_le ?_
  rw [List.length_take, length_fillBatch] at h
  rw [length_fillBatch]
  omega

section
variable (op : Opcode) (fd : Int) {bs q : UInt64} (hb : 0 < bs.toNat)
include hb

theorem block_span {j : Nat} {c : UInt64} {t : Nat} (h : (c.toNat + t) * bs.toNat < 2 ^ 64) :
    (block op fd bs j (c + UInt64.ofNat t)).span = ⟨(c.toNat + t) * bs.toNat, bs.toNat⟩ := by
  have hlt : c.toNat + t < 2 ^ 64 := Nat.lt_of_le_of_lt (Nat.le_mul_of_pos_right _ hb) h
  simp only [block, Iocb.span, UInt64.toNat_mul, UInt64.toNat_add, Span.mk.injEq, and_true]
  rw [UInt64.toNat_ofNat_of_lt' (show t < 2 ^ 64 by omega), Nat.mod_eq_of_lt hlt, Nat.mul_comm, Nat.mod_eq_of_lt h]

section
variable {cur : UInt64} {n : Nat} (h : (cur.toNat + (n + 1) * q.toNat) * bs.toNat < 2 ^ 64)
include h

theorem batch_spans :
    (fillBatch op fd bs q.toNat 0 cur).1.map Iocb.span = chainFrom bs.toNat q.toNat cur.toNat := by
  rw [fillBatch_fst, List.map_map, chainFrom]
  refine List.map_congr_left fun t ht => ?_
  refine block_span op fd hb (Nat.lt_of_le_of_lt (Nat.mul_le_mul_right _ ?_) h)
  have := List.mem_range.mp ht
  rw [Nat.add_mul]
  omega

theorem batch_next : (fillBatch op fd bs q.toNat 0 cur).2.toNat = cur.toNat + q.toNat := by
  have hlt : cur.toNat + (n + 1) * q.toNat < 2 ^ 64 := Nat.lt_of_le_of_lt (Nat.le_mul_of_pos_right _ hb) h
  rw [Nat.add_mul, Nat.one_mul] at hlt
  rw [fillBatch_snd, UInt64.ofNat_toNat, UInt64.toNat_add, Nat.mod_eq_of_lt (by omega)]

theorem next_fits :
    ((fillBatch op fd bs q.toNat 0 cur).2.toNat + n * q.toNat) * bs.toNat < 2 ^ 64 := by
  rw [batch_next op fd hb h]
  rw [Nat.add_mul n, Nat.one_mul, Nat.add_comm (n * q.toNat), ← Nat.add_assoc] at h
  exact h

end

/-- The bytes that the control blocks of a batch name are in the buffer. -/
theorem batch_mem (hfit : bs.toNat * q.toNat < 2 ^ 64) {cur : UInt64} {c : Iocb}
    (hc : c ∈ (fillBatch op fd bs q.toNat 0 cur).1) :
    c.opcode = op ∧ c.buf.toNat + c.nbytes.toNat ≤ (bs * q).toNat := by
  rw [fillBatch_fst] at hc
  obtain ⟨t, ht, rfl⟩ := List.mem_map.mp hc
  have hle := Nat.mul_le_mul_right bs.toNat (show t + 1 ≤ q.toNat from List.mem_range.mp ht)
  rw [Nat.add_mul, Nat.one_mul, Nat.mul_comm q.toNat] at hle
  refine ⟨rfl, ?_⟩
  show (UInt64.ofNat (0 + t) * bs).toNat + bs.toNat ≤ (bs * q).toNat
  rw [Nat.zero_add, toNat_ofNat_mul (by omega) hb, UInt64.toNat_mul, Nat.mod_eq_of_lt hfit]
  exact hle

end

/-! ## The outer loop -/

section
variable (done : Exit) (op : Opcode) (fd : Int) {bs q : UInt64} (hb : 0 < bs.toNat)
include hb

/-- Whatever the kernel takes, the blocks are adjacent. -/
theorem submitLoop_chain : ∀ (kernel : Kernel) (n : Nat) (cur : UInt64),
    (cur.toNat + n * q.toNat) * bs.toNat < 2 ^ 64 →
    (submitLoop done op fd bs q kernel n cur).requests.flatten =
      chainFrom bs.toNat (submitLoop done op fd bs q kernel n cur).taken cur.toNat
  | _, 0, _, _ => rfl
  | kernel, n + 1, cur, h => by
    have hspans := batch_spans op fd hb h
    have ih := submitLoop_chain (fun i => kernel (i + 1)) n _ (next_fits op fd hb h)
    rw [batch_next op fd hb h] at ih
    unfold submitLoop
    dsimp only
    split
    · rfl
    · split
      · rename_i hfull
        rw [take_fillBatch hfull.1]
        simp only [Run.requests, Run.taken, List.map_cons, List.flatten_cons, List.length_append, length_fillBatch]
        rw [chainFrom_add, hspans]
        exact congrArg _ ih
      · simp only [Run.requests, Run.taken, List.map_cons, List.map_nil, List.flatten_cons, List.flatten_nil,
          List.append_nil, List.map_take, hspans, take_chainFrom, List.length_take, length_fillBatch]

theorem submitLoop_mem (hfit : bs.toNat * q.toNat < 2 ^ 64) {c : Iocb} : ∀ (kernel : Kernel) (n : Nat) (cur : UInt64),
    c ∈ (submitLoop done op fd bs q kernel n cur).batches.flatten →
      c.opcode = op ∧ c.buf.toNat + c.nbytes.toNat ≤ (bs * q).toNat
  | _, 0, _, h => by simp [submitLoop] at h
  | kernel, n + 1, cur, h => by
    unfold submitLoop at h
    dsimp only at h
    split at h
    · cases h
    · split at h
      · rcases List.mem_append.mp h with h | h
        · exact batch_mem op fd hb hfit (List.mem_of_mem_take h)
        · exact submitLoop_mem hfit _ n _ h
      · rw [List.flatten_cons, List.flatten_nil, List.append_nil] at h
        exact batch_mem op fd hb hfit (List.mem_of_mem_take h)

/-- **The batches.** As long as the offsets fit, a willing kernel takes every block
that the outer loop fills, and the blocks are adjacent. -/
theorem submitLoop_requests (hq : q.toNat ≤ slots) : ∀ {kernel : Kernel} (n : Nat) (cur : UInt64),
    kernel.Willing q.toNat → (cur.toNat + n * q.toNat) * bs.toNat < 2 ^ 64 →
    (submitLoop done op fd bs q kernel n cur).exit = done ∧
      (submitLoop done op fd bs q kernel n cur).requests = batched bs.toNat q.toNat n cur.toNat
  | _, 0, _, _, _ => ⟨rfl, rfl⟩
  | kernel, n + 1, cur, hw, h => by
    have hall : (fillBatch op fd bs q.toNat 0 cur).1.take (kernel 0).submit = (fillBatch op fd bs q.toNat 0 cur).1 :=
      List.take_of_length_le (by rw [length_fillBatch]; exact (hw 0).1)
    have ih := submitLoop_requests hq n _ (fun i => hw (i + 1)) (next_fits op fd hb h)
    rw [batch_next op fd hb h] at ih
    unfold submitLoop
    simp only [Nat.not_lt.mpr hq, ite_false, hall, length_fillBatch, (hw 0).2, and_self, ite_true]
    refine ⟨ih.1, ?_⟩
    rw [batched, ← ih.2, ← batch_spans op fd hb h]
    rfl

end

/-! ## Whole runs -/

theorem toNat_queueSize {depth : Int} (h0 : 1 ≤ depth) (h1 : depth ≤ 128) :
    (UInt64.ofInt depth).toNat = depth.toNat := by
  rw [UInt64.ofInt, Int.emod_eq_of_lt (by omega) (by omega), UInt64.toNat_ofNat_of_lt' (show depth.toNat < 2 ^ 64 by omega)]

/-- The blocks in the whole batches that `total` holds. -/
def blocksTaken (depth : Int) (bs total : UInt64) : Nat :=
  depth.toNat * intPasses (total / (bs * UInt64.ofInt depth))

section
variable {memory : Memory} {kernel : Kernel} (op : Opcode) (fd : Int) {depth : Int} {bs : UInt64} (total : UInt64)
  (h0 : 1 ≤ depth) (h1 : depth ≤ 128)
include h0 h1

/-- With a buffer, a batch has no more than `63` bits. -/
theorem fits_of_buffer (hm : posixMemalign memory bs (bs * UInt64.ofInt depth) = true) :
    bs.toNat * depth.toNat < 2 ^ 64 := by
  have hle : bs.toNat ≤ 2 ^ 56 := Nat.le_of_add_right_le (add_le_of_posixMemalign hm)
  have hmul := Nat.mul_le_mul hle (show depth.toNat ≤ 128 by omega)
  omega

theorem toNat_bytes (hfit : bs.toNat * depth.toNat < 2 ^ 64) :
    (bs * UInt64.ofInt depth).toNat = bs.toNat * depth.toNat := by
  rw [UInt64.toNat_mul, toNat_queueSize h0 h1, Nat.mod_eq_of_lt hfit]

theorem mul_le_total (hfit : bs.toNat * depth.toNat < 2 ^ 64) :
    intPasses (total / (bs * UInt64.ofInt depth)) * depth.toNat * bs.toNat ≤ total.toNat := by
  rw [Nat.mul_assoc, Nat.mul_comm depth.toNat, ← toNat_bytes h0 h1 hfit]
  refine Nat.le_trans (Nat.mul_le_mul_right _ (Nat.min_le_left _ _)) ?_
  rw [UInt64.toNat_div]; exact Nat.div_mul_le_self _ _

/-- With a buffer, a worker comes to its loop. -/
theorem sequential_loop (hm : posixMemalign memory bs (bs * UInt64.ofInt depth) = true) :
    sequential memory kernel op depth fd bs total =
      submitLoop (intExit (total / (bs * UInt64.ofInt depth))) op fd bs (UInt64.ofInt depth) kernel
        (intPasses (total / (bs * UInt64.ofInt depth))) 0 := by
  have hne : bs * UInt64.ofInt depth ≠ 0 := by
    rw [← toNat_pos_iff, toNat_bytes h0 h1 (fits_of_buffer h0 h1 hm)]
    exact Nat.mul_pos (pos_of_posixMemalign hm) (by omega)
  simp [sequential, hne, hm]

variable (kernel) in
omit h0 h1 in
/-- Without one, it issues nothing and does not return. -/
theorem sequential_unset (hm : posixMemalign memory bs (bs * UInt64.ofInt depth) = false) :
    (sequential memory kernel op depth fd bs total).batches = [] ∧
      (sequential memory kernel op depth fd bs total).exit ≠ .returned := by
  by_cases hz : bs * UInt64.ofInt depth = 0 <;> simp [sequential, hz, hm]

theorem loop_fits (hm : posixMemalign memory bs (bs * UInt64.ofInt depth) = true) :
    ((0 : UInt64).toNat + intPasses (total / (bs * UInt64.ofInt depth)) * (UInt64.ofInt depth).toNat) * bs.toNat <
      2 ^ 64 := by
  have hle := mul_le_total total h0 h1 (fits_of_buffer h0 h1 hm)
  rw [toNat_queueSize h0 h1, show (0 : UInt64).toNat = 0 from rfl, Nat.zero_add]
  exact Nat.lt_of_le_of_lt hle total.toNat_lt

/-- **All requests.** Whatever the kernel takes, it takes adjacent blocks from the
start of the file. -/
theorem sequential_chain : (sequential memory kernel op depth fd bs total).requests.flatten =
    chain bs.toNat (sequential memory kernel op depth fd bs total).taken := by
  cases hm : posixMemalign memory bs (bs * UInt64.ofInt depth) with
  | true =>
    rw [sequential_loop op fd total h0 h1 hm, ← chainFrom_zero]
    exact submitLoop_chain _ op fd (pos_of_posixMemalign hm) kernel _ 0 (loop_fits total h0 h1 hm)
  | false =>
    simp [Run.requests, Run.taken, (sequential_unset kernel op fd total hm).1, chain]

theorem sequential_mem {c : Iocb} (hc : c ∈ (sequential memory kernel op depth fd bs total).batches.flatten) :
    c.opcode = op ∧ c.buf.toNat + c.nbytes.toNat ≤ (bs * UInt64.ofInt depth).toNat := by
  cases hm : posixMemalign memory bs (bs * UInt64.ofInt depth) with
  | true =>
    rw [sequential_loop op fd total h0 h1 hm] at hc
    refine submitLoop_mem _ op fd (pos_of_posixMemalign hm) ?_ kernel _ 0 hc
    rw [toNat_queueSize h0 h1]
    exact fits_of_buffer h0 h1 hm
  | false =>
    rw [(sequential_unset kernel op fd total hm).1] at hc
    cases hc

variable (hw : kernel.Willing depth.toNat)
include hw

theorem sequential_requests (hm : posixMemalign memory bs (bs * UInt64.ofInt depth) = true) :
    (sequential memory kernel op depth fd bs total).exit = intExit (total / (bs * UInt64.ofInt depth)) ∧
      (sequential memory kernel op depth fd bs total).requests =
        batched bs.toNat depth.toNat (intPasses (total / (bs * UInt64.ofInt depth))) 0 := by
  have hq := toNat_queueSize h0 h1
  rw [← hq] at hw
  have hloop := submitLoop_requests (intExit (total / (bs * UInt64.ofInt depth))) op fd (pos_of_posixMemalign hm)
    (by rw [hq]; unfold slots; omega) _ 0 hw (loop_fits total h0 h1 hm)
  rw [sequential_loop op fd total h0 h1 hm]
  rwa [hq] at hloop

theorem taken_eq : (sequential memory kernel op depth fd bs total).taken =
    if posixMemalign memory bs (bs * UInt64.ofInt depth) then blocksTaken depth bs total else 0 := by
  cases hm : posixMemalign memory bs (bs * UInt64.ofInt depth) with
  | true =>
    have hlen := congrArg (fun l => l.flatten.length) (sequential_requests op fd total h0 h1 hw hm).2
    simp only [Run.requests, ← List.map_flatten, List.length_map, flatten_batched, chainFrom_zero, length_chain] at hlen
    rw [Run.taken, hlen, Nat.mul_comm]
    rfl
  | false => simp [Run.taken, (sequential_unset kernel op fd total hm).1]

end

/-! ## What becomes of the file -/

theorem exec_pwrite {c : Iocb} {s : Store} {n : Nat} {v : UInt8} (hop : c.opcode = .IOCB_CMD_PWRITE)
    (hbuf : c.buf.toNat + c.nbytes.toNat ≤ n) (hs : s.buff = List.replicate n v) :
    c.exec s = ⟨fill 0 v s.file c.span, s.buff⟩ := by
  simp only [Iocb.exec, hop, hs, readAt_replicate v hbuf]; rfl

theorem foldl_exec_pwrite {n : Nat} {v : UInt8} : ∀ (l : List Iocb) (s : Store),
    (∀ c ∈ l, c.opcode = .IOCB_CMD_PWRITE ∧ c.buf.toNat + c.nbytes.toNat ≤ n) → s.buff = List.replicate n v →
    l.foldl Iocb.exec s = ⟨(l.map Iocb.span).foldl (fill 0 v) s.file, s.buff⟩
  | [], _, _, _ => rfl
  | c :: l, s, hl, hs => by
    obtain ⟨hop, hbuf⟩ := hl c (List.mem_cons_self ..)
    have hc := exec_pwrite hop hbuf hs
    rw [List.foldl_cons, foldl_exec_pwrite l (c.exec s) (fun d hd => hl d (List.mem_cons_of_mem _ hd))
      (by rw [hc]; exact hs), hc]
    rfl

theorem executes_fill {n : Nat} {v : UInt8} : ∀ (batches : List (List Iocb)) {s s' : Store},
    Executes batches s s' →
    (∀ c ∈ batches.flatten, c.opcode = .IOCB_CMD_PWRITE ∧ c.buf.toNat + c.nbytes.toNat ≤ n) →
    s.buff = List.replicate n v →
    ∃ l : List Span, l.Perm (batches.flatten.map Iocb.span) ∧ s'.file = l.foldl (fill 0 v) s.file
  | [], s, s', h, _, _ => ⟨[], List.Perm.refl _, by rw [show s' = s from h]; rfl⟩
  | b :: rest, s, s', ⟨order, hperm, h⟩, hall, hs => by
    have hord := foldl_exec_pwrite order s (fun c hc => hall c
      (List.mem_append_left _ (hperm.subset hc))) hs
    rw [hord] at h
    obtain ⟨l, hl, hf⟩ := executes_fill rest h (fun c hc => hall c (List.mem_append_right _ hc)) hs
    refine ⟨order.map Iocb.span ++ l, ?_, by rw [hf, List.foldl_append]⟩
    rw [List.flatten_cons, List.map_append]
    exact (hperm.map _).append hl

theorem executes_in_order : ∀ (batches : List (List Iocb)) (s : Store),
    Executes batches s (batches.flatten.foldl Iocb.exec s)
  | [], _ => rfl
  | b :: rest, s => ⟨b, List.Perm.refl _, by
      rw [List.flatten_cons, List.foldl_append]; exact executes_in_order rest _⟩

section
variable {memory : Memory} {kernel : Kernel} {depth : Int} (fd : Int) {bs : UInt64} (total : UInt64) (h0 : 1 ≤ depth)
  (h1 : depth ≤ 128) {file : List UInt8} {s' : Store}
  (hrun : Executes (sequential memory kernel .IOCB_CMD_PWRITE depth fd bs total).batches (initial depth bs file) s')
include h0 h1 hrun

/-- A run of writes fills the blocks that the kernel has taken. -/
theorem executes_chain : ∃ l : List Span,
    l.Perm (chain bs.toNat (sequential memory kernel .IOCB_CMD_PWRITE depth fd bs total).taken) ∧
      s'.file = l.foldl (fill 0 0xff) file := by
  obtain ⟨l, hperm, hfile⟩ := executes_fill _ hrun (fun c hc => sequential_mem _ fd total h0 h1 hc) rfl
  refine ⟨l, ?_, hfile⟩
  rw [← sequential_chain .IOCB_CMD_PWRITE fd total h0 h1, Run.requests, ← List.map_flatten]
  exact hperm

theorem sequential_pwrite_file_iff : s'.file = file ↔
    ∀ x < (sequential memory kernel .IOCB_CMD_PWRITE depth fd bs total).taken * bs.toNat, file[x]? = some 0xff := by
  obtain ⟨l, hperm, hfile⟩ := executes_chain fd total h0 h1 hrun
  rw [hfile]
  refine (foldl_fill_eq_iff 0 0xff l file).trans ?_
  constructor
  · intro h x hx
    obtain ⟨s, hs, hc⟩ := chain_covers_iff.mpr hx
    exact h s (hperm.mem_iff.mpr hs) x hc
  · intro h s hs x hc
    exact h x (chain_covers_iff.mp ⟨s, hperm.mem_iff.mp hs, hc⟩)

end

/-- **The read worker and the file.** `do_seqread` submits writes of `0xff`: a
run leaves the file as it was exactly when the file already holds `0xff` in
every byte of the blocks that the kernel has taken. A willing kernel takes all
blocks of the whole batches, unless the worker has no buffer and submits none. -/
theorem doSeqread_frame_iff (memory : Memory) (kernel : Kernel) (depth fd : Int) (bs total : UInt64) (h0 : 1 ≤ depth)
    (h1 : depth ≤ 128) (file : List UInt8) (s' : Store)
    (hrun : Executes (doSeqread memory kernel depth fd bs total).batches (initial depth bs file) s') :
    (s'.file = file ↔
      ∀ x < (doSeqread memory kernel depth fd bs total).taken * bs.toNat, file[x]? = some 0xff) ∧
    (kernel.Willing depth.toNat → (doSeqread memory kernel depth fd bs total).taken =
      if posixMemalign memory bs (bs * UInt64.ofInt depth) then blocksTaken depth bs total else 0) :=
  ⟨sequential_pwrite_file_iff fd total h0 h1 hrun, taken_eq _ fd total h0 h1⟩

/-- Two blocks of `512` bytes that already hold `0xff`. -/
theorem doSeqread_frame_iff_two_blocks :
    ∃ s', Executes (doSeqread (some 4096) (fun _ => ⟨1, 1⟩) 1 3 512 1024).batches
        (initial 1 512 (List.replicate 1024 0xff)) s' ∧ s'.file = List.replicate 1024 0xff := by
  obtain ⟨hiff, htaken⟩ := doSeqread_frame_iff (some 4096) (fun _ => ⟨1, 1⟩) 1 3 512 1024 (by decide) (by decide)
    (List.replicate 1024 0xff) _ (executes_in_order _ _)
  have hblocks : (doSeqread (some 4096) (fun _ => ⟨1, 1⟩) 1 3 512 1024).taken = 2 :=
    (htaken fun _ => ⟨Nat.le_refl _, rfl⟩).trans (by decide)
  rw [hblocks] at hiff
  refine ⟨_, executes_in_order _ _, hiff.mpr fun x (hx : x < 1024) => ?_⟩
  rw [List.getElem?_replicate, if_pos hx]

/-- Reading a file of `1 MiB` that holds zeros, in blocks of `4 KiB`. -/
theorem doSeqread_overwrites :
    ∃ s', Executes (doSeqread (some 4096) (fun _ => ⟨1, 1⟩) 1 3 4096 1048576).batches
        (initial 1 4096 (List.replicate 1048576 0)) s' ∧ s'.file ≠ List.replicate 1048576 0 := by
  refine ⟨_, executes_in_order _ _, fun h => ?_⟩
  have hall := (sequential_pwrite_file_iff 3 1048576 (by decide) (by decide) (executes_in_order _ _)).mp h 0
  rw [taken_eq _ 3 1048576 (by decide) (by decide) fun _ => ⟨Nat.le_refl _, rfl⟩] at hall
  have hfirst := hall (by decide)
  rw [List.getElem?_replicate, if_pos (by decide)] at hfirst
  exact absurd hfirst (by decide)

end IoTester.IoLibaio

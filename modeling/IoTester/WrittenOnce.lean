import IoTester.Lib.Interleave
import IoTester.BackendSound
import IoTester.CommandLine

/-!
# Whole runs of the sequential writers

Each thread of the libaio program has a file of its own. The threads of the
SPDK program share the device, and each of them starts at its first sector.
-/

namespace IoTester

open Lib

inductive Storage where
  | file (name : Text)
  | device
  deriving Repr, DecidableEq

/-- A write: bytes of a file, or sectors of the device. -/
structure Write where
  storage : Storage
  span : Span
  deriving Repr, DecidableEq

def Write.Hits (w : Write) (s : Storage) (x : Nat) : Prop := w.storage = s ∧ w.span.Covers x

instance (w : Write) (s : Storage) (x : Nat) : Decidable (w.Hits s x) := inferInstanceAs (Decidable (_ ∧ _))

/-- No location is written more than once. -/
def WrittenOnce (log : List Write) : Prop := ∀ s x, log.countP (fun w => w.Hits s x) ≤ 1

def Write.Apart (v w : Write) : Prop := ∀ s x, ¬ (v.Hits s x ∧ w.Hits s x)

theorem Write.Apart.symm {v w : Write} (h : v.Apart w) : w.Apart v := fun s x hx => h s x hx.symm

theorem writtenOnce_iff {log : List Write} : WrittenOnce log ↔ log.Pairwise Write.Apart := by
  unfold WrittenOnce Write.Apart
  simp only [countP_le_one_iff, decide_eq_true_eq, List.pairwise_iff_getElem]
  constructor
  · intro h i j hi hj hij s x
    exact h s x i j hi hj hij
  · intro h s x i j hi hj hij
    exact h i j hi hj hij s x

theorem apart_of_disjoint {v w : Write} (h : v.span.Disjoint w.span) : v.Apart w := by
  rintro s x ⟨⟨_, hv⟩, ⟨_, hw⟩⟩
  unfold Span.Covers at hv hw
  unfold Span.Disjoint at h
  omega

theorem apart_of_storage {v w : Write} (h : v.storage ≠ w.storage) : v.Apart w := by
  rintro s x ⟨⟨hv, _⟩, ⟨hw, _⟩⟩
  exact h (hv.trans hw.symm)

/-! ## Runs of several threads -/

inductive AsyncProgram where
  | libaio
  | spdk
  deriving Repr, DecidableEq

def aioWrite (path : Text) (i : Nat) (c : IoLibaio.Iocb) : Write := ⟨.file (fileName path i), c.span⟩

def nvmeWrite (c : IoSpdk.Cmd) : Write := ⟨.device, c.lba.toNat, c.lbaCount.toNat⟩

section
variable (path : Text) (numThread depth : Int) (bs total : UInt64) (fd : Nat → Int) (ans : Nat → Answers)

/-- The batches of thread `i` in a `DO_SW` run. -/
def AsyncProgram.batches (i : Nat) : AsyncProgram → List (List Write)
  | .libaio => (IoLibaio.select (ans i).memory (ans i).kernel .DO_SW depth (fd i) bs total).batches.map
      (·.map (aioWrite path i))
  | .spdk => (IoSpdk.select .DO_SW depth bs total (ans i).device).batches.map (·.map nvmeWrite)

/-- The batches of a run, in the order of their submission. There are slots for
`32` threads; the creation of another one is a fault. -/
def AsyncProgram.Runs (p : AsyncProgram) (log : List (List Write)) : Prop :=
  ∃ fd ans, Interleaves ((List.range (min numThread.toNat 32)).map fun i => p.batches path depth bs total fd ans i) log

/-- Where a location is never written again. -/
def AsyncProgram.Separate : AsyncProgram → Prop
  | .libaio => True
  | .spdk => numThread ≤ 1 ∨ total.toNat / bs.toNat < depth.toNat ∨ (bs / 512).toUInt32 = 0

end

/-! ## Files of their own -/

theorem libaio_apart {depth : Int} (h0 : 1 ≤ depth) (h1 : depth ≤ 128) (path : Text) (bs total : UInt64)
    (fd : Nat → Int) (ans : Nat → Answers) (i : Nat) :
    (AsyncProgram.libaio.batches path depth bs total fd ans i).flatten.Pairwise Write.Apart := by
  have hchain := @IoLibaio.sequential_chain (ans i).memory (ans i).kernel .IOCB_CMD_PWRITE (fd i) depth bs total h0 h1
  have hdisjoint := chain_pairwise bs.toNat
    (IoLibaio.sequential (ans i).memory (ans i).kernel .IOCB_CMD_PWRITE depth (fd i) bs total).taken
  rw [← hchain, IoLibaio.Run.requests, ← List.map_flatten, List.pairwise_map] at hdisjoint
  unfold AsyncProgram.batches
  rw [← List.map_flatten, List.pairwise_map]
  exact hdisjoint.imp fun h => apart_of_disjoint h

theorem libaio_storage {path : Text} {depth : Int} {bs total : UInt64} {fd : Nat → Int} {ans : Nat → Answers}
    {i : Nat} {w : Write} (h : w ∈ (AsyncProgram.libaio.batches path depth bs total fd ans i).flatten) :
    w.storage = .file (fileName path i) := by
  unfold AsyncProgram.batches at h
  rw [← List.map_flatten] at h
  obtain ⟨c, _, rfl⟩ := List.mem_map.mp h
  rfl

/-! ## Sectors of one device -/

namespace IoSpdk

theorem sectors_add (n : UInt64) (d e first : Nat) :
    sectors n (d + e) first = sectors n d first ++ sectors n e (first + d) := by
  simp [sectors, List.range_add, Nat.add_assoc, Function.comp_def]

/-- A batch as far as its commands are taken. -/
theorem sendBatch_starts {n : UInt64} {sends : Nat → Option Int} : ∀ (depth j first : Nat),
    (sendBatch n sends depth j (UInt64.ofNat (first * n.toNat))).1 <+: sectors n depth first ∧
      ∀ k, (sendBatch n sends depth j (UInt64.ofNat (first * n.toNat))).2 = .ok k →
        (sendBatch n sends depth j (UInt64.ofNat (first * n.toNat))).1 = sectors n depth first ∧
          k = UInt64.ofNat ((first + depth) * n.toNat)
  | 0, _, first => by simp [sendBatch, sectors]
  | depth + 1, j, first => by
    obtain ⟨hpre, hok⟩ := @sendBatch_starts n sends depth (j + 1) (first + 1)
    unfold sendBatch
    cases hj : sends j with
    | none => simp
    | some rc =>
      by_cases hrc : rc = 0
      · simp only [hrc, if_true, ofNat_next, sectors_succ, List.cons_prefix_cons, true_and, List.cons.injEq]
        refine ⟨hpre, fun k hk => ?_⟩
        rw [show first + (depth + 1) = first + 1 + depth by omega]
        exact hok k hk
      · simp [hrc]

/-- Whatever the calls return, the commands are the first ones of a run that the
device drains. -/
theorem submitLoop_starts {ioDepth : Int} {n : UInt64} {dev : Device} : ∀ (m i first : Nat),
    (submitLoop ioDepth n dev m i (UInt64.ofNat (first * n.toNat))).batches.flatten <+:
      sectors n (m * ioDepth.toNat) first
  | 0, _, _ => List.nil_prefix
  | m + 1, i, first => by
    obtain ⟨hpre, hok⟩ := @sendBatch_starts n (dev.sends i) ioDepth.toNat 0 first
    have hlen : (m + 1) * ioDepth.toNat = ioDepth.toNat + m * ioDepth.toNat := by
      rw [Nat.add_mul, Nat.one_mul, Nat.add_comm]
    unfold submitLoop
    rw [hlen, sectors_add]
    dsimp only
    cases hk : (sendBatch n (dev.sends i) ioDepth.toNat 0 (UInt64.ofNat (first * n.toNat))).2 with
    | error e =>
      simp only [List.flatten_cons, List.flatten_nil, List.append_nil]
      exact hpre.trans (List.prefix_append _ _)
    | ok k =>
      obtain ⟨hall, rfl⟩ := hok k hk
      simp only [hall]
      split
      · rw [List.flatten_cons]
        exact (List.prefix_append_right_inj _).mpr (submitLoop_starts m (i + 1) (first + ioDepth.toNat))
      · simp

theorem doSeqwrite_starts {ioDepth : Int} {bs total : UInt64} (h0 : 1 ≤ ioDepth) (h1 : ioDepth ≤ 128)
    (dev : Device) :
    (doSeqwrite ioDepth bs total dev).batches.flatten <+:
      sectors (bs / 512) (total.toNat / bs.toNat / ioDepth.toNat * ioDepth.toNat) 0 := by
  unfold doSeqwrite
  by_cases hmod : bs % 512 ≠ 0
  · rw [if_pos hmod]
    exact List.nil_prefix
  · rw [if_neg hmod]
    by_cases hzero : bs = 0 ∨ UInt64.ofInt ioDepth = 0
    · rw [if_pos hzero]
      exact List.nil_prefix
    · have hcount : (total / bs / UInt64.ofInt ioDepth).toNat = total.toNat / bs.toNat / ioDepth.toNat := by
        rw [UInt64.toNat_div, UInt64.toNat_div, IoLibaio.toNat_queueSize h0 h1]
      have hstarts := @submitLoop_starts ioDepth (bs / 512) dev (total.toNat / bs.toNat / ioDepth.toNat) 0 0
      rw [Nat.zero_mul] at hstarts
      rw [if_neg hzero, hcount]
      exact hstarts

/-- The commands of one thread do not overlap, also where the count of their
sectors is truncated. -/
theorem sectors_apart {n : UInt64} {d : Nat} (hfit : d * n.toNat < 2 ^ 64) :
    ((sectors n d 0).map nvmeWrite).Pairwise Write.Apart := by
  unfold sectors
  rw [List.map_map, List.pairwise_map]
  have hlba : ∀ t < d, (UInt64.ofNat ((0 + t) * n.toNat)).toNat = t * n.toNat := by
    intro t ht
    have hle := Nat.mul_le_mul_right n.toNat (Nat.le_of_lt ht)
    rw [Nat.zero_add, UInt64.toNat_ofNat_of_lt' (Nat.lt_of_le_of_lt hle hfit)]
  have hlen : n.toUInt32.toNat ≤ n.toNat := by
    rw [UInt64.toNat_toUInt32]
    exact Nat.mod_le _ _
  refine List.Pairwise.imp_of_mem (fun {a b} ha hb hab => ?_) (List.pairwise_lt_range (n := d))
  apply apart_of_disjoint
  have hab := Nat.mul_le_mul_right n.toNat (show a + 1 ≤ b from hab)
  rw [Nat.add_mul, Nat.one_mul] at hab
  left
  simp only [Function.comp, nvmeWrite, hlba a (List.mem_range.mp ha), hlba b (List.mem_range.mp hb)]
  omega

end IoSpdk

section
variable {path : Text} {depth : Int} {bs total : UInt64} {fd : Nat → Int} {ans : Nat → Answers} (h0 : 1 ≤ depth)
  (h1 : depth ≤ 128)
include h0 h1

theorem spdk_starts (i : Nat) : (AsyncProgram.spdk.batches path depth bs total fd ans i).flatten <+:
    (IoSpdk.sectors (bs / 512) (total.toNat / bs.toNat / depth.toNat * depth.toNat) 0).map nvmeWrite := by
  unfold AsyncProgram.batches
  rw [← List.map_flatten]
  exact (IoSpdk.doSeqwrite_starts h0 h1 (ans i).device).map nvmeWrite

theorem spdk_apart (i : Nat) :
    (AsyncProgram.spdk.batches path depth bs total fd ans i).flatten.Pairwise Write.Apart := by
  refine List.Pairwise.sublist (spdk_starts h0 h1 i).sublist (IoSpdk.sectors_apart ?_)
  have hsector : (bs / 512).toNat ≤ bs.toNat := by
    rw [UInt64.toNat_div]
    exact Nat.div_le_self _ _
  calc total.toNat / bs.toNat / depth.toNat * depth.toNat * (bs / 512).toNat
      ≤ total.toNat / bs.toNat * bs.toNat := Nat.mul_le_mul (Nat.div_mul_le_self _ _) hsector
    _ ≤ total.toNat := Nat.div_mul_le_self _ _
    _ < 2 ^ 64 := total.toNat_lt

/-- A thread that submits anything writes the first sector. -/
theorem spdk_first (hb : 0 < bs) (h512 : 512 ∣ bs.toNat) (hdev : ∀ i, (ans i).device.Drains depth)
    (hbatch : depth.toNat ≤ total.toNat / bs.toNat) (i : Nat) :
    ⟨.device, 0, (bs / 512).toUInt32.toNat⟩ ∈ (AsyncProgram.spdk.batches path depth bs total fd ans i).flatten := by
  have hpos : 0 < total.toNat / bs.toNat / depth.toNat := Nat.div_pos hbatch (by omega)
  unfold AsyncProgram.batches IoSpdk.select
  rw [← List.map_flatten, IoSpdk.doSeqwrite_batches (hdev i) h0 (by omega) hb h512]
  refine List.mem_map.mpr ⟨⟨0, (bs / 512).toUInt32⟩, ?_, rfl⟩
  refine List.mem_flatten.mpr ⟨IoSpdk.sectors (bs / 512) depth.toNat 0, ?_, ?_⟩
  · exact List.mem_map.mpr ⟨0, List.mem_range.mpr hpos, by rw [Nat.zero_mul]⟩
  · refine List.mem_map.mpr ⟨0, List.mem_range.mpr (by omega), ?_⟩
    simp

end

/-! ## All threads -/

/-- In a run of all threads, no location is written twice by one thread, and
none by two. -/
theorem once_of_apart {p : AsyncProgram} {path : Text} {numThread depth : Int} {bs total : UInt64}
    (hown : ∀ fd ans i, (p.batches path depth bs total fd ans i).flatten.Pairwise Write.Apart)
    (hother : ∀ fd ans i j, i < j → j < min numThread.toNat 32 →
      ∀ v ∈ (p.batches path depth bs total fd ans i).flatten,
      ∀ w ∈ (p.batches path depth bs total fd ans j).flatten, v.Apart w)
    {log : List (List Write)} (hrun : p.Runs path numThread depth bs total log) : WrittenOnce log.flatten := by
  obtain ⟨fd, ans, hrun⟩ := hrun
  refine writtenOnce_iff.mpr (hrun.pairwise Write.Apart.symm ?_)
  rw [List.map_map, List.pairwise_flatten]
  constructor
  · intro l hl
    obtain ⟨i, _, rfl⟩ := List.mem_map.mp hl
    exact hown fd ans i
  · rw [List.pairwise_map]
    refine List.Pairwise.imp_of_mem (fun {i j} _ hj hij => ?_) List.pairwise_lt_range
    exact hother fd ans i j hij (List.mem_range.mp hj)

section
variable (path : Text) {numThread depth : Int} {bs total : UInt64} (h0 : 1 ≤ depth) (h1 : depth ≤ 128)
include h0 h1

theorem libaio_once {log : List (List Write)}
    (hrun : AsyncProgram.libaio.Runs path numThread depth bs total log) : WrittenOnce log.flatten := by
  refine once_of_apart (fun fd ans i => libaio_apart h0 h1 path bs total fd ans i) ?_ hrun
  intro fd ans i j hij _ v hv w hw
  apply apart_of_storage
  rw [libaio_storage hv, libaio_storage hw]
  intro he
  exact Nat.ne_of_lt hij (fileName_inj (Storage.file.inj he))

theorem spdk_once (hsep : AsyncProgram.spdk.Separate numThread depth bs total) {log : List (List Write)}
    (hrun : AsyncProgram.spdk.Runs path numThread depth bs total log) : WrittenOnce log.flatten := by
  refine once_of_apart (fun fd ans i => spdk_apart h0 h1 i) ?_ hrun
  intro fd ans i j hij hj v hv w _
  have hv := (spdk_starts h0 h1 i).subset hv
  rcases hsep with hone | hnone | hempty
  · omega
  · rw [Nat.div_eq_of_lt hnone, Nat.zero_mul] at hv
    cases hv
  · obtain ⟨c, hc, rfl⟩ := List.mem_map.mp hv
    obtain ⟨t, _, rfl⟩ := List.mem_map.mp hc
    rintro s x ⟨⟨_, hlow, hhigh⟩, _⟩
    simp only [nvmeWrite, hempty] at hlow hhigh
    exact absurd (Nat.lt_of_le_of_lt hlow hhigh) (Nat.lt_irrefl _)

/-- Two threads that submit anything write the first sector twice. -/
theorem spdk_twice (hb : 0 < bs) (h512 : 512 ∣ bs.toNat) (htwo : 1 < numThread)
    (hbatch : depth.toNat ≤ total.toNat / bs.toNat) (hcount : (bs / 512).toUInt32 ≠ 0) :
    ∃ log, AsyncProgram.spdk.Runs path numThread depth bs total log ∧ ¬ WrittenOnce log.flatten := by
  let ans : Nat → Answers := fun _ => ⟨none, fun _ => ⟨0, 0⟩, fun _ _ => some 0, fun _ => [depth]⟩
  have hdev : ∀ i, (ans i).device.Drains depth := fun _ => ⟨fun _ _ => rfl, fun _ => ⟨by simp [ans]; omega, by simp [ans]⟩⟩
  refine ⟨_, ⟨fun _ => 0, ans, interleaves_flatten _⟩, fun honce => ?_⟩
  rw [writtenOnce_iff, List.flatten_flatten, List.map_map, List.pairwise_flatten, List.pairwise_map] at honce
  have hlen : ∀ k < 2, k < (List.range (min numThread.toNat 32)).length := by
    intro k hk
    rw [List.length_range]
    omega
  have hapart := List.pairwise_iff_getElem.mp honce.2 0 1 (hlen 0 (by decide)) (hlen 1 (by decide)) (by decide)
  have hfirst := @spdk_first path depth bs total (fun _ => 0) ans h0 h1 hb h512 hdev hbatch
  have hpos : 0 < (bs / 512).toUInt32.toNat := Nat.pos_of_ne_zero fun hz => hcount (UInt32.toNat_inj.mp hz)
  have hhit : (⟨.device, 0, (bs / 512).toUInt32.toNat⟩ : Write).Hits .device 0 := ⟨rfl, Nat.le_refl _, by simpa⟩
  exact hapart _ (hfirst _) _ (hfirst _) .device 0 ⟨hhit, hhit⟩

end

/-- **Storage is written once** in every run of the libaio program, and in the
runs of the SPDK program in which at most one thread writes. -/
theorem written_once_iff (p : AsyncProgram) (path : Text) (numThread depth : Int) (bs total : UInt64)
    (h0 : 1 ≤ depth) (h1 : depth ≤ 128) (hb : 0 < bs) (h512 : 512 ∣ bs.toNat) :
    (∀ log, p.Runs path numThread depth bs total log → WrittenOnce log.flatten) ↔
      p.Separate numThread depth bs total := by
  cases p with
  | libaio => exact iff_of_true (fun log hrun => libaio_once path h0 h1 hrun) trivial
  | spdk =>
    refine ⟨fun h => ?_, fun hsep log hrun => spdk_once path h0 h1 hsep hrun⟩
    by_cases hone : numThread ≤ 1
    · exact .inl hone
    by_cases hnone : total.toNat / bs.toNat < depth.toNat
    · exact .inr (.inl hnone)
    refine .inr (.inr (Classical.byContradiction fun hcount => ?_))
    obtain ⟨log, hrun, htwice⟩ := @spdk_twice path numThread depth bs total h0 h1 hb h512 (Int.not_le.mp hone)
      (Nat.not_lt.mp hnone) hcount
    exact htwice (h log hrun)

theorem written_once_iff_one_thread :
    AsyncProgram.spdk.Separate 1 8 4096 1048576 ∧
      ∀ log, AsyncProgram.spdk.Runs [] 1 8 4096 1048576 log → WrittenOnce log.flatten :=
  have hsep : AsyncProgram.spdk.Separate 1 8 4096 1048576 := .inl (by decide)
  ⟨hsep, (written_once_iff .spdk [] 1 8 4096 1048576 (by decide) (by decide) (by decide) (by decide)).mpr hsep⟩

/-- Two threads that write `1 MiB` each, in blocks of `4 KiB`. -/
theorem written_twice :
    ∃ log, AsyncProgram.spdk.Runs [] 2 8 4096 1048576 log ∧ ¬ WrittenOnce log.flatten :=
  spdk_twice [] (by decide) (by decide) (by decide) (by decide) (by decide) (by decide) (by decide)

end IoTester

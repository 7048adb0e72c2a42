import IoTester.Memory
import Mathlib.Logic.Function.Iterate

/-!
# `io_tester/posix.cc`: synchronous workers

A worker issues `total_size / block_size` requests from one buffer, unless
`posix_memalign` gives it none. The "random" workers move by the block size; the
"sequential" ones move by `16 KiB + block_size` and go back to the start past the
end.
-/

namespace IoTester.IoPosix

structure Run where
  issued : List Request
  exit : Exit
  deriving Repr, DecidableEq

def passes (op : IoOp) (fd : Int) (blockSize : UInt64) (move : UInt64 → UInt64) : Nat → UInt64 → List Request
  | 0, _ => []
  | n + 1, pos => ⟨op, fd, blockSize, pos⟩ :: passes op fd blockSize move n (move pos)

/-- `count` requests from position `0`, with `count = total_size / block_size`. -/
def counted (memory : Memory) (op : IoOp) (fd : Int) (blockSize totalSize : UInt64) (move : UInt64 → UInt64) : Run :=
  if blockSize = 0 then ⟨[], .fault⟩
  else if posixMemalign memory blockSize blockSize then
    let count := totalSize / blockSize
    ⟨passes op fd blockSize move (intPasses count) 0, intExit count⟩
  else ⟨[], .crashed⟩

def wrapAt (skip totalSize pos : UInt64) : UInt64 :=
  let pos := pos + skip
  if pos > totalSize then 0 else pos

def skipOf (blockSize : UInt64) : UInt64 := 16 * 1024 + blockSize

def doRandwrite (memory : Memory) (fd : Int) (blockSize totalSize : UInt64) : Run :=
  counted memory .pwrite fd blockSize totalSize (· + blockSize)

def doSeqwrite (memory : Memory) (fd : Int) (blockSize totalSize : UInt64) : Run :=
  counted memory .pwrite fd blockSize totalSize (wrapAt (skipOf blockSize) totalSize)

def doRandread (memory : Memory) (fd : Int) (blockSize totalSize : UInt64) : Run :=
  counted memory .pread fd blockSize totalSize (· + blockSize)

def doSeqread (memory : Memory) (fd : Int) (blockSize totalSize : UInt64) : Run :=
  counted memory .pread fd blockSize totalSize (wrapAt (skipOf blockSize) totalSize)

def select (memory : Memory) (w : Workload) (fd : Int) (blockSize totalSize : UInt64) : Run :=
  match w with
  | .DO_RW => doRandwrite memory fd blockSize totalSize
  | .DO_SW => doSeqwrite memory fd blockSize totalSize
  | .DO_RR => doRandread memory fd blockSize totalSize
  | .DO_SR => doSeqread memory fd blockSize totalSize

/-- What the `switch` of `run_benchmark` calls. -/
def dispatch (memory : Memory) (type fd : Int) (blockSize totalSize : UInt64) : Run :=
  match Workload.ofType type with
  | some w => select memory w fd blockSize totalSize
  | none => ⟨[], .returned⟩

/-- The report divides by `block_size`. -/
def runBenchmark (memory : Memory) (type fd : Int) (blockSize totalSize : UInt64) :
    Option (Measured (List Request)) :=
  let run := dispatch memory type fd blockSize totalSize
  if run.exit = .returned ∧ blockSize ≠ 0 then some ⟨run.issued, totalSize / blockSize⟩ else none

theorem toNat_skipOf {bs : UInt64} (h : 16384 + bs.toNat < 2 ^ 64) : (skipOf bs).toNat = 16384 + bs.toNat := by
  rw [skipOf, UInt64.toNat_add]
  exact Nat.mod_eq_of_lt h

/-! ## The requests of a run of passes -/

theorem length_passes (op : IoOp) (fd : Int) (bs : UInt64) (move : UInt64 → UInt64) :
    ∀ n pos, (passes op fd bs move n pos).length = n
  | 0, _ => rfl
  | n + 1, pos => by simp [passes, length_passes op fd bs move n]

theorem passes_getElem? (op : IoOp) (fd : Int) (bs : UInt64) (move : UInt64 → UInt64) :
    ∀ n pos k, k < n → (passes op fd bs move n pos)[k]? = some ⟨op, fd, bs, move^[k] pos⟩
  | n + 1, pos, 0, _ => rfl
  | n + 1, pos, k + 1, h => by
    rw [passes, List.getElem?_cons_succ, passes_getElem? op fd bs move n (move pos) k (by omega)]
    rfl

theorem eq_of_passes_getElem? {op : IoOp} {fd : Int} {bs : UInt64} {move : UInt64 → UInt64} {n k : Nat} {pos : UInt64}
    {r : Request} (h : (passes op fd bs move n pos)[k]? = some r) : k < n ∧ r = ⟨op, fd, bs, move^[k] pos⟩ := by
  have hlt : k < n := by
    rw [← length_passes op fd bs move n pos]; exact (List.getElem?_eq_some_iff.mp h).1
  rw [passes_getElem? op fd bs move n pos k hlt] at h
  exact ⟨hlt, (Option.some.inj h).symm⟩

theorem mem_passes {op : IoOp} {fd : Int} {bs : UInt64} {move : UInt64 → UInt64} {n : Nat} {pos : UInt64}
    {r : Request} (h : r ∈ passes op fd bs move n pos) : ∃ k < n, r = ⟨op, fd, bs, move^[k] pos⟩ := by
  obtain ⟨k, hk⟩ := List.mem_iff_getElem?.mp h
  exact ⟨k, eq_of_passes_getElem? hk⟩

end IoTester.IoPosix

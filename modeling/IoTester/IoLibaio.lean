import IoTester.Memory
import IoTester.Lib.Bytes

/-!
# `io_tester/libaio.cc`: batched workers

A worker fills `io_depth` control blocks, submits them, waits for all their
events, and repeats this `total_size / (block_size * io_depth)` times, every
product taken in 64 bits. The buffer has one block for each control block; an
`aio_buf` is modelled by its index in that buffer. What the kernel answers is a
parameter: `io_submit` takes control blocks up to some number, and the `assert`
after it ends the program when it has not taken all of them.
-/

namespace IoTester.IoLibaio

open Lib

inductive Opcode where
  | IOCB_CMD_PREAD
  | IOCB_CMD_PWRITE
  deriving Repr, DecidableEq

/-- The members that a worker sets. The others hold what was on the stack: the
kernel looks at them, too, and its answer may depend on them. A control block
that it takes is executed as these five say. -/
structure Iocb where
  fildes : Int
  nbytes : UInt64
  offset : UInt64
  opcode : Opcode
  buf : UInt64
  deriving Repr, DecidableEq

def slots : Nat := 128

/-- What the kernel answers to the calls for one batch: the control blocks that
`io_submit` takes, and the events that `io_getevents` gets. A call that fails
takes or gets none. -/
structure Reply where
  submit : Nat
  getevents : Nat
  deriving Repr, DecidableEq

/-- The replies to the batches of a worker, from the first one on. -/
abbrev Kernel := Nat → Reply

/-- The kernel takes all of each batch of `q` control blocks, and no signal comes
while a worker waits for its events. -/
def Kernel.Willing (kernel : Kernel) (q : Nat) : Prop := ∀ i, q ≤ (kernel i).submit ∧ (kernel i).getevents = q

structure Run where
  batches : List (List Iocb)
  exit : Exit
  deriving Repr, DecidableEq

def fillBatch (opcode : Opcode) (fd : Int) (blockSize : UInt64) : Nat → Nat → UInt64 → List Iocb × UInt64
  | 0, _, currentCount => ([], currentCount)
  | n + 1, j, currentCount =>
    let rest := fillBatch opcode fd blockSize n (j + 1) (currentCount + 1)
    (⟨fd, blockSize, blockSize * currentCount, opcode, UInt64.ofNat j * blockSize⟩ :: rest.1, rest.2)

/-- `n` passes of the outer loop; `done` is how it ends after the last one. -/
def submitLoop (done : Exit) (opcode : Opcode) (fd : Int) (blockSize queueSize : UInt64) : Kernel → Nat → UInt64 → Run
  | _, 0, _ => ⟨[], done⟩
  | kernel, n + 1, currentCount =>
    if slots < queueSize.toNat then ⟨[], .fault⟩
    else
      let batch := fillBatch opcode fd blockSize queueSize.toNat 0 currentCount
      let taken := batch.1.take (kernel 0).submit
      if taken.length = queueSize.toNat ∧ (kernel 0).getevents = queueSize.toNat then
        let rest := submitLoop done opcode fd blockSize queueSize (fun i => kernel (i + 1)) n batch.2
        ⟨taken :: rest.batches, rest.exit⟩
      else ⟨[taken], .aborted⟩

-- a `memset` of no bytes does not touch the buffer; the division after it faults
def sequential (memory : Memory) (kernel : Kernel) (opcode : Opcode) (ioDepth fd : Int)
    (blockSize totalSize : UInt64) : Run :=
  let queueSize := UInt64.ofInt ioDepth
  let bytes := blockSize * queueSize
  if bytes = 0 then ⟨[], .fault⟩
  else if posixMemalign memory blockSize bytes then
    let count := totalSize / bytes
    submitLoop (intExit count) opcode fd blockSize queueSize kernel (intPasses count) 0
  else ⟨[], .crashed⟩

section
variable (memory : Memory) (kernel : Kernel)

def doSeqwrite (ioDepth fd : Int) (blockSize totalSize : UInt64) : Run :=
  sequential memory kernel .IOCB_CMD_PWRITE ioDepth fd blockSize totalSize

/-- The opcode is the one of the source. -/
def doSeqread (ioDepth fd : Int) (blockSize totalSize : UInt64) : Run :=
  sequential memory kernel .IOCB_CMD_PWRITE ioDepth fd blockSize totalSize

def doRandwrite (_fd : Int) (_blockSize _totalSize : UInt64) : Run := ⟨[], .returned⟩

def doRandread (_fd : Int) (_blockSize _totalSize : UInt64) : Run := ⟨[], .returned⟩

def select (w : Workload) (ioDepth fd : Int) (blockSize totalSize : UInt64) : Run :=
  match w with
  | .DO_RW => doRandwrite fd blockSize totalSize
  | .DO_SW => doSeqwrite memory kernel ioDepth fd blockSize totalSize
  | .DO_RR => doRandread fd blockSize totalSize
  | .DO_SR => doSeqread memory kernel ioDepth fd blockSize totalSize

/-- What the `switch` of `run_benchmark` calls. -/
def dispatch (type ioDepth fd : Int) (blockSize totalSize : UInt64) : Run :=
  match Workload.ofType type with
  | some w => select memory kernel w ioDepth fd blockSize totalSize
  | none => ⟨[], .returned⟩

/-- The report divides by `block_size`. -/
def runBenchmark (type ioDepth fd : Int) (blockSize totalSize : UInt64) : Option (Measured (List (List Iocb))) :=
  let run := dispatch memory kernel type ioDepth fd blockSize totalSize
  if run.exit = .returned ∧ blockSize ≠ 0 then some ⟨run.batches, totalSize / blockSize⟩ else none

end

/-! ## The effect of control blocks -/

structure Store where
  file : List UInt8
  buff : List UInt8
  deriving Repr, DecidableEq

def Iocb.exec (s : Store) (c : Iocb) : Store :=
  match c.opcode with
  | .IOCB_CMD_PREAD => { s with buff := writeAt 0 s.buff c.buf.toNat (readAt s.file c.offset.toNat c.nbytes.toNat) }
  | .IOCB_CMD_PWRITE => { s with file := writeAt 0 s.file c.offset.toNat (readAt s.buff c.buf.toNat c.nbytes.toNat) }

/-- The kernel executes what it has taken of a batch in any order, and all of it
before `io_getevents` returns. -/
def Executes : List (List Iocb) → Store → Store → Prop
  | [], s, s' => s' = s
  | batch :: rest, s, s' => ∃ order : List Iocb, order.Perm batch ∧ Executes rest (order.foldl Iocb.exec s) s'

def initial (ioDepth : Int) (blockSize : UInt64) (file : List UInt8) : Store :=
  ⟨file, List.replicate (blockSize * UInt64.ofInt ioDepth).toNat 0xff⟩

end IoTester.IoLibaio

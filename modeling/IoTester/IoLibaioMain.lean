import IoTester.CommandLine
import IoTester.IoLibaio

/-!
# `io_tester/libaio.cc`: `main` and its threads

`main` reads six arguments, creates the test files, fills one slot of `options`
for each thread and starts `run_benchmark` on it. `openFile` gives the
descriptor that `open` returns; the allocator and the kernel answer each thread
on its own.
-/

namespace IoTester.IoLibaio

structure ThreadOptions where
  type : Int32
  threadId : Nat
  blockSize : UInt64
  totalSize : UInt64
  path : Text
  deriving Repr, DecidableEq

/-- The variables that `main` sets from its arguments. -/
structure Args where
  type : Int32
  path : Text
  numThread : Int32
  ioDepth : Int32
  blockSize : UInt64
  totalSize : UInt64
  deriving Repr, DecidableEq

def parse (argv : List Text) : Except Fault Args := do
  let type ← argInt argv 1
  let numThread ← argInt argv 3
  let ioDepth ← argInt argv 4
  let blockSize ← argSize argv 5
  let megabytes ← argSize argv 6
  let path ← argAt argv 2
  .ok { type, path, numThread, ioDepth, blockSize, totalSize := megabytes * 1048576 }

def threadOptions (a : Args) (i : Nat) : Except Fault ThreadOptions :=
  if 32 ≤ i then .error .index
  else do
    let path ← store 128 a.path
    .ok ⟨a.type, i, a.blockSize, a.totalSize, path⟩

section
variable (memory : Nat → Memory) (kernel : Nat → Kernel) (openFile : Text → Int)

/-- A thread up to its report, which divides by `block_size`. What ends the process
without an index or a divisor is no fault. -/
def benchmark (ioDepth : Int32) (o : ThreadOptions) : Except Fault Run := do
  let file ← store 32 (fileName o.path o.threadId)
  let run := dispatch (memory o.threadId) (kernel o.threadId) o.type.toInt ioDepth.toInt (openFile file) o.blockSize
    o.totalSize
  match run.exit with
  | .fault => .error (if o.blockSize * UInt64.ofInt ioDepth.toInt = 0 then .divisor else .index)
  | .returned => if o.blockSize = 0 then .error .divisor else .ok run
  | .aborted | .crashed | .overflow => .ok run

def main (argv : List Text) : Except Fault (List Run) :=
  if argv.length < 7 then .ok []
  else do
    let a ← parse argv
    let _ ← (List.range a.numThread.toInt.toNat).mapM fun i => store 32 (fileName a.path i)
    let options ← (List.range a.numThread.toInt.toNat).mapM (threadOptions a)
    options.mapM (benchmark memory kernel openFile a.ioDepth)

end

end IoTester.IoLibaio

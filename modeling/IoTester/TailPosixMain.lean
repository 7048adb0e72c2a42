import IoTester.CommandLine
import IoTester.TailPosix

/-!
# `tail_latency/posix.cc`: `main` and its threads

`main` reads nine arguments, creates the test files, fills one slot of
`options` for each thread and starts `run_benchmark` on it. A thread reads its
own slot only, so what it does is a function of the slot. `openFile` gives the
descriptor that `open` returns.
-/

namespace IoTester.TailPosix

def OPT_RANDOM : Int32 := 1

def OPT_READ : Int32 := 0

def OPT_WRITE : Int32 := 2

structure ThreadOptions where
  type : Int32
  threadId : Nat
  path : Text
  time : UInt64
  fileSize : UInt64
  blockSize : UInt64
  deriving Repr, DecidableEq

/-- The variables that `main` sets from its arguments. -/
structure Args where
  path : Text
  fileSize : UInt64
  time : UInt64
  writeType : Int32
  numWriteThread : Int32
  writeBlockSize : UInt64
  readType : Int32
  numReadThread : Int32
  readBlockSize : UInt64
  deriving Repr, DecidableEq

def parse (argv : List Text) : Except Fault Args := do
  let path ← argAt argv 1
  let gigabytes ← argSize argv 2
  let time ← argSize argv 3
  let writeType ← argInt argv 4
  let numWriteThread ← argInt argv 5
  let writeBlockSize ← argSize argv 6
  let readType ← argInt argv 7
  let numReadThread ← argInt argv 8
  let readBlockSize ← argSize argv 9
  .ok { path, fileSize := gigabytes * 1073741824, time, writeType, numWriteThread, writeBlockSize, readType,
        numReadThread, readBlockSize }

-- every thread gets the block size of the writers
def threadOptions (a : Args) (i : Nat) : Except Fault ThreadOptions :=
  if 32 ≤ i then .error .index
  else do
    let path ← store 128 a.path
    .ok { type := if (i : Int) < a.numWriteThread.toInt then OPT_WRITE ||| a.writeType else OPT_READ ||| a.readType
          threadId := i
          path
          time := a.time * 1000000000
          fileSize := a.fileSize
          blockSize := a.writeBlockSize }

def Task.ofType (type : Int32) : Option Task :=
  if type = OPT_WRITE ||| OPT_RANDOM then some .randwrite
  else if type = OPT_WRITE then some .seqwrite
  else if type = OPT_READ ||| OPT_RANDOM then some .randread
  else if type = OPT_READ then some .seqread
  else none

/-- A thread at the `switch` of `run_benchmark`: the file it has opened, the
options of its worker, and the worker that it calls, if any. -/
structure Thread where
  file : Text
  options : WorkerOptions
  task : Option Task
  deriving Repr, DecidableEq

section
variable (openFile : Text → Int)

def runBenchmark (o : ThreadOptions) : Except Fault Thread := do
  let file ← store 32 (fileName o.path o.threadId)
  .ok { file
        options := ⟨openFile file, o.threadId, o.fileSize, o.blockSize, o.time⟩
        task := Task.ofType o.type }

def main (argv : List Text) : Except Fault (List Thread) :=
  if argv.length < 10 then .ok []
  else do
    let a ← parse argv
    let numThread ← addInt a.numWriteThread a.numReadThread
    let _ ← (List.range numThread.toNat).mapM fun i => store 32 (fileName a.path i)
    let options ← (List.range numThread.toNat).mapM (threadOptions a)
    options.mapM (runBenchmark openFile)

end

end IoTester.TailPosix

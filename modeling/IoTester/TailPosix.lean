import IoTester.Memory
import IoTester.Timer

/-!
# `tail_latency/posix.cc`: the four workers

Each worker issues one request a pass, pushes its latency, stops once the run
time is over, and otherwise moves its position by a stride. The workers differ
in the call, the stride and the tag of the file they save. The writers fill their
buffer before the loop and crash without one; the readers do not look at theirs.
A run is given by the clock readings it takes: one before the loop and three a
pass. A run whose readings end before the time is over is a prefix of a longer
one.
-/

namespace IoTester.TailPosix

def RANDOM_SKIP : UInt64 := 16384

structure WorkerOptions where
  fd : Int
  threadId : Int
  fileSize : UInt64
  blockSize : UInt64
  runTime : UInt64
  deriving Repr, DecidableEq

/-- The readings of one pass: `_latency.Start`, `_latency.Stop`, `_timer.Stop`. -/
structure Tick where
  issue : Timespec
  done : Timespec
  total : Timespec
  deriving Repr, DecidableEq, Inhabited

structure Clock where
  start : Timespec
  ticks : List Tick
  deriving Repr, DecidableEq

structure Loop where
  pos : UInt64 := 0
  timer : Timer := {}
  latency : Timer := {}
  vecLatency : List UInt64 := []
  issued : List Request := []
  broke : Bool := false
  deriving Repr, DecidableEq

def Loop.issue (s : Loop) (op : IoOp) (o : WorkerOptions) (t : Tick) : Loop :=
  let latency := (s.latency.Start t.issue).Stop t.done
  { s with
    latency := latency
    timer := s.timer.Stop t.total
    vecLatency := s.vecLatency ++ [latency.Get]
    issued := s.issued ++ [⟨op, o.fd, o.blockSize, s.pos⟩] }

def advance (skip fs pos : UInt64) : UInt64 :=
  let pos := pos + skip
  if pos > fs then 0 else pos

def loop (op : IoOp) (skip : UInt64) (o : WorkerOptions) : List Tick → Loop → Loop
  | [], s => s
  | t :: ts, s =>
    let s := s.issue op o t
    if s.timer.Get > o.runTime then { s with broke := true }
    else loop op skip o ts { s with pos := advance skip o.fileSize s.pos }

def resultOutput (data : List UInt64) : Text := decLines data

/-- What a worker saves and prints after its loop. The percentile indices are
taken in exact arithmetic. -/
structure Report where
  saveFilePath : Text
  saved : Text
  size : Nat
  p99Size : Nat
  p999Size : Nat
  p99 : Option UInt64
  p999 : Option UInt64
  deriving Repr, DecidableEq

def report (savePath : Text) (tag : Text) (o : WorkerOptions) (vecLatency : List UInt64) : Report :=
  let sorted := vecLatency.mergeSort (· ≤ ·)
  let size := sorted.length
  let p99Size := 99 * size / 100
  let p999Size := 999 * size / 1000
  { saveFilePath := savePath ++ '/' :: decI o.threadId ++ tag ++ decN o.blockSize.toNat ++ ['.', 'l', 'a', 't']
    saved := resultOutput vecLatency
    size, p99Size, p999Size
    p99 := sorted[p99Size]?.map (· / 1000)
    p999 := sorted[p999Size]?.map (· / 1000) }

structure Outcome where
  loop : Loop
  report : Option Report
  crashed : Bool := false
  deriving Repr, DecidableEq

/-- Only the writers call `memset`. -/
def fills : IoOp → Bool
  | .pwrite => true
  | .pread => false

def crashes (op : IoOp) (o : WorkerOptions) (memory : Memory) : Bool :=
  fills op && !posixMemalign memory o.blockSize o.blockSize

def worker (op : IoOp) (skip : UInt64) (tag : Text) (savePath : Text) (o : WorkerOptions) (memory : Memory)
    (clock : Clock) : Outcome :=
  if crashes op o memory then ⟨{}, none, true⟩
  else
    let s := loop op skip o clock.ticks { timer := Timer.Start {} clock.start }
    { loop := s, report := if s.broke then some (report savePath tag o s.vecLatency) else none }

def doRandwrite (savePath : Text) (o : WorkerOptions) : Memory → Clock → Outcome :=
  worker .pwrite RANDOM_SKIP ['_', 'r', 'w', '_'] savePath o

def doSeqwrite (savePath : Text) (o : WorkerOptions) : Memory → Clock → Outcome :=
  worker .pwrite o.blockSize ['_', 's', 'w', '_'] savePath o

def doRandread (savePath : Text) (o : WorkerOptions) : Memory → Clock → Outcome :=
  worker .pread RANDOM_SKIP ['_', 'r', 'r', '_'] savePath o

def doSeqread (savePath : Text) (o : WorkerOptions) : Memory → Clock → Outcome :=
  worker .pread o.blockSize ['_', 's', 'r', '_'] savePath o

inductive Task where
  | randwrite
  | seqwrite
  | randread
  | seqread
  deriving Repr, DecidableEq

def Task.run : Task → Text → WorkerOptions → Memory → Clock → Outcome
  | .randwrite => doRandwrite
  | .seqwrite => doSeqwrite
  | .randread => doRandread
  | .seqread => doSeqread

end IoTester.TailPosix

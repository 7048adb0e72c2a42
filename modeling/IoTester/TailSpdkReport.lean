import IoTester.CommandLine
import IoTester.TailSpdk

/-!
# The SPDK tail latency tester before and after its loop

`main` reads six arguments; its check of their number only prints. After its
loop `do_readwrite` saves each of its two vectors, unless it is empty, then
sorts it and prints the average and two percentiles. The percentile indices are
taken in exact arithmetic, and `atof` is a parameter.
-/

namespace IoTester.TailSpdk

def parse (atof : Text → Rat) (argv : List Text) : Except Fault Args := do
  let time ← argSize argv 1
  let ioDepth ← argInt argv 2
  let size ← argSize argv 3
  let readRatio ← argAt argv 4
  let readBs ← argSize argv 5
  let writeBs ← argSize argv 6
  .ok { time, ioDepth := ioDepth.toInt, size, readRatio := atof readRatio, readBs, writeBs }

/-- The options with which the loop of `do_readwrite` starts; the numbers of
reads and writes are `int` values. -/
def main (atof : Text → Rat) (argv : List Text) : Except Fault WorkerOptions := do
  let a ← parse atof argv
  let _ ← intValue a.options.numRead
  let _ ← intValue a.options.numWrite
  .ok a.options

def resultOutput (data : List UInt64) : Text := decLines data

structure Percentile where
  p : Rat
  value : UInt64
  idx : Nat
  size : Nat
  deriving Repr, DecidableEq

def getAvgLatency (vec : List UInt64) : Except Fault UInt64 :=
  if vec = [] then .error .divisor
  else .ok (vec.foldl (· + ·) 0 / UInt64.ofNat vec.length)

def getTailLatency (vec : List UInt64) (p : Rat) : Except Fault Percentile :=
  let size := vec.length
  let idx := ((size : Rat) * p).floor.toNat
  match vec[idx]? with
  | some v => .ok ⟨p, v, idx, size⟩
  | none => .error .index

structure Report where
  savePath : Text
  saved : Text
  average : UInt64
  p99 : Percentile
  p999 : Percentile
  deriving Repr, DecidableEq

def report (savePath : Text) (latency : List UInt64) : Except Fault (Option Report) :=
  if latency.length > 0 then do
    let sorted := latency.mergeSort (· ≤ ·)
    let average ← getAvgLatency sorted
    let p99 ← getTailLatency sorted (99 / 100)
    let p999 ← getTailLatency sorted (999 / 1000)
    .ok (some ⟨savePath, resultOutput latency, average, p99, p999⟩)
  else .ok none

def State.reports (s : State) (gSavePath : Text) : Except Fault (Option Report × Option Report) := do
  let read ← report (gSavePath ++ ['/', 'r', 'e', 'a', 'd', '.', 'l', 'a', 't']) s.readLatency
  let write ← report (gSavePath ++ ['/', 'w', 'r', 'i', 't', 'e', '.', 'l', 'a', 't']) s.writeLatency
  .ok (read, write)

end IoTester.TailSpdk

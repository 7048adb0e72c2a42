import IoTester.Detail
import IoTester.Lib.Bytes
import IoTester.Lib.Machine
import IoTester.TailPosixMain

/-!
# `tail_latency/posix.cc`: a whole run

`main` names the directory of the results after the local time, fills the test
files one after the other, and then starts the threads, which run side by side:
each works on its own test file and in the end saves its latencies to the
directory, line by line. What the allocator and the calls return and what the
clock shows is in the labels. A writer without a buffer crashes in its `memset`
and takes no step; what a reader without one does to the memory of the process is
not modelled.
-/

namespace IoTester.TailPosix

open Lib

/-! ## The directory of the results -/

structure Tm where
  year : Int32
  mon : Int32
  mday : Int32
  hour : Int32
  min : Int32
  sec : Int32
  deriving Repr, DecidableEq

/-- The conversion `%0wd`. -/
def zeroPadded (w : Nat) : Int → Text
  | .ofNat n => List.replicate (w - (decN n).length) '0' ++ decN n
  | .negSucc n => '-' :: List.replicate (w - 1 - (decN (n + 1)).length) '0' ++ decN (n + 1)

def resultSavePath (lt : Tm) : Text :=
  zeroPadded 4 lt.year.toInt ++ zeroPadded 2 lt.mon.toInt ++ zeroPadded 2 lt.mday.toInt ++
    '_' :: zeroPadded 2 lt.hour.toInt ++ zeroPadded 2 lt.min.toInt ++ zeroPadded 2 lt.sec.toInt

/-! ## The test files -/

abbrev Disk := Text → Option (List UInt8)

/-- What the calls on one test file return: whether `open` and `fallocate`
succeed, and how many bytes each `write` takes. -/
structure Calls where
  opened : Bool
  allocated : Bool
  wrote : Nat → Nat

/-- One `write` of `ff_file`: the file and its offset. -/
def ffWrite (wrote : Nat → Nat) (f : List UInt8 × Nat) (i : Nat) : List UInt8 × Nat :=
  let n := min (wrote i) 16384
  (fill 0 0xff f.1 ⟨f.2, n⟩, f.2 + n)

def ffFile (wrote : Nat → Nat) (sz : UInt64) (f : List UInt8) : List UInt8 :=
  ((List.range (sz / 16384).toNat).foldl (ffWrite wrote) (f, 0)).1

-- the file is not truncated, and no result is checked: after a failed `open` the other calls fail, too
def prepareFile (c : Calls) (size : UInt64) (f : Option (List UInt8)) : Option (List UInt8) :=
  if c.opened then
    let f := f.getD []
    let f := if c.allocated then f ++ List.replicate (size.toNat - f.length) 0 else f
    some (ffFile c.wrote size f)
  else f

def prepare (calls : Nat → Calls) (a : Args) : Nat → Disk → Disk
  | 0, disk => disk
  | n + 1, disk =>
    let disk := prepare calls a n disk
    Function.update disk (fileName a.path n) (prepareFile (calls n) a.fileSize (disk (fileName a.path n)))

/-! ## The threads -/

def Task.op : Task → IoOp
  | .randwrite | .seqwrite => .pwrite
  | .randread | .seqread => .pread

def Task.skip (o : WorkerOptions) : Task → UInt64
  | .randwrite | .randread => RANDOM_SKIP
  | .seqwrite | .seqread => o.blockSize

def Task.tag : Task → Text
  | .randwrite => ['_', 'r', 'w', '_']
  | .seqwrite => ['_', 's', 'w', '_']
  | .randread => ['_', 'r', 'r', '_']
  | .seqread => ['_', 's', 'r', '_']

/-- One pass of the loop of a worker. -/
def Loop.pass (k : Task) (o : WorkerOptions) (s : Loop) (t : Tick) : Loop :=
  let s := s.issue k.op o t
  if s.timer.Get > o.runTime then { s with broke := true } else { s with pos := advance (k.skip o) o.fileSize s.pos }

def latName (k : Task) (o : WorkerOptions) : Text :=
  decI o.threadId ++ k.tag ++ decN o.blockSize.toNat ++ ['.', 'l', 'a', 't']

inductive Pc where
  | created
  | loop
  | save
  | line (i : Nat)
  | report
  | returned
  deriving Repr, DecidableEq

/-- A thread. What the allocator answered, the readings it has taken and whether its
`ofstream` was opened are not variables of the program; they record what
happened. -/
structure Worker where
  pc : Pc := .created
  loop : Loop := {}
  report : Option Report := none
  memory : Memory := none
  clock : Clock := ⟨default, []⟩
  opened : Bool := false

structure State where
  disk : Disk
  saved : Detail.Files
  worker : Nat → Worker := fun _ => {}

inductive Label where
  | enter (t : Nat) (memory : Memory) (now : Timespec)
  | pass (t : Nat) (tick : Tick) (wrote : Nat)
  | create (t : Nat) (opened : Bool)
  | line (t : Nat)
  | close (t : Nat)
  | report (t : Nat)
  deriving Repr, DecidableEq

def Label.thread : Label → Nat
  | .enter t _ _ | .pass t _ _ | .create t _ | .line t | .close t | .report t => t

/-- The allocator answers thread `t` with `memory t`. -/
def Label.From (memory : Nat → Memory) : Label → Prop
  | .enter t m _ => m = memory t
  | _ => True

def State.goto (s : State) (t : Nat) (w : Worker) : State := { s with worker := Function.update s.worker t w }

/-- What a `pwrite` of `0xff` does to its file. -/
def State.wrote (s : State) (th : Thread) (pos : UInt64) (n : Nat) : State :=
  if th.options.fd < 0 then s
  else
    let n := min n th.options.blockSize.toNat
    { s with disk := Function.update s.disk th.file ((s.disk th.file).map fun f => fill 0 0xff f ⟨pos.toNat, n⟩) }

def State.transfer (s : State) (th : Thread) (k : Task) (pos : UInt64) (n : Nat) : State :=
  match k.op with
  | .pwrite => s.wrote th pos n
  | .pread => s

def Worker.passed (w : Worker) (k : Task) (o : WorkerOptions) (tick : Tick) : Worker :=
  let loop := w.loop.pass k o tick
  { w with
    pc := if loop.broke then .save else .loop
    loop
    clock := { w.clock with ticks := w.clock.ticks ++ [tick] } }

section
variable (threads : List Thread) (savePath : Text)

def step (s : State) (l : Label) : Option State :=
  match threads[l.thread]? with
  | none => none
  | some th =>
    let w := s.worker l.thread
    match w.pc, th.task, l with
    | .created, none, .enter t _ _ => some (s.goto t { w with pc := .returned })
    | .created, some k, .enter t memory now =>
      if crashes k.op th.options memory then none
      else some (s.goto t { w with
        pc := .loop
        loop := { timer := Timer.Start {} now }
        memory
        clock := ⟨now, []⟩ })
    | .loop, some k, .pass t tick n => some ((s.transfer th k w.loop.pos n).goto t (w.passed k th.options tick))
    | .save, some k, .create t opened =>
      let name := Detail.path savePath (latName k th.options)
      if 128 ≤ name.length then none
      else if opened then
        some ({ s with saved := Function.update s.saved name (some []) }.goto t { w with pc := .line 0, opened })
      else some (s.goto t { w with pc := .report })
    | .line i, some k, .line t =>
      let name := Detail.path savePath (latName k th.options)
      match w.loop.vecLatency[i]? with
      | none => none
      | some v =>
        -- the counter is an `int`
        if 2 ^ 31 ≤ i + 1 then none
        else
          let text := (s.saved name).map (· ++ decN v.toNat ++ ['\n'])
          some ({ s with saved := Function.update s.saved name text }.goto t { w with pc := .line (i + 1) })
    | .line i, some _, .close t =>
      if i < w.loop.vecLatency.length then none else some (s.goto t { w with pc := .report })
    | .report, some k, .report t =>
      some (s.goto t { w with
        pc := .returned
        report := some (TailPosix.report savePath k.tag th.options w.loop.vecLatency) })
    | _, _, _ => none

end

/-- The threads are started when all test files are there. -/
def start (calls : Nat → Calls) (a : Args) (n : Nat) (disk : Disk) (saved : Detail.Files) : State :=
  { disk := prepare calls a n disk, saved }

end IoTester.TailPosix

import IoTester.Basic
import IoTester.Timer
import IoTester.Lib.Machine
import IoTester.Lib.Spans
import Mathlib.Data.UInt

/-!
# The SPDK tail latency tester

`do_readwrite` as a machine. A round sends its reads and then its writes, each
with a slot of `__cbs` as the argument of its callback; it then calls
`spdk_nvme_qpair_process_completions` until the returned numbers add up to
`io_depth`, and takes one sample from each slot.

What the driver does is in the labels: whether it has a buffer and takes a
command, which commands in flight a call completes, in which order and at which
clock readings, and what the call returns. The header says that this is the
number of commands completed, or an error; the driver counts completions of the
device, of which a command has several when it is too large for one transfer and
was split, and it may give up commands in a call that fails.
The rounds, the commands sent so far and the log of the round are not variables
of the program; they record what it did.
-/

namespace IoTester.TailSpdk

structure WorkerOptions where
  ioDepth : Int
  readRatio : Rat
  size : UInt64
  readBs : UInt64
  writeBs : UInt64
  timeNs : UInt64
  deriving Repr, DecidableEq

structure Args where
  time : UInt64
  ioDepth : Int
  size : UInt64
  readRatio : Rat
  readBs : UInt64
  writeBs : UInt64
  deriving Repr, DecidableEq

def Args.options (a : Args) : WorkerOptions where
  ioDepth := a.ioDepth
  readRatio := a.readRatio
  size := 1024 * 1024 * 1024 * a.size
  readBs := a.readBs
  writeBs := a.writeBs
  timeNs := a.time * 1000000000

namespace WorkerOptions

-- the conversion to `int` drops the fraction, towards zero
def numRead (o : WorkerOptions) : Int :=
  let product := o.readRatio * (o.ioDepth : Rat)
  product.num.tdiv product.den

def numWrite (o : WorkerOptions) : Int := o.ioDepth - o.numRead

def readLba (o : WorkerOptions) : UInt32 := (o.readBs / 512).toUInt32

def writeLba (o : WorkerOptions) : UInt32 := (o.writeBs / 512).toUInt32

def upper (o : WorkerOptions) : UInt32 := (o.size / 512).toUInt32

end WorkerOptions

inductive Kind where
  | read
  | write
  deriving Repr, DecidableEq

/-- A command on the queue pair: `slot` is the index in `__cbs` of the callback
argument, `round` the round that sent it. -/
structure Cmd where
  kind : Kind
  buff : Nat
  lba : UInt32
  lbaCount : UInt32
  slot : Nat
  round : Nat
  deriving Repr, DecidableEq

structure Cb where
  buff : Option Nat := none
  timer : Timer := {}
  deriving Repr, DecidableEq, Inhabited

inductive Event where
  | start (slot : Nat) (now : Timespec)
  | zmalloc (buff : Nat)
  | stop (cmd : Cmd) (now : Timespec)
  | free (buff : Option Nat)
  deriving Repr, DecidableEq

inductive Phase where
  | reads (i : Nat)
  | writes (i : Nat)
  | waiting
  | sampling
  | finished
  | aborted
  | crashed
  | fault
  deriving Repr, DecidableEq

structure State where
  phase : Phase
  c : Nat := 0
  cbs : List Cb := List.replicate 64 {}
  cnt : Int := 0
  readPos : UInt32 := 0
  writePos : UInt32 := 0
  runTimer : Timer := {}
  readLatency : List UInt64 := []
  writeLatency : List UInt64 := []
  inflight : List Cmd := []
  buffs : Nat := 0
  round : Nat := 0
  sent : List Cmd := []
  log : List Event := []
  deriving Repr, DecidableEq

/-- One pass of a sending loop, where `buff` says if `spdk_zmalloc` has a buffer
and the submission returns `rc`; a call that runs the callbacks of these
commands, in this order, and returns `num`, which is negative for an error; the
sampling loop with the test of the run timer. -/
inductive Label where
  | send (now : Timespec) (buff : Bool) (rc : Int)
  | poll (done : List (Cmd × Timespec)) (num : Int)
  | sample (now : Timespec)
  deriving Repr, DecidableEq

/-- Where the loops of a round go on: a loop whose test fails is left at once. -/
def enter (o : WorkerOptions) : Phase → Phase
  | .reads i =>
    if (i : Int) < o.numRead then .reads i
    else if 0 < o.numWrite then .writes 0
    else .waiting
  | .writes i => if (i : Int) < o.numWrite then .writes i else .waiting
  | p => p

def init (o : WorkerOptions) (now : Timespec) : State where
  phase := enter o (.reads 0)
  runTimer := ({} : Timer).Start now

def advance (upper pos lba : UInt32) : UInt32 :=
  let pos := pos + lba
  if pos ≥ upper then 0 else pos

def State.submit (s : State) (kind : Kind) (lba lbaCount : UInt32) (now : Timespec) : State :=
  let cmd : Cmd := ⟨kind, s.buffs, lba, lbaCount, s.c, s.round⟩
  { s with
    cbs := s.cbs.modify s.c fun cb => { cb with buff := some s.buffs, timer := cb.timer.Start now }
    buffs := s.buffs + 1
    c := s.c + 1
    inflight := s.inflight ++ [cmd]
    sent := s.sent ++ [cmd]
    log := s.log ++ [.start s.c now, .zmalloc s.buffs] }

def complete (s : State) (done : Cmd × Timespec) : Option State :=
  if done.1 ∈ s.inflight then
    some { s with
      inflight := s.inflight.erase done.1
      cbs := s.cbs.modify done.1.slot fun cb => { cb with timer := cb.timer.Stop done.2 }
      log := s.log ++ [.stop done.1 done.2, .free (s.cbs[done.1.slot]?.bind Cb.buff)] }
  else none

def completeAll : State → List (Cmd × Timespec) → Option State
  | s, [] => some s
  | s, d :: ds => (complete s d).bind fun t => completeAll t ds

def State.count (o : WorkerOptions) (s : State) (num : Int) : State :=
  { s with
    cnt := s.cnt + num
    phase := if s.cnt + num = o.ioDepth then .sampling else .waiting }

def State.pushSample (o : WorkerOptions) (s : State) (i : Nat) : State :=
  let latency := (s.cbs[i]?.getD {}).timer.Get
  if (i : Int) < o.numRead then { s with readLatency := s.readLatency ++ [latency] }
  else { s with writeLatency := s.writeLatency ++ [latency] }

def State.samples (o : WorkerOptions) (s : State) : State :=
  (List.range o.ioDepth.toNat).foldl (State.pushSample o) s

def State.nextRound (o : WorkerOptions) (s : State) : State :=
  { s with
    phase := enter o (.reads 0)
    c := 0
    cbs := List.replicate 64 {}
    cnt := 0
    round := s.round + 1
    log := [] }

def step (o : WorkerOptions) (s : State) (l : Label) : Option State :=
  match s.phase, l with
  | .reads i, .send now buff rc =>
    if 64 ≤ s.c then some { s with phase := .fault }
    -- the driver finds no memory behind a null pointer, and refuses the command
    else if buff = false ∨ rc ≠ 0 then some { s with phase := .aborted }
    else some { s.submit .read s.readPos o.readLba now with
      readPos := advance o.upper s.readPos o.readLba
      phase := enter o (.reads (i + 1)) }
  | .writes i, .send now buff rc =>
    if 64 ≤ s.c then some { s with phase := .fault }
    -- `memset` writes to the null pointer
    else if buff = false then some { s with phase := .crashed }
    else if rc ≠ 0 then some { s with phase := .aborted }
    else some { s.submit .write s.writePos o.writeLba now with
      writePos := advance o.upper s.writePos o.writeLba
      phase := enter o (.writes (i + 1)) }
  | .waiting, .poll done num => (completeAll s done).map fun t => t.count o num
  | .sampling, .sample now =>
    -- a slot beyond the array is read
    if 64 < o.ioDepth then some { s with phase := .fault }
    else
      let t := { s.samples o with runTimer := s.runTimer.Stop now }
      if t.runTimer.Get > o.timeNs then some { t with phase := .finished }
      else some (t.nextRound o)
  | _, _ => none

def Cmd.span (c : Cmd) : Lib.Span := ⟨c.lba.toNat, c.lbaCount.toNat⟩

def State.sentOf (s : State) (k : Kind) : List Cmd := s.sent.filter fun c => c.kind == k

end IoTester.TailSpdk

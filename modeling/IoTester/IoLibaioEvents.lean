import IoTester.IoLibaioMain

/-!
# `io_tester/libaio.cc`: a worker and the kernel

A worker between its system calls. Its first step carries what the allocator
answers; without a buffer the `memset` crashes. After `io_submit` the control
blocks that it took are in flight; the kernel executes them in an order of its
own, each for as many bytes as it can, and puts an event for each. `io_getevents`
takes events, and an `assert` that fails at either call ends the process. Nothing
looks at the result that an event carries.
-/

namespace IoTester.IoLibaio

open Lib

def opcodeOf : Workload → Option Opcode
  | .DO_RW => none
  | .DO_SW => some .IOCB_CMD_PWRITE
  | .DO_RR => none
  | .DO_SR => some .IOCB_CMD_PWRITE

/-- The call that `run_benchmark` makes; a type of the empty workers, or of
none, has no opcode. -/
structure Job where
  opcode : Option Opcode
  ioDepth : Int
  fd : Int
  blockSize : UInt64
  totalSize : UInt64
  deriving Repr, DecidableEq

def Job.queueSize (j : Job) : UInt64 := UInt64.ofInt j.ioDepth

def Job.bytes (j : Job) : UInt64 := j.blockSize * j.queueSize

def Job.count (j : Job) : Nat := intPasses (j.totalSize / j.bytes)

inductive Pc where
  | start
  | fill
  | wait
  | report
  | ended (exit : Exit)
  deriving Repr, DecidableEq

structure Worker where
  pc : Pc := .start
  passes : Nat := 0
  currentCount : UInt64 := 0
  flying : List Iocb := []
  events : List Iocb := []
  batches : List (List Iocb) := []
  store : Store
  deriving Repr, DecidableEq

/-- `begin memory` enters the worker with this answer of the allocator; `submit` and
`getevents` carry what the calls return. -/
inductive Label where
  | begin (memory : Memory)
  | submit (ret : Nat)
  | execute (c : Iocb) (res : Nat)
  | getevents (ret : Nat)
  | report
  deriving Repr, DecidableEq

/-- The increment and the condition of the outer loop, whose counter is an `int`. -/
def Job.head (j : Job) (passes : Nat) : Pc :=
  if passes < j.count then .fill
  else if intExit (j.totalSize / j.bytes) = .returned then .report
  else .ended (intExit (j.totalSize / j.bytes))

def Iocb.cut (res : Nat) (c : Iocb) : Iocb := { c with nbytes := UInt64.ofNat (min res c.nbytes.toNat) }

def Job.submit (j : Job) (op : Opcode) (ret : Nat) (w : Worker) : Worker :=
  if slots < j.queueSize.toNat then { w with pc := .ended .fault }
  else
    let batch := fillBatch op j.fd j.blockSize j.queueSize.toNat 0 w.currentCount
    let taken := batch.1.take ret
    { w with
      pc := if taken.length = j.queueSize.toNat then .wait else .ended .aborted
      currentCount := batch.2
      flying := taken
      batches := w.batches ++ [taken] }

def Job.step (j : Job) (w : Worker) : Label → Option Worker
  | .begin memory =>
    match w.pc, j.opcode with
    | .start, none => some { w with pc := .report }
    | .start, some _ =>
      if j.bytes = 0 then some { w with pc := .ended .fault }
      else if posixMemalign memory j.blockSize j.bytes then some { w with pc := j.head 0 }
      else some { w with pc := .ended .crashed }
    | _, _ => none
  | .submit ret =>
    match w.pc, j.opcode with
    | .fill, some op => some (j.submit op ret w)
    | _, _ => none
  | .execute c res =>
    if c ∈ w.flying then
      some { w with flying := w.flying.erase c, events := w.events ++ [c], store := (c.cut res).exec w.store }
    else none
  | .getevents ret =>
    match w.pc with
    | .wait =>
      if ret ≤ w.events.length then
        if ret = j.queueSize.toNat then
          some { w with pc := j.head (w.passes + 1), passes := w.passes + 1, events := w.events.drop ret }
        else some { w with pc := .ended .aborted }
      else none
    | _ => none
  | .report =>
    match w.pc with
    | .report => some { w with pc := .ended (if j.blockSize = 0 then .fault else .returned) }
    | _ => none

/-- The allocator answers with `memory`. -/
def Label.From (memory : Memory) : Label → Prop
  | .begin m => m = memory
  | _ => True

/-- The kernel takes what it is given, and no signal comes while a worker waits
for its events. -/
def Label.Willing (q : Nat) : Label → Prop
  | .submit ret => q ≤ ret
  | .getevents ret => ret = q
  | _ => True

/-- The kernel writes every byte of every control block. -/
def Label.Complete : Label → Prop
  | .execute c res => c.nbytes.toNat ≤ res
  | _ => True

/-- The worker has ended otherwise than by its return. -/
def Worker.crashed (w : Worker) : Bool :=
  match w.pc with
  | .ended e => e ≠ .returned
  | _ => false

end IoTester.IoLibaio

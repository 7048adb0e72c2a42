import IoTester.IoSpdk
import IoTester.Lib.Bytes
import IoTester.Lib.Machine
import Mathlib.Logic.Function.Basic

/-!
# `io_tester/spdk.cc`: the threads and the controller

`do_seqwrite` in every thread as one machine. Each thread has a queue pair of
its own; the buffers and the device are shared. The controller takes the
commands of a queue pair in any order, reads the buffer of a command when it
executes it, and posts a completion; a later call of
`spdk_nvme_qpair_process_completions` runs `write_cb`, which frees the buffer.
When a command is executed, which completions a call finds, what it returns and
what fails is in the labels. The driver counts a command that it had to split
once for each of its parts, and a call that fails may still have run callbacks,
for the commands that it gave up.
-/

namespace IoTester.IoSpdk

open Lib

/-- What `main` gives to every thread, and the number of threads. -/
structure Params where
  ioDepth : Int
  blockSize : UInt64
  totalSize : UInt64
  numThread : Nat
  deriving Repr, DecidableEq

def Params.nLba (p : Params) : UInt64 := p.blockSize / 512

def Params.count (p : Params) : Nat := (p.totalSize / p.blockSize / UInt64.ofInt p.ioDepth).toNat

/-- A command with the argument of its callback. -/
structure Queued where
  cmd : Cmd
  buff : Nat
  deriving Repr, DecidableEq

inductive Pc where
  | idle
  | submit
  | poll
  | returned
  deriving Repr, DecidableEq

/-- The variables of a thread and the two queues of its queue pair. The
commands sent and what the polls of each batch returned are not variables of
the program; they record what it did. -/
structure Worker where
  pc : Pc := .idle
  i : Nat := 0
  j : Nat := 0
  c : Int := 0
  k : UInt64 := 0
  sq : List Queued := []
  cq : List Queued := []
  sent : List Cmd := []
  polled : Nat → List Int := fun _ => []

/-- A failed `assert`, a division by zero, a write through a null pointer, an
`int` past its range, an access to memory that is not allocated. -/
inductive Crash where
  | assertion
  | divisor
  | null
  | overflow
  | badAccess
  deriving Repr, DecidableEq

structure State where
  worker : Nat → Worker := fun _ => {}
  heap : Nat → Option (List UInt8) := fun _ => none
  buffs : Nat := 0
  device : List UInt8
  written : List Cmd := []
  crash : Option Crash := none

inductive Label where
  | start (t : Nat) (qpair : Bool)
  | submit (t : Nat) (buff : Bool) (rc : Int)
  | execute (t : Nat) (q : Queued) (ok : Bool)
  | poll (t : Nat) (done : List Queued) (num : Int)
  deriving Repr, DecidableEq

def Label.thread : Label → Nat
  | .start t _ | .submit t _ _ | .execute t _ _ | .poll t _ _ => t

def init (device : List UInt8) : State := { device }

/-- The head of the outer loop. -/
def Worker.enter (p : Params) (w : Worker) : Worker :=
  if w.i < p.count then { w with pc := if 0 < p.ioDepth then .submit else .poll, j := 0, c := 0 }
  else { w with pc := .returned, j := 0, c := 0 }

def State.goto (s : State) (t : Nat) (w : Worker) : State := { s with worker := Function.update s.worker t w }

def State.crashed (s : State) (c : Crash) : State := { s with crash := some c }

def State.submitted (p : Params) (s : State) (t : Nat) : State :=
  let w := s.worker t
  let q : Queued := ⟨⟨w.k, p.nLba.toUInt32⟩, s.buffs⟩
  { s with
    heap := Function.update s.heap s.buffs (some (List.replicate p.blockSize.toNat 0xff))
    buffs := s.buffs + 1 }.goto t
    { w with
      pc := if (w.j + 1 : Nat) < p.ioDepth then .submit else .poll
      j := w.j + 1
      k := w.k + p.nLba
      sq := w.sq ++ [q]
      sent := w.sent ++ [q.cmd] }

/-- The controller is done with a command. -/
def State.posted (s : State) (t : Nat) (q : Queued) : State :=
  s.goto t { s.worker t with sq := (s.worker t).sq.erase q, cq := (s.worker t).cq ++ [q] }

/-- It reads the buffer of a command that it executes, and writes as many bytes
as the command has sectors. It fails a command that goes past the device, and
may fail any other one. -/
def execute (s : State) (t : Nat) (q : Queued) (ok : Bool) : Option State :=
  match s.heap q.buff with
  | none => some (s.crashed .badAccess)
  | some bytes =>
    if bytes.length < q.cmd.span.len then some (s.crashed .badAccess)
    else if ok = false then some (s.posted t q)
    else if q.cmd.span.start + q.cmd.span.len ≤ s.device.length then
      some { s.posted t q with
        device := writeAt 0 s.device q.cmd.span.start (readAt bytes 0 q.cmd.span.len)
        written := s.written ++ [q.cmd] }
    else none

/-- `write_cb` on a completion. -/
def complete (t : Nat) (s : State) (q : Queued) : Option State :=
  if q ∈ (s.worker t).cq then
    some { s.goto t { s.worker t with cq := (s.worker t).cq.erase q } with
      heap := Function.update s.heap q.buff none
      crash := if s.heap q.buff = none then some .badAccess else s.crash }
  else none

def completeAll (t : Nat) : State → List Queued → Option State
  | s, [] => some s
  | s, q :: qs => (complete t s q).bind fun u => completeAll t u qs

def Worker.counted (p : Params) (w : Worker) (num : Int) : Worker :=
  let w := { w with c := w.c + num, polled := Function.update w.polled w.i (w.polled w.i ++ [num]) }
  if w.c = p.ioDepth then { w with i := w.i + 1 }.enter p else w

def State.counted (p : Params) (s : State) (t : Nat) (num : Int) : State := s.goto t ((s.worker t).counted p num)

def step (p : Params) (s : State) (l : Label) : Option State :=
  if s.crash ≠ none ∨ p.numThread ≤ l.thread then none
  else match (s.worker l.thread).pc, l with
    | .idle, .start t qpair =>
      if p.blockSize % 512 ≠ 0 then some (s.crashed .assertion)
      else if p.blockSize = 0 ∨ UInt64.ofInt p.ioDepth = 0 then some (s.crashed .divisor)
      else if qpair then some (s.goto t ((s.worker t).enter p))
      else some (s.crashed .assertion)
    | .submit, .submit t buff rc =>
      if buff = false then some (s.crashed .null)
      else if rc ≠ 0 then some (s.crashed .assertion)
      else some (s.submitted p t)
    | .poll, .poll t done num =>
      (completeAll t s done).map fun u =>
        if -2 ^ 31 ≤ (s.worker t).c + num ∧ (s.worker t).c + num < 2 ^ 31 then u.counted p t num
        else u.crashed .overflow
    | _, .execute t q ok => if q ∈ (s.worker t).sq then execute s t q ok else none
    | _, _ => none

end IoTester.IoSpdk

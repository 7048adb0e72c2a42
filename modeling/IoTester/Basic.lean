import Mathlib.Algebra.Ring.Int.Defs
import Mathlib.Algebra.Ring.Nat

/-!
# Shared vocabulary of the testers

Requests of the POSIX programs, texts, and the loop counters that the programs
declare as `int` while they compare them with a `size_t`.
-/

namespace IoTester

abbrev Text := List Char

def decN (n : Nat) : Text := Nat.toDigits 10 n

def decI : Int → Text
  | .ofNat n => decN n
  | .negSucc n => '-' :: decN (n + 1)

def isSpace (c : Char) : Bool := c = ' ' || (9 ≤ c.toNat && c.toNat ≤ 13)

def digitsValue (digits : Text) : Nat := digits.foldl (fun n c => 10 * n + (c.toNat - 48)) 0

-- the counter of the loop over the lines is an `int`: no run goes past its range
def decLines (data : List UInt64) : Text := (data.take (2 ^ 31)).flatMap fun v => decN v.toNat ++ ['\n']

inductive IoOp where
  | pread
  | pwrite
  deriving Repr, DecidableEq

structure Request where
  op : IoOp
  fd : Int
  len : UInt64
  pos : UInt64
  deriving Repr, DecidableEq

def Request.InFile (size : UInt64) (r : Request) : Prop := r.pos.toNat + r.len.toNat ≤ size.toNat

instance (size : UInt64) (r : Request) : Decidable (r.InFile size) := inferInstanceAs (Decidable (_ ≤ _))

/-- How a worker ends: it returns, an `assert` fails, a `memset` has no buffer, the
counter of its loop leaves the range of `int`, or it divides by zero or uses an
index past its arrays. -/
inductive Exit where
  | returned
  | aborted
  | crashed
  | overflow
  | fault
  deriving Repr, DecidableEq

/-- The passes of `for (int i = 0; i < count; i++)` over a `size_t` count: the
increment of `INT_MAX` is undefined, so no run goes past it. -/
def intPasses (count : UInt64) : Nat := min count.toNat (2 ^ 31)

/-- How such a loop ends, if nothing in it ends the worker. -/
def intExit (count : UInt64) : Exit := if count.toNat < 2 ^ 31 then .returned else .overflow

inductive Workload where
  | DO_RW
  | DO_SW
  | DO_RR
  | DO_SR
  deriving Repr, DecidableEq

def Workload.ofType (type : Int) : Option Workload :=
  if type = 1 then some .DO_RW
  else if type = 2 then some .DO_SW
  else if type = 3 then some .DO_RR
  else if type = 4 then some .DO_SR
  else none

def Workload.type : Workload → Int
  | .DO_RW => 1
  | .DO_SW => 2
  | .DO_RR => 3
  | .DO_SR => 4

@[simp] theorem Workload.ofType_type (w : Workload) : Workload.ofType w.type = some w := by cases w <;> rfl

/-- What `run_benchmark` times: the requests of the worker, and the number of
operations by which it divides the elapsed time. -/
structure Measured (α : Type) where
  issued : α
  ops : UInt64
  deriving Repr, DecidableEq

theorem toNat_pos_iff {x : UInt64} : 0 < x.toNat ↔ x ≠ 0 := by
  rw [Nat.pos_iff_ne_zero, Ne, Ne, ← UInt64.toNat_inj]
  rfl

theorem intPasses_of_lt {count : UInt64} (h : count.toNat < 2 ^ 31) : intPasses count = count.toNat :=
  Nat.min_eq_left (Nat.le_of_lt h)

theorem intExit_of_lt {count : UInt64} (h : count.toNat < 2 ^ 31) : intExit count = .returned := if_pos h

theorem intExit_ne_fault (count : UInt64) : intExit count ≠ .fault := by
  unfold intExit
  split <;> simp

theorem intExit_eq_returned_iff {count : UInt64} : intExit count = .returned ↔ count.toNat < 2 ^ 31 := by
  unfold intExit
  split <;> simp_all

end IoTester

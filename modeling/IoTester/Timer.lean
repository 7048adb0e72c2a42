/-!
# The stopwatch

`class Timer`: `Start` and `Stop` each take one reading of `CLOCK_MONOTONIC`.
The difference is computed in signed arithmetic and stored in a `size_t`: it is
taken modulo `2 ^ 64`.
-/

namespace IoTester

structure Timespec where
  sec : Int
  nsec : Int
  deriving Repr, DecidableEq, Inhabited

structure Timer where
  start : Timespec := default
  stop : Timespec := default
  elapsed : UInt64 := 0
  deriving Repr, DecidableEq, Inhabited

def Timespec.elapsedTo (a b : Timespec) : UInt64 :=
  UInt64.ofInt ((b.sec - a.sec) * 1000000000 + (b.nsec - a.nsec))

theorem Timespec.elapsedTo_self (a : Timespec) : a.elapsedTo a = 0 := by
  simp only [elapsedTo, Int.sub_self, Int.zero_mul, Int.add_zero]
  rfl

namespace Timer

def Start (t : Timer) (now : Timespec) : Timer := { t with start := now }

def Stop (t : Timer) (now : Timespec) : Timer :=
  { t with stop := now, elapsed := t.start.elapsedTo now }

def Get (t : Timer) : UInt64 := t.elapsed

@[simp] theorem start_Start (t : Timer) (now : Timespec) : (t.Start now).start = now := rfl

@[simp] theorem Get_Stop (t : Timer) (now : Timespec) : (t.Stop now).Get = t.start.elapsedTo now := rfl

end Timer

end IoTester

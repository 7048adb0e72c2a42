import IoTester.Lib.Machine
import IoTester.Lib.Peterson

/-!
# The two threads of `test.cc`

`thread_1` and `thread_2` fill one array with the even and the odd numbers,
in batches of a hundred. A step of a thread is one load or store of a shared
variable, with the local work that follows it; `pc` names the next such
access. The two loads of the wait condition are two steps, and so are the load
and the store of `arr_ind++`.
-/

namespace IoTester.Threads

open Lib (Side)

/-- The next access to a shared variable: the two stores of the doorway, the
two loads of the wait condition, load and store of `data[arr_ind] = ..`, load
and store of `arr_ind++`, the store that lowers the flag. -/
inductive Pc where
  | setFlag
  | setTurn
  | ldFlag
  | ldTurn
  | ldIdx
  | stData
  | ldInc
  | stInc
  | clrFlag
  | ret
  deriving Repr, DecidableEq

structure Local where
  pc : Pc
  i : Nat := 0
  j : Nat := 0
  reg : Nat := 0
  deriving Repr, DecidableEq

structure State where
  flag : Side → Bool
  turn : Nat
  arrInd : Nat
  data : List Nat
  loc : Side → Local

def init (max : Nat) : State where
  flag _ := false
  turn := 0
  arrInd := 0
  data := List.replicate max 0
  loc _ := { pc := if 0 < max then .setFlag else .ret }

def State.goto (s : State) (me : Side) (l : Local) : State := { s with loc := Function.update s.loc me l }

/-- One step of a thread that gives `turn` the value `other`, waits while it
has that value, and stores `i + plus`. -/
def thread (max : Nat) (me : Side) (other plus : Nat) (s : State) : Option State :=
  let l := s.loc me
  match l.pc with
  | .setFlag => some ({ s with flag := Function.update s.flag me true }.goto me { l with pc := .setTurn })
  | .setTurn => some ({ s with turn := other }.goto me { l with pc := .ldFlag })
  | .ldFlag =>
    if s.flag me.other then some (s.goto me { l with pc := .ldTurn })
    else some (s.goto me { l with pc := .ldIdx, j := 0 })
  | .ldTurn =>
    if s.turn = other then some (s.goto me { l with pc := .ldFlag })
    else some (s.goto me { l with pc := .ldIdx, j := 0 })
  | .ldIdx => some (s.goto me { l with pc := .stData, reg := s.arrInd })
  | .stData => some ({ s with data := s.data.set l.reg (l.i + plus) }.goto me { l with pc := .ldInc })
  | .ldInc => some (s.goto me { l with pc := .stInc, reg := s.arrInd })
  | .stInc =>
    some ({ s with arrInd := l.reg + 1 }.goto me
      { l with pc := if l.j + 1 < 100 then .ldIdx else .clrFlag, i := l.i + 2, j := l.j + 1 })
  | .clrFlag =>
    some ({ s with flag := Function.update s.flag me false }.goto me
      { l with pc := if l.i < max then .setFlag else .ret })
  | .ret => none

def thread1 (max : Nat) : State → Option State := thread max .left 1 0

def thread2 (max : Nat) : State → Option State := thread max .right 0 1

def step (max : Nat) (s : State) : Side → Option State
  | .left => thread1 max s
  | .right => thread2 max s

def State.sum (s : State) : UInt64 := s.data.foldl (fun sum d => sum + UInt64.ofNat d) 0

end IoTester.Threads

import IoTester.Basic
import Mathlib.Logic.Function.Basic

/-!
# The offline analysis of `.lat` files

`detail.cc` scans a directory, reads each `.lat` file, and writes next to it
one file for the average and one for each percentile of its windows. Files are
a map from paths to contents, and those that are written open. What is computed
in `double` is a parameter: `avg`, the mean of a window, and an `Arithmetic` for
the products of sizes and percentiles, which the scan takes to be exact.
-/

namespace IoTester.Detail

inductive Fault where
  | divideByZero
  | outOfRange
  | overflow
  deriving Repr, DecidableEq

inductive Line where
  | reading (name : Text) (size : Nat)
  | written (newName : Text) (size : Nat)
  | average (sum : UInt64)
  | tail (p : Rat) (value : UInt64) (idx size : Nat)
  deriving Repr, DecidableEq

abbrev Files := Text → Option Text

/-! ## Reading -/

/-- `fin >> latency`: white space, a sign, digits. It fails without digits and
on a number of more than 64 bits. -/
def extract (t : Text) : Option (UInt64 × Text) :=
  let t := t.dropWhile isSpace
  let (negative, t) := match t with
    | '-' :: t => (true, t)
    | '+' :: t => (false, t)
    | t => (false, t)
  let digits := t.takeWhile Char.isDigit
  let value := digitsValue digits
  if digits = [] ∨ 2 ^ 64 ≤ value then none
  else some (if negative then 0 - UInt64.ofNat value else UInt64.ofNat value, t.dropWhile Char.isDigit)

-- each extraction takes at least one character, so the length of the text is fuel enough
def extractAll : Nat → Text → List UInt64
  | 0, _ => []
  | n + 1, t => match extract t with
    | none => []
    | some (latency, rest) => latency :: extractAll n rest

def readFromFile (fs : Files) (name : Text) : List UInt64 :=
  match fs name with
  | some t => extractAll t.length t
  | none => []

/-! ## Windows and percentiles -/

/-- The `double` nearest to a literal `p`, the percent `100.0 * p` in a file name and
the index `(size_t)(1.0 * size * p)`. -/
structure Arithmetic where
  value : Rat → Rat
  percent : Rat → Rat
  index : Rat → Nat → Nat

def twoDecimals (q : Rat) : Text :=
  let n := (q * 100 + 1 / 2).floor.toNat
  decN (n / 100) ++ '.' :: decN (n / 10 % 10) ++ decN (n % 10)

-- the line counter is an `int`: no run goes past its range
def resultOutput (data : List UInt64) (interval : UInt64) : Text :=
  (data.take (2 ^ 31)).zipIdx.flatMap fun (v, i) =>
    decN (interval * UInt64.ofNat i).toNat ++ ' ' :: decN v.toNat ++ ['\n']

def getAvgLatency (vec : List UInt64) : Except Fault Line :=
  if vec = [] then .error .divideByZero
  else .ok (.average (vec.foldl (· + ·) 0 / UInt64.ofNat vec.length))

def percents : List Rat := [0, 99 / 100, 999 / 1000, 9999 / 10000]

namespace Arithmetic

variable (ar : Arithmetic) (avg : List UInt64 → UInt64)

def suffix (p : Rat) : Text :=
  if ar.value p = 0 then ['_', 'a', 'v', 'g'] else '_' :: twoDecimals (ar.percent p) ++ ['t', 'h']

def newName (name : Text) (p : Rat) : Text := (name ++ ar.suffix p).take 127

def summary (p : Rat) (vecTmp : List UInt64) : Except Fault UInt64 :=
  let sorted := vecTmp.mergeSort (· ≤ ·)
  if ar.value p = 0 then .ok (avg sorted)
  else match sorted[ar.index p sorted.length]? with
    | some v => .ok v
    | none => .error .outOfRange

def tailLoop (p : Rat) (interval : UInt64) : Nat → List UInt64 → List UInt64 → Except Fault (List UInt64)
  | _, _, [] => .ok []
  | i, vecTmp, v :: vec =>
    if interval = 0 then .error .divideByZero
    else if i % interval.toNat = 0 then do
      let value ← ar.summary avg p (vecTmp ++ [v])
      let rest ← tailLoop p interval (i + 1) [] vec
      .ok (value :: rest)
    else tailLoop p interval (i + 1) (vecTmp ++ [v]) vec

def tailLatencyHandler (fs : Files) (name : Text) (vec : List UInt64) (p : Rat) (interval : UInt64) :
    Except Fault (Files × Line) := do
  let tails ← ar.tailLoop avg p interval 0 [] vec
  .ok (Function.update fs (ar.newName name p) (some (resultOutput tails interval)),
    .written (ar.newName name p) tails.length)

def getTailLatency (vec : List UInt64) (p : Rat) : Except Fault Line :=
  match vec[ar.index p vec.length]? with
  | some v => .ok (.tail p v (ar.index p vec.length) vec.length)
  | none => .error .outOfRange

def tailLatencyHandlers (name : Text) (vec : List UInt64) (interval : UInt64) :
    List Rat → Files → Except Fault (Files × List Line)
  | [], fs => .ok (fs, [])
  | p :: ps, fs => do
    let (fs, line) ← ar.tailLatencyHandler avg fs name vec p interval
    let (fs, lines) ← tailLatencyHandlers name vec interval ps fs
    .ok (fs, line :: lines)

def detailHandler (fs : Files) (name : Text) (interval : Int) : Except Fault (Files × List Line) := do
  let vec := readFromFile fs name
  let (fs, lines) ← ar.tailLatencyHandlers avg name vec (UInt64.ofInt interval) percents fs
  let sorted := vec.mergeSort (· ≤ ·)
  let average ← getAvgLatency sorted
  let tails ← [1 / 2, 3 / 4, 90 / 100, 99 / 100, 999 / 1000, 9999 / 10000].mapM (ar.getTailLatency sorted)
  .ok (fs, .reading name vec.length :: lines ++ average :: tails)

end Arithmetic

/-! ## In exact arithmetic -/

def tailIndex (p : Rat) (size : Nat) : Nat := ((size : Rat) * p).floor.toNat

def exact : Arithmetic := ⟨fun p => p, fun p => 100 * p, tailIndex⟩

def suffix (p : Rat) : Text := exact.suffix p

def newName (name : Text) (p : Rat) : Text := exact.newName name p

def getTailLatency (vec : List UInt64) (p : Rat) : Except Fault Line := exact.getTailLatency vec p

theorem newName_def (name : Text) (p : Rat) : newName name p = (name ++ suffix p).take 127 := rfl

theorem getTailLatency_def (vec : List UInt64) (p : Rat) : getTailLatency vec p =
    match vec[tailIndex p vec.length]? with
    | some v => .ok (.tail p v (tailIndex p vec.length) vec.length)
    | none => .error .outOfRange := rfl

section
variable (avg : List UInt64 → UInt64)

def summary (p : Rat) (vecTmp : List UInt64) : Except Fault UInt64 := exact.summary avg p vecTmp

def tailLoop (p : Rat) (interval : UInt64) (i : Nat) (vecTmp vec : List UInt64) : Except Fault (List UInt64) :=
  exact.tailLoop avg p interval i vecTmp vec

def tailLatencyHandler (fs : Files) (name : Text) (vec : List UInt64) (p : Rat) (interval : UInt64) :
    Except Fault (Files × Line) :=
  exact.tailLatencyHandler avg fs name vec p interval

def tailLatencyHandlers (name : Text) (vec : List UInt64) (interval : UInt64) (ps : List Rat) (fs : Files) :
    Except Fault (Files × List Line) :=
  exact.tailLatencyHandlers avg name vec interval ps fs

def detailHandler (fs : Files) (name : Text) (interval : Int) : Except Fault (Files × List Line) :=
  exact.detailHandler avg fs name interval

theorem summary_def (p : Rat) (vecTmp : List UInt64) : summary avg p vecTmp =
    if p = 0 then .ok (avg (vecTmp.mergeSort (· ≤ ·)))
    else match (vecTmp.mergeSort (· ≤ ·))[tailIndex p (vecTmp.mergeSort (· ≤ ·)).length]? with
      | some v => .ok v
      | none => .error .outOfRange := rfl

theorem tailLoop_cons (p : Rat) (interval : UInt64) (i : Nat) (vecTmp : List UInt64) (v : UInt64) (vec : List UInt64) :
    tailLoop avg p interval i vecTmp (v :: vec) =
      if interval = 0 then .error .divideByZero
      else if i % interval.toNat = 0 then do
        let value ← summary avg p (vecTmp ++ [v])
        let rest ← tailLoop avg p interval (i + 1) [] vec
        .ok (value :: rest)
      else tailLoop avg p interval (i + 1) (vecTmp ++ [v]) vec := rfl

theorem tailLatencyHandler_def (fs : Files) (name : Text) (vec : List UInt64) (p : Rat) (interval : UInt64) :
    tailLatencyHandler avg fs name vec p interval = (do
      let tails ← tailLoop avg p interval 0 [] vec
      .ok (Function.update fs (newName name p) (some (resultOutput tails interval)),
        .written (newName name p) tails.length)) := rfl

theorem tailLatencyHandlers_cons (name : Text) (vec : List UInt64) (interval : UInt64) (p : Rat) (ps : List Rat)
    (fs : Files) : tailLatencyHandlers avg name vec interval (p :: ps) fs = (do
      let (fs, line) ← tailLatencyHandler avg fs name vec p interval
      let (fs, lines) ← tailLatencyHandlers avg name vec interval ps fs
      .ok (fs, line :: lines)) := rfl

theorem detailHandler_def (fs : Files) (name : Text) (interval : Int) : detailHandler avg fs name interval = (do
    let vec := readFromFile fs name
    let (fs, lines) ← tailLatencyHandlers avg name vec (UInt64.ofInt interval) percents fs
    let sorted := vec.mergeSort (· ≤ ·)
    let average ← getAvgLatency sorted
    let tails ← [1 / 2, 3 / 4, 90 / 100, 99 / 100, 999 / 1000, 9999 / 10000].mapM (getTailLatency sorted)
    .ok (fs, .reading name vec.length :: lines ++ average :: tails)) := rfl

/-! ## The scan of the directory -/

def path (dir name : Text) : Text := dir ++ '/' :: name

def isLat (name : Text) : Bool := name.drop (name.length - 4) = ['.', 'l', 'a', 't']

/-- The conversion of `interval` to the `int` parameter of `detail_handler`. -/
def toInt (interval : UInt64) : Int := interval.toUInt32.toBitVec.toInt

def entry (dir : Text) (interval : UInt64) (fs : Files) (name : Text) : Except Fault (Files × List Line) :=
  if name = ['.'] ∨ name = ['.', '.'] then .ok (fs, [])
  else if name.length < 4 then .error .outOfRange
  else if isLat name then
    if 128 ≤ (path dir name).length then .error .overflow
    else detailHandler avg fs (path dir name) (toInt interval)
  else .ok (fs, [])

def scan (dir : Text) (interval : UInt64) : List Text → Files → Except Fault (Files × List Line)
  | [], fs => .ok (fs, [])
  | name :: names, fs => do
    let (fs, out) ← entry avg dir interval fs name
    let (fs, out') ← scan dir interval names fs
    .ok (fs, out ++ out')

/-- The names that `readdir` may yield, in any order: all that were there at
the start, and otherwise only names that are there when they are yielded. -/
structure Yields (dir : Text) (interval : UInt64) (fs : Files) (names : List Text) : Prop where
  complete : ∀ name, (fs (path dir name)).isSome → name ∈ names
  present : ∀ seen name rest, names = seen ++ name :: rest → name = ['.'] ∨ name = ['.', '.'] ∨
    ∀ fs' out, scan avg dir interval seen fs = .ok (fs', out) → (fs' (path dir name)).isSome

end

end IoTester.Detail

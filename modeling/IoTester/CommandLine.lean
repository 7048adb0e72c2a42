import IoTester.Decimal

/-!
# Command lines and fixed buffers

What the `main` functions do with their arguments: convert them with `atol`,
store them in an `int` or a `size_t`, and format paths into arrays of a fixed
size. What C leaves undefined is a `Fault`.
-/

namespace IoTester

/-- An argument that was not given, an index past an array, a text past a
buffer, a zero divisor, a value past the range of `int`. -/
inductive Fault where
  | argument
  | index
  | buffer
  | divisor
  | overflow
  deriving Repr, DecidableEq

def argAt (argv : List Text) (i : Nat) : Except Fault Text :=
  match argv[i]? with
  | some t => .ok t
  | none => .error .argument

/-- The integer that an argument stands for: white space, a sign, digits. -/
def integer (t : Text) : Int :=
  let t := t.dropWhile isSpace
  let (negative, t) := match t with
    | '-' :: t => (true, t)
    | '+' :: t => (false, t)
    | t => (false, t)
  let value : Int := digitsValue (t.takeWhile Char.isDigit)
  if negative then -value else value

/-- A number past the range of `long` becomes the end of the range. -/
def atol (t : Text) : Int64 := Int64.ofInt (max (-2 ^ 63) (min (2 ^ 63 - 1) (integer t)))

def argLong (argv : List Text) (i : Nat) : Except Fault Int64 := (argAt argv i).map atol

def argInt (argv : List Text) (i : Nat) : Except Fault Int32 := (argLong argv i).map Int64.toInt32

def argSize (argv : List Text) (i : Nat) : Except Fault UInt64 := (argLong argv i).map Int64.toUInt64

/-- The value of an `int` expression. -/
def intValue (n : Int) : Except Fault Int := if -2 ^ 31 ≤ n ∧ n < 2 ^ 31 then .ok n else .error .overflow

def addInt (a b : Int32) : Except Fault Int := intValue (a.toInt + b.toInt)

/-- `sprintf` or `strcpy` into `char[size]`: the text and its terminator fit. -/
def store (size : Nat) (t : Text) : Except Fault Text :=
  if t.length < size then .ok t else .error .buffer

def fileName (path : Text) (i : Nat) : Text := path ++ '/' :: decN i ++ ['.', 'i', 'o']

/-- `open` creates a file that is not there. `fallocate` makes the file as long as
`total_size`, with zeros at its end; nothing looks at its result. -/
def prepareFile (allocated : Bool) (totalSize : UInt64) (content : Option (List UInt8)) : List UInt8 :=
  let file := content.getD []
  if allocated then file ++ List.replicate (totalSize.toNat - file.length) 0 else file

theorem lt_of_argAt {argv : List Text} {i : Nat} {t : Text} (h : argAt argv i = .ok t) : i < argv.length := by
  unfold argAt at h
  cases hi : argv[i]? with
  | none =>
    rw [hi] at h
    cases h
  | some u => exact (List.getElem?_eq_some_iff.mp hi).1

theorem eq_of_argInt {argv : List Text} {i : Nat} {x : Int32} (h : argInt argv i = .ok x) :
    x = (atol (argv.getD i [])).toInt32 := by
  unfold argInt argLong argAt at h
  rw [List.getD_eq_getElem?_getD]
  cases hi : argv[i]? with
  | none =>
    rw [hi] at h
    cases h
  | some t =>
    rw [hi] at h
    exact (Except.ok.inj h).symm

/-- An `int` holds the integer of its argument, within its range. -/
theorem toInt_atol {t : Text} (hlow : -2 ^ 31 ≤ integer t) (hhigh : integer t < 2 ^ 31) :
    (atol t).toInt32.toInt = integer t := by
  unfold atol
  rw [Int.min_eq_right (by omega), Int.max_eq_right (by omega), Int64.toInt32_ofInt,
    Int32.toInt_ofInt_of_le hlow hhigh]

theorem intValue_eq_ok {n m : Int} : intValue n = .ok m ↔ (-2 ^ 31 ≤ n ∧ n < 2 ^ 31) ∧ n = m := by
  unfold intValue
  by_cases h : -2 ^ 31 ≤ n ∧ n < 2 ^ 31
  · rw [if_pos h]
    exact ⟨fun he => ⟨h, Except.ok.inj he⟩, fun he => congrArg _ he.2⟩
  · rw [if_neg h]
    exact iff_of_false (fun he => by cases he) (fun he => h he.1)

theorem store_ok {size : Nat} {t : Text} (h : t.length < size) : store size t = .ok t := if_pos h

theorem lt_of_store {size : Nat} {t t' : Text} (h : store size t = .ok t') : t.length < size := by
  unfold store at h
  by_cases hlt : t.length < size
  · exact hlt
  · rw [if_neg hlt] at h
    cases h

theorem length_fileName (path : Text) (i : Nat) : (fileName path i).length = path.length + (decN i).length + 4 := by
  simp only [fileName, List.length_append, List.length_cons, List.length_nil]
  omega

theorem fileName_inj {path : Text} {i j : Nat} (h : fileName path i = fileName path j) : i = j := by
  simp only [fileName, List.append_assoc, List.append_cancel_left_eq, List.cons_append, List.cons.injEq, true_and,
    List.append_cancel_right_eq] at h
  exact decN_inj h

end IoTester

import IoTester.IoPosixThreads
import IoTester.Lib.Rounding
import IoTester.Timer

/-!
# The rates that the testers print

`run_benchmark` of each program of `io_tester` turns the elapsed nanoseconds of a
thread and the number of its operations into operations per second, and `main`
adds the rates of the threads and turns the sum into megabytes per second. All of
it is in `double`, where a division by zero is no error.

None of the values here is negative, and none that is finite comes near the limits
of the exponent.
-/

namespace IoTester

open Lib

inductive Double where
  | fin (q : ℚ)
  | inf
  | nan
  deriving Repr, DecidableEq

namespace Double

def ofSize (n : UInt64) : Double := .fin (fl 53 n.toNat)

def add : Double → Double → Double
  | .fin a, .fin b => .fin (fl 53 (a + b))
  | .nan, _ | _, .nan => .nan
  | .inf, _ | _, .inf => .inf

def mul : Double → Double → Double
  | .fin a, .fin b => .fin (fl 53 (a * b))
  | .nan, _ | _, .nan => .nan
  | .inf, .fin b | .fin b, .inf => if b = 0 then .nan else .inf
  | .inf, .inf => .inf

def div : Double → Double → Double
  | .fin a, .fin b => if b ≠ 0 then .fin (fl 53 (a / b)) else if a = 0 then .nan else .inf
  | .nan, _ | _, .nan => .nan
  | .inf, .fin _ => .inf
  | .fin _, .inf => .fin 0
  | .inf, .inf => .nan

end Double

/-- The member of `Timer` that turns nanoseconds into seconds. -/
def Timer.GetSeconds (t : Timer) : Double := (Double.ofSize t.elapsed).div (.fin 1000000000)

namespace IoReport

/-- The rate of a thread, with `ops = total_size / block_size`. -/
def iops (seconds : Double) (ops : UInt64) : Double :=
  let latency := ((Double.fin 1000000000).mul seconds).div (.ofSize ops)
  (Double.fin 1000000000).div latency

def sumIops (rates : List Double) : Double := rates.foldl .add (.fin 0)

def bandwidth (sum : Double) (blockSize : UInt64) : Double := (sum.mul (.ofSize blockSize)).div (.fin 1048576)

/-! ## Finite rates -/

/-- `d` is finite, and at most `n` roundings away from `y`. -/
def Near (n : ℕ) (d : Double) (y : ℚ) : Prop := ∃ q, d = .fin q ∧ Within 53 n q y

namespace Near

variable {n m : ℕ} {d d' : Double} {y y' : ℚ}

theorem mono (h : Near n d y) (hnm : n ≤ m) : Near m d y := by
  obtain ⟨q, rfl, hq⟩ := h
  exact ⟨q, rfl, hq.mono hnm⟩

theorem const (hy : 0 ≤ y) : Near 0 (.fin y) y := ⟨y, rfl, .refl hy⟩

theorem ofSize (k : UInt64) : Near 1 (.ofSize k) k.toNat :=
  ⟨_, rfl, (Within.refl (Nat.cast_nonneg _)).fl⟩

theorem add (h : Near n d y) (h' : Near n d' y') : Near (n + 1) (d.add d') (y + y') := by
  obtain ⟨q, rfl, hq⟩ := h
  obtain ⟨q', rfl, hq'⟩ := h'
  exact ⟨_, rfl, (hq.add hq').fl⟩

theorem mul (h : Near n d y) (h' : Near m d' y') : Near (n + m + 1) (d.mul d') (y * y') := by
  obtain ⟨q, rfl, hq⟩ := h
  obtain ⟨q', rfl, hq'⟩ := h'
  exact ⟨_, rfl, (hq.mul hq').fl⟩

theorem div (h : Near n d y) (h' : Near m d' y') (hy' : 0 < y') : Near (n + m + 1) (d.div d') (y / y') := by
  obtain ⟨q, rfl, hq⟩ := h
  obtain ⟨q', rfl, hq'⟩ := h'
  have hpos := hq'.pos (by norm_num) hy'
  exact ⟨_, if_pos hpos.ne', (hq.div hq' hpos hy').fl⟩

end Near

/-- The operations of a thread for each second of its time. -/
def rateOf (ops : ℕ) (t : Timer) : ℚ := ops * 1000000000 / t.elapsed.toNat

theorem seconds_near (t : Timer) : Near 2 t.GetSeconds (t.elapsed.toNat / 1000000000) :=
  (Near.ofSize t.elapsed).div (.const (by norm_num)) (by norm_num)

theorem toNat_cast_pos {n : UInt64} (h : n ≠ 0) : (0 : ℚ) < n.toNat := by exact_mod_cast toNat_pos_iff.mpr h

/-- A thread that took some time has a finite rate; with no operations it is zero. -/
theorem iops_near {t : Timer} (ht : t.elapsed ≠ 0) (ops : UInt64) :
    Near 6 (iops t.GetSeconds ops) (rateOf ops.toNat t) := by
  unfold rateOf
  have hpos := toNat_cast_pos ht
  have hns : Near 3 ((Double.fin 1000000000).mul t.GetSeconds) (1000000000 * (t.elapsed.toNat / 1000000000)) :=
    Near.mul (.const (by norm_num)) (seconds_near t)
  rw [mul_div_cancel₀ _ (by norm_num)] at hns
  by_cases hops : ops = 0
  · subst hops
    obtain ⟨q, hq, hwithin⟩ := hns
    have hne : q ≠ 0 := (hwithin.pos (by norm_num) hpos).ne'
    refine ⟨0, ?_, ?_⟩
    · simp [iops, hq, Double.ofSize, Double.div, hne]
    · simpa using (Within.refl le_rfl).mono (Nat.zero_le 6)
  · have hops := toNat_cast_pos hops
    have hlatency := hns.div (.ofSize ops) hops
    have hrate := Near.div (.const (by norm_num : (0 : ℚ) ≤ 1000000000)) hlatency (div_pos hpos hops)
    rw [div_div_eq_mul_div, mul_comm] at hrate
    exact hrate

theorem iops_not_finite {t : Timer} (ht : t.elapsed = 0) (ops : UInt64) (q : ℚ) :
    iops t.GetSeconds ops ≠ .fin q := by
  by_cases hops : fl 53 ops.toNat = 0
  · simp [iops, Timer.GetSeconds, Double.ofSize, Double.div, Double.mul, ht, hops]
  · simp [iops, Timer.GetSeconds, Double.ofSize, Double.div, Double.mul, ht, hops]

/-! ## The sum over the threads -/

theorem foldl_add_near (ops : UInt64) : ∀ (ts : List Timer) {n : ℕ} {d : Double} {y : ℚ}, Near (6 + n) d y →
    (∀ t ∈ ts, t.elapsed ≠ 0) →
    Near (6 + (n + ts.length)) ((ts.map fun t => iops t.GetSeconds ops).foldl .add d)
      (y + (ts.map (rateOf ops.toNat)).sum)
  | [], n, d, y, hd, _ => by simpa using hd
  | t :: ts, n, d, y, hd, hts => by
    have hadd : Near (6 + (n + 1)) (d.add (iops t.GetSeconds ops)) (y + rateOf ops.toNat t) :=
      hd.add ((iops_near (hts t (by simp)) ops).mono (Nat.le_add_right 6 n))
    have hrest := foldl_add_near ops ts hadd fun t' ht' => hts t' (by simp [ht'])
    have hcount : n + 1 + ts.length = n + (t :: ts).length := by
      rw [List.length_cons]
      omega
    rw [hcount, add_assoc y] at hrest
    rw [List.map_cons, List.map_cons, List.sum_cons, List.foldl_cons]
    exact hrest

theorem add_finite {d d' : Double} {q : ℚ} (h : d.add d' = .fin q) : (∃ a, d = .fin a) ∧ ∃ b, d' = .fin b := by
  cases d with
  | fin a => cases d' with
    | fin b => exact ⟨⟨a, rfl⟩, b, rfl⟩
    | inf => cases h
    | nan => cases h
  | inf => cases d' <;> cases h
  | nan => cases d' <;> cases h

theorem foldl_add_finite : ∀ {ds : List Double} {d : Double} {q : ℚ}, ds.foldl .add d = .fin q →
    (∃ a, d = .fin a) ∧ ∀ d' ∈ ds, ∃ b, d' = .fin b
  | [], d, q, h => ⟨⟨q, h⟩, by simp⟩
  | d' :: ds, d, q, h => by
    obtain ⟨⟨a, ha⟩, hds⟩ := foldl_add_finite (d := d.add d') h
    obtain ⟨hd, hd'⟩ := add_finite ha
    refine ⟨hd, fun e he => ?_⟩
    rcases List.mem_cons.mp he with rfl | he
    · exact hd'
    · exact hds e he

theorem sumIops_near {ts : List Timer} (hts : ∀ t ∈ ts, t.elapsed ≠ 0) (ops : UInt64) :
    Near (6 + ts.length) (sumIops (ts.map fun t => iops t.GetSeconds ops)) (ts.map (rateOf ops.toNat)).sum := by
  have hsum := foldl_add_near ops ts (n := 0) ((Near.const le_rfl).mono (Nat.zero_le 6)) hts
  rw [Nat.zero_add, zero_add (M := ℚ)] at hsum
  exact hsum

theorem sumIops_finite_iff {ts : List Timer} {ops : UInt64} :
    (∃ q, sumIops (ts.map fun t => iops t.GetSeconds ops) = .fin q) ↔ ∀ t ∈ ts, t.elapsed ≠ 0 := by
  constructor
  · rintro ⟨q, hq⟩ t ht helapsed
    obtain ⟨b, hb⟩ := (foldl_add_finite hq).2 _ (List.mem_map_of_mem ht)
    exact iops_not_finite helapsed ops b hb
  · intro hts
    obtain ⟨q, hq, _⟩ := sumIops_near hts ops
    exact ⟨q, hq⟩

theorem Near.abs_sub_le {n : ℕ} {d : Double} {y q : ℚ} (h : Near n d y) (hn : n ≤ 64) (hd : d = .fin q) :
    |q - y| ≤ y / 2 ^ 46 := by
  obtain ⟨q', rfl, hq⟩ := h.mono hn
  cases hd
  have hle := hq.abs_sub_le (by norm_num)
  norm_num at hle ⊢
  linarith

end IoReport

/-! ## The report of `io_tester/posix.cc` -/

namespace IoPosix

open IoReport

/-- A worker that returns has issued as many requests as its report counts. -/
theorem Job.length_run {j : Job} {memory : Memory} (hj : j.workload ≠ none) (hb : j.blockSize ≠ 0)
    (hret : (j.run memory).exit = .returned) : (j.run memory).issued.length = (j.totalSize / j.blockSize).toNat := by
  obtain ⟨w, hw⟩ := Option.ne_none_iff_exists'.mp hj
  obtain ⟨hm, hcount⟩ := (run_returned_iff hw hb).mp hret
  rw [run_of_buffer hw hm, ← intPasses_of_lt hcount]
  exact length_passes ..

theorem zipWith_right {α β γ : Type} {f : α → β → γ} {g : β → γ} : ∀ {as : List α} {bs : List β},
    as.length = bs.length → (∀ a ∈ as, ∀ b, f a b = g b) → List.zipWith f as bs = bs.map g
  | [], [], _, _ => rfl
  | a :: as, b :: bs, h, hf => by
    rw [List.zipWith_cons_cons, hf a List.mem_cons_self, List.map_cons,
      zipWith_right (Nat.succ.inj h) fun a ha => hf a (List.mem_cons_of_mem _ ha)]

/-- **The printed rates.** For a known type and where every worker returns, the sum
that `main` prints is finite exactly if the clock went on for every thread. Then
it is the number of issued requests for each second of the threads' times, up to
one part in `2 ^ 46`, and the printed bandwidth is that of their bytes. -/
theorem printed_rates {argv : List Text} (hargc : 6 ≤ argv.length) {a : Args} (hparse : parse argv = .ok a)
    {memory : Nat → Memory} {openFile : Text → Int} {runs : List Run} (hmain : main memory openFile argv = .ok runs)
    (htype : Workload.ofType a.type.toInt ≠ none) (hret : ∀ run ∈ runs, run.exit = .returned)
    {timers : List Timer} (htimers : timers.length = runs.length) {sum : Double}
    (hsum : sum = sumIops (timers.map fun t => iops t.GetSeconds (a.totalSize / a.blockSize)))
    {rate : ℚ} (hrate : rate = (List.zipWith (fun run t => rateOf run.issued.length t) runs timers).sum) :
    ((∃ q, sum = .fin q) ↔ ∀ t ∈ timers, t.elapsed ≠ 0) ∧
    ∀ q, sum = .fin q → |q - rate| ≤ rate / 2 ^ 46 ∧
      ∃ b, bandwidth sum a.blockSize = .fin b ∧
        |b - rate * a.blockSize.toNat / 1048576| ≤ rate * a.blockSize.toNat / 1048576 / 2 ^ 46 := by
  obtain ⟨hfits, rfl⟩ := (main_eq_ok_iff hargc hparse).mp hmain
  have hissued : rate = (timers.map (rateOf (a.totalSize / a.blockSize).toNat)).sum := by
    rw [hrate, zipWith_right htimers.symm fun run hrun t => ?_]
    obtain ⟨i, hi, rfl⟩ := List.mem_map.mp hrun
    rw [Job.length_run htype (hfits i (List.mem_range.mp hi)).2.2 (hret _ hrun)]
    rfl
  rw [List.length_map, List.length_range] at htimers
  have hthreads : timers.length ≤ 32 := by
    by_contra hmore
    exact absurd (hfits 32 (by omega)).1 (by decide)
  refine ⟨hsum ▸ sumIops_finite_iff, fun q hq => ?_⟩
  have hclock := sumIops_finite_iff.mp ⟨q, hsum.symm.trans hq⟩
  have hnear := sumIops_near hclock (a.totalSize / a.blockSize)
  rw [← hsum, ← hissued] at hnear
  have hbytes := (hnear.mul (.ofSize a.blockSize)).div (.const (by norm_num : (0 : ℚ) ≤ 1048576)) (by norm_num)
  obtain ⟨b, hb, _⟩ := id hbytes
  exact ⟨hnear.abs_sub_le (by omega) hq, b, hb, hbytes.abs_sub_le (by omega) hb⟩

/-- Two threads of four requests each, one in a millisecond and one in two. -/
def twoTimers : List Timer := [{ elapsed := 1000000 }, { elapsed := 2000000 }]

theorem printed_rates_two_threads :
    ∃ q, sumIops (twoTimers.map fun t => iops t.GetSeconds 4) = .fin q ∧ |q - 6000| ≤ 6000 / 2 ^ 46 := by
  have hmain := main_ok (by decide) parse_twoThreads (fun _ => some 262144) (fun _ => 3) fits_twoArgs
  have hrates := printed_rates (by decide) parse_twoThreads hmain (by decide) (by decide)
    (show twoTimers.length = _ from rfl) rfl (show (6000 : ℚ) = _ by decide +kernel)
  obtain ⟨q, hq⟩ := hrates.1.mpr (by decide)
  exact ⟨q, hq, (hrates.2 q hq).1⟩

end IoPosix

end IoTester

import IoTester.CommandLine
import IoTester.IoSpdkEnds
import IoTester.Lib.Except

/-!
# `io_tester/spdk.cc`: `main` and which command lines are safe

`main` reads five arguments, fills one slot of `options` for each thread and
starts `run_benchmark` on it. Only `do_seqwrite` sends commands; the other
workers return at once, and every thread divides by `block_size` for its report.
-/

namespace IoTester.IoSpdk

open Lib

structure ThreadOptions where
  type : Int32
  threadId : Nat
  blockSize : UInt64
  totalSize : UInt64
  deriving Repr, DecidableEq

/-- The variables that `main` sets from its arguments. -/
structure Args where
  type : Int32
  numThread : Int32
  ioDepth : Int32
  blockSize : UInt64
  totalSize : UInt64
  deriving Repr, DecidableEq

def parse (argv : List Text) : Except Fault Args := do
  let type ← argInt argv 1
  let numThread ← argInt argv 2
  let ioDepth ← argInt argv 3
  let blockSize ← argSize argv 4
  let megabytes ← argSize argv 5
  .ok { type, numThread, ioDepth, blockSize, totalSize := megabytes * 1048576 }

def threadOptions (a : Args) (i : Nat) : Except Fault ThreadOptions :=
  if 32 ≤ i then .error .index else .ok ⟨a.type, i, a.blockSize, a.totalSize⟩

def main (argv : List Text) : Except Fault (List ThreadOptions) :=
  if argv.length < 6 then .ok []
  else do
    let a ← parse argv
    (List.range a.numThread.toInt.toNat).mapM (threadOptions a)

def Args.params (a : Args) : Params := ⟨a.ioDepth.toInt, a.blockSize, a.totalSize, a.numThread.toInt.toNat⟩

/-- No thread crashes, on any device on which nothing fails and calls count
commands. -/
def Args.Runs (a : Args) : Prop :=
  match Workload.ofType a.type.toInt with
  | some .DO_SW => ∀ device s, Reach (step a.params) Label.Sound (init device) s → s.crash = none
  | _ => a.numThread.toInt.toNat = 0 ∨ a.blockSize ≠ 0

/-! ## Threads without commands -/

/-- No thread has sent anything, and each has returned or not begun. -/
structure Quiet (s : State) : Prop where
  live : s.crash = none
  pc : ∀ t, (s.worker t).pc = .idle ∨ (s.worker t).pc = .returned
  sq : ∀ t, (s.worker t).sq = []

theorem Quiet.step {p : Params} (hcount : p.count = 0) (hgood : p.Good) {s u : State} {l : Label} (hl : l.Sound)
    (hs : IoSpdk.step p s l = some u) (h : Quiet s) : Quiet u := by
  have hbusy : ∀ {t pc}, (s.worker t).pc = pc → pc = .submit ∨ pc = .poll → False := by
    intro t pc hpc hbusy
    have := h.pc t
    rw [hpc] at this
    rcases hbusy with rfl | rfl <;> simp at this
  obtain ⟨-, ht, hmove⟩ := step_moves hs
  cases hmove with
  | crash l c _ hbad => exact absurd hl (hbad hgood)
  | start t hpc =>
    have henter : (s.worker t).enter p = { s.worker t with pc := .returned, j := 0, c := 0 } := by
      simp [Worker.enter, hcount]
    rw [henter]
    refine ⟨h.live, fun t' => ?_, fun t' => ?_⟩
    · by_cases ht' : t' = t
      · subst ht'
        simp [State.goto]
      · simpa [State.goto, ht'] using h.pc t'
    · by_cases ht' : t' = t
      · subst ht'
        simpa [State.goto] using h.sq t'
      · simpa [State.goto, ht'] using h.sq t'
  | submit t hpc => exact (hbusy hpc (.inl rfl)).elim
  | execute t q ok u hq he =>
    rw [h.sq t] at hq
    cases hq
  | overflow t done num u hpc _ _ => exact (hbusy hpc (.inr rfl)).elim
  | poll t done num u hpc _ => exact (hbusy hpc (.inr rfl)).elim

theorem toNat_ofInt (d : Int32) : (UInt64.ofInt d.toInt).toNat = (d.toInt % 2 ^ 64).toNat := by
  have hlt : (d.toInt % 2 ^ 64).toNat < 2 ^ 64 := by omega
  exact UInt64.toNat_ofNat_of_lt' hlt

theorem ofInt_ne_zero_iff (d : Int32) : UInt64.ofInt d.toInt ≠ 0 ↔ d.toInt ≠ 0 := by
  have hlo := Int32.le_toInt d
  have hhi := Int32.toInt_lt d
  rw [← toNat_pos_iff, toNat_ofInt]
  omega

/-- A negative depth becomes a divisor that no quotient comes up to. -/
theorem count_eq_zero {a : Args} (hdepth : a.ioDepth.toInt < 0) (hgood : a.params.Good) : a.params.count = 0 := by
  obtain ⟨h512, hb, -⟩ := hgood
  have hlo := Int32.le_toInt a.ioDepth
  have hblock : 512 ≤ a.blockSize.toNat := by
    have hmod : a.blockSize.toNat % 512 = 0 := by
      have := congrArg UInt64.toNat h512
      rwa [UInt64.toNat_mod] at this
    have hpos := toNat_pos_iff.mpr hb
    change 0 < a.blockSize.toNat at hpos
    omega
  have hquot : (a.totalSize / a.blockSize).toNat ≤ 2 ^ 55 := by
    rw [UInt64.toNat_div]
    refine Nat.le_trans (Nat.div_le_div_left hblock (by decide)) ?_
    have := a.totalSize.toNat_lt
    omega
  have hdivisor := toNat_ofInt a.ioDepth
  unfold Params.count Args.params
  rw [UInt64.toNat_div]
  refine Nat.div_eq_of_lt ?_
  dsimp only
  omega

/-! ## Which command lines are safe -/

theorem crash_eq_none {a : Args} (hgood : a.params.Good) {device : List UInt8} {s : State}
    (h : Reach (step a.params) Label.Sound (init device) s) : s.crash = none := by
  by_cases hdepth : a.ioDepth.toInt < 0
  · have hquiet : Quiet (init device) := ⟨rfl, fun _ => .inl rfl, fun _ => rfl⟩
    exact (h.invariant hquiet fun hl hs h => h.step (count_eq_zero hdepth hgood) hgood hl hs).live
  · have hdepth : 1 ≤ a.params.ioDepth := by
      have := (ofInt_ne_zero_iff a.ioDepth).mp hgood.2.2
      change 1 ≤ a.ioDepth.toInt
      omega
    have hint : a.params.ioDepth < 2 ^ 31 := Int32.toInt_lt a.ioDepth
    exact (h.invariant (exact_init a.params device) fun hl hs h => h.step hdepth hint hgood hl hs).live

/-- The first step of a thread shows what is wrong with the arguments. -/
theorem good_of_crash {a : Args} (hthreads : 0 < a.numThread.toInt.toNat)
    (h : ∀ s, Reach (step a.params) Label.Sound (init []) s → s.crash = none) : a.params.Good := by
  have hthread : ¬ a.params.numThread ≤ 0 := Nat.not_le.mpr hthreads
  have hstart : ∀ c, step a.params (init []) (.start 0 true) ≠ some ((init []).crashed c) := by
    intro c hs
    cases h _ (.next (l := .start 0 true) .refl rfl hs)
  by_cases h512 : a.params.blockSize % 512 = 0
  · by_cases hzero : a.params.blockSize = 0 ∨ UInt64.ofInt a.params.ioDepth = 0
    · exact absurd (by simp [step, init, Label.thread, hthread, h512, hzero]) (hstart .divisor)
    · exact ⟨h512, not_or.mp hzero⟩
  · exact absurd (by simp [step, init, Label.thread, hthread, h512]) (hstart .assertion)

theorem main_ok_iff {argv : List Text} (hargc : 6 ≤ argv.length) {a : Args} (hparse : parse argv = .ok a) :
    (∃ os, main argv = .ok os) ↔ ∀ i < a.numThread.toInt.toNat, i < 32 := by
  have hmain : main argv = (List.range a.numThread.toInt.toNat).mapM (threadOptions a) := by
    unfold main
    rw [if_neg (Nat.not_lt.mpr hargc), hparse]
    rfl
  rw [hmain]
  constructor
  · rintro ⟨os, hos⟩ i hi
    obtain ⟨o, _, ho⟩ := ok_of_mapM hos (List.mem_range.mpr hi)
    by_contra hge
    rw [threadOptions, if_pos (Nat.not_lt.mp hge)] at ho
    cases ho
  · intro hslots
    exact exists_mapM_ok fun i hi => ⟨_, if_neg (Nat.not_le.mpr (hslots i (List.mem_range.mp hi)))⟩

/-- **Safe command lines.** On a device on which nothing fails and calls count
commands, `main` stays inside `options` and no thread crashes exactly if there are
slots for the threads, the block size is not zero and, to write, it is whole
sectors and the depth is not zero. A negative depth is safe: nothing is written. -/
theorem main_safe_iff {argv : List Text} (hargc : 6 ≤ argv.length) {a : Args} (hparse : parse argv = .ok a) :
    (∃ os, main argv = .ok os) ∧ a.Runs ↔
      ∀ i < a.numThread.toInt.toNat, i < 32 ∧ a.blockSize ≠ 0 ∧
        (Workload.ofType a.type.toInt = some .DO_SW → a.blockSize % 512 = 0 ∧ a.ioDepth.toInt ≠ 0) := by
  rw [main_ok_iff hargc hparse]
  constructor
  · rintro ⟨hslots, hruns⟩ i hi
    have hthreads : 0 < a.numThread.toInt.toNat := by omega
    refine ⟨hslots i hi, ?_⟩
    unfold Args.Runs at hruns
    split at hruns
    · obtain ⟨h512, hb, hdepth⟩ := good_of_crash hthreads fun s hs => hruns [] s hs
      exact ⟨hb, fun _ => ⟨h512, (ofInt_ne_zero_iff a.ioDepth).mp hdepth⟩⟩
    · rename_i hother
      exact ⟨hruns.resolve_left (by omega), fun hw => absurd hw hother⟩
  · intro hsafe
    refine ⟨fun i hi => (hsafe i hi).1, ?_⟩
    unfold Args.Runs
    split
    · rename_i hw
      intro device s hs
      by_cases hthreads : a.numThread.toInt.toNat = 0
      · refine hs.invariant (P := fun s => s.crash = none) rfl fun _ hstep _ => ?_
        obtain ⟨-, ht, -⟩ := step_moves hstep
        exact absurd ht (by simp [Args.params, hthreads])
      · obtain ⟨-, hb, hseq⟩ := hsafe 0 (by omega)
        obtain ⟨h512, hdepth⟩ := hseq hw
        exact crash_eq_none ⟨h512, hb, (ofInt_ne_zero_iff a.ioDepth).mpr hdepth⟩ hs
    · by_cases hthreads : a.numThread.toInt.toNat = 0
      · exact .inl hthreads
      · exact .inr (hsafe 0 (by omega)).2.1

end IoTester.IoSpdk

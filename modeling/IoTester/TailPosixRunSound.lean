import IoTester.LatFile
import IoTester.TailPosixRun
import IoTester.TailPosixThreads

/-!
# What the threads of `tail_latency/posix.cc` leave behind

Each thread does what its worker does under the readings that the thread takes,
whatever the others do meanwhile, and saves what it has measured to a file that
no other thread writes.
-/

namespace IoTester.TailPosix

open Lib

/-! ## One pass after the other -/

theorem Task.run_eq (k : Task) (savePath : Text) (o : WorkerOptions) (m : Memory) (c : Clock) :
    k.run savePath o m c = worker k.op (k.skip o) k.tag savePath o m c := by
  cases k <;> rfl

/-- The loop of a worker up to the last of its readings. -/
def Clock.loop (k : Task) (o : WorkerOptions) (c : Clock) : Loop :=
  TailPosix.loop k.op (k.skip o) o c.ticks { timer := Timer.Start {} c.start }

section
variable (k : Task) (o : WorkerOptions)

theorem loop_cons (t : Tick) (ts : List Tick) (s : Loop) (hs : s.broke = false) :
    loop k.op (k.skip o) o (t :: ts) s =
      if (s.pass k o t).broke then s.pass k o t else loop k.op (k.skip o) o ts (s.pass k o t) := by
  rw [loop]
  simp only [Loop.pass]
  by_cases h : (s.issue k.op o t).timer.Get > o.runTime
  · simp [h]
  · have hbroke : (s.issue k.op o t).broke = false := hs
    simp [h, hbroke]

theorem loop_snoc (t : Tick) : ∀ (ts : List Tick) (s : Loop), s.broke = false →
    (loop k.op (k.skip o) o ts s).broke = false →
    loop k.op (k.skip o) o (ts ++ [t]) s = (loop k.op (k.skip o) o ts s).pass k o t := by
  intro ts
  induction ts with
  | nil =>
    intro s hs _
    rw [List.nil_append, loop_cons k o t [] s hs]
    simp [loop]
  | cons u ts ih =>
    intro s hs h
    rw [loop_cons k o u ts s hs] at h
    rw [List.cons_append, loop_cons k o u _ s hs, loop_cons k o u ts s hs]
    by_cases hu : (s.pass k o u).broke = true
    · rw [if_pos hu, hu] at h
      cases h
    · rw [if_neg hu] at h
      rw [if_neg hu, if_neg hu]
      exact ih _ (by simpa using hu) h

theorem pos_pass (s : Loop) (t : Tick) (h : s.pos ≤ o.fileSize) : (s.pass k o t).pos ≤ o.fileSize := by
  simp only [Loop.pass]
  by_cases hover : (s.issue k.op o t).timer.Get > o.runTime
  · rw [if_pos hover]
    exact h
  · rw [if_neg hover]
    simp only [advance]
    by_cases hpos : (s.issue k.op o t).pos + k.skip o > o.fileSize
    · simp [hpos]
    · rw [if_neg hpos]
      exact UInt64.not_lt.mp hpos

end

/-! ## Steps -/

/-- The steps of the thread `t`, which is `th`. -/
inductive Moves (savePath : Text) (s : State) (t : Nat) (th : Thread) : State → Prop
  | skip (hpc : (s.worker t).pc = .created) (hk : th.task = none) :
      Moves savePath s t th (s.goto t { s.worker t with pc := .returned })
  | enter (m : Memory) (now : Timespec) (k : Task) (hpc : (s.worker t).pc = .created) (hk : th.task = some k)
      (hm : crashes k.op th.options m = false) :
      Moves savePath s t th (s.goto t { s.worker t with
        pc := .loop, loop := { timer := Timer.Start {} now }, memory := m, clock := ⟨now, []⟩ })
  | pass (tick : Tick) (n : Nat) (k : Task) (hpc : (s.worker t).pc = .loop) (hk : th.task = some k) :
      Moves savePath s t th
        ((s.transfer th k (s.worker t).loop.pos n).goto t ((s.worker t).passed k th.options tick))
  | create (k : Task) (hpc : (s.worker t).pc = .save) (hk : th.task = some k) :
      Moves savePath s t th ({ s with
        saved := Function.update s.saved (Detail.path savePath (latName k th.options)) (some []) }.goto t
          { s.worker t with pc := .line 0, opened := true })
  | refused (k : Task) (hpc : (s.worker t).pc = .save) (hk : th.task = some k) :
      Moves savePath s t th (s.goto t { s.worker t with pc := .report })
  | line (i : Nat) (k : Task) (v : UInt64) (hpc : (s.worker t).pc = .line i) (hk : th.task = some k)
      (hv : (s.worker t).loop.vecLatency[i]? = some v) (hi : i + 1 < 2 ^ 31) :
      Moves savePath s t th ({ s with
        saved := Function.update s.saved (Detail.path savePath (latName k th.options))
          ((s.saved (Detail.path savePath (latName k th.options))).map (· ++ decN v.toNat ++ ['\n'])) }.goto t
          { s.worker t with pc := .line (i + 1) })
  | close (i : Nat) (k : Task) (hpc : (s.worker t).pc = .line i) (hk : th.task = some k)
      (hi : (s.worker t).loop.vecLatency.length ≤ i) :
      Moves savePath s t th (s.goto t { s.worker t with pc := .report })
  | report (k : Task) (hpc : (s.worker t).pc = .report) (hk : th.task = some k) :
      Moves savePath s t th (s.goto t { s.worker t with
        pc := .returned
        report := some (TailPosix.report savePath k.tag th.options (s.worker t).loop.vecLatency) })

theorem step_moves {threads : List Thread} {savePath : Text} {s u : State} {l : Label}
    (h : step threads savePath s l = some u) :
    ∃ th, threads[l.thread]? = some th ∧ Moves savePath s l.thread th u := by
  unfold step at h
  cases hth : threads[l.thread]? with
  | none =>
    rw [hth] at h
    cases h
  | some th =>
    simp only [hth] at h
    refine ⟨th, rfl, ?_⟩
    split at h
    · rename_i hk hpc
      cases h
      exact .skip hpc hk
    · rename_i hk hpc
      split at h
      · cases h
      · rename_i hm
        cases h
        exact .enter _ _ _ hpc hk (Bool.eq_false_iff.mpr hm)
    · rename_i hk hpc
      cases h
      exact .pass _ _ _ hpc hk
    · rename_i hk hpc
      split at h
      · cases h
      · split at h
        · rename_i ho
          cases h
          rw [ho]
          exact .create _ hpc hk
        · cases h
          exact .refused _ hpc hk
    · rename_i hk hpc
      split at h
      · cases h
      · rename_i v hv
        split at h
        · cases h
        · rename_i hi
          cases h
          exact .line _ _ v hpc hk hv (Nat.lt_of_not_le hi)
    · rename_i hk hpc
      split at h
      · cases h
      · rename_i hi
        cases h
        exact .close _ _ hpc hk (Nat.le_of_not_lt hi)
    · rename_i hk hpc
      cases h
      exact .report _ hpc hk
    · cases h

section
variable {s : State} {th : Thread} {k : Task} {pos : UInt64} {n : Nat}

@[simp] theorem saved_transfer : (s.transfer th k pos n).saved = s.saved := by
  unfold State.transfer State.wrote
  split
  · split <;> rfl
  · rfl

theorem worker_transfer : (s.transfer th k pos n).worker = s.worker := by
  unfold State.transfer State.wrote
  split
  · split <;> rfl
  · rfl

end

/-! ## A thread and its file -/

def lines (v : List UInt64) : Text := v.flatMap fun v => decN v.toNat ++ ['\n']

theorem lines_take_succ {v : List UInt64} {i : Nat} {x : UInt64} (h : v[i]? = some x) :
    lines (v.take (i + 1)) = lines (v.take i) ++ decN x.toNat ++ ['\n'] := by
  have hx : v.take (i + 1) = v.take i ++ [x] := by
    rw [List.take_add_one, h, Option.toList_some]
  rw [hx]
  simp [lines]

theorem resultOutput_eq {v : List UInt64} (h : v.length < 2 ^ 31) : resultOutput v = lines v := by
  rw [resultOutput, decLines, List.take_of_length_le (Nat.le_of_lt h)]
  rfl

/-- The loop is over. -/
def Pc.ended : Pc → Bool
  | .created | .loop => false
  | .save | .line _ | .report | .returned => true

/-- The file was to be opened. -/
def Pc.saving : Pc → Bool
  | .created | .loop | .save => false
  | .line _ | .report | .returned => true

/-- The lines of the file that are written, of `n` in all. -/
def Pc.lines (n : Nat) : Pc → Nat
  | .line i => i
  | _ => n

/-- A thread has done what its worker does with the memory and under the readings
that it has got, and the file has the lines that it has written so far. -/
structure Worker.Follows (savePath : Text) (k : Task) (o : WorkerOptions) (before file : Option Text) (w : Worker) :
    Prop where
  fresh : w.pc = .created → w.loop = {}
  buffer : w.pc ≠ .created → crashes k.op o w.memory = false
  ran : w.loop = w.clock.loop k o
  ended : w.loop.broke = w.pc.ended
  pos : w.loop.pos ≤ o.fileSize
  saving : w.opened = true → w.pc.saving = true
  kept : w.opened = false → file = before
  text : w.opened = true → file = some (lines (w.loop.vecLatency.take (w.pc.lines w.loop.vecLatency.length)))
  fits : w.opened = true → w.pc.lines w.loop.vecLatency.length < 2 ^ 31
  inside : ∀ i, w.pc = .line i → w.opened = true ∧ i ≤ w.loop.vecLatency.length
  report : w.pc = .returned → w.report = some (TailPosix.report savePath k.tag o w.loop.vecLatency)

namespace Worker.Follows

variable {savePath : Text} {k : Task} {o : WorkerOptions} {before file : Option Text} {w : Worker}

theorem init : Worker.Follows savePath k o before before {} := by
  refine ⟨fun _ => rfl, by simp, rfl, rfl, ?_, ?_, fun _ => rfl, ?_, ?_, ?_, ?_⟩
  · exact UInt64.zero_le
  all_goals simp

section
variable (h : w.Follows savePath k o before file)
include h

theorem closed (hpc : w.pc.saving = false) : w.opened = false := by
  cases ho : w.opened with
  | false => rfl
  | true =>
    have := h.saving ho
    rw [hpc] at this
    cases this

theorem enter {m : Memory} (now : Timespec) (hpc : w.pc = .created) (hm : crashes k.op o m = false) :
    Worker.Follows savePath k o before file
      { w with pc := .loop, loop := { timer := Timer.Start {} now }, memory := m, clock := ⟨now, []⟩ } := by
  have hopen : w.opened = false := h.closed (by rw [hpc]; rfl)
  refine ⟨by simp, fun _ => hm, rfl, rfl, ?_, ?_, h.kept, ?_, ?_, ?_, ?_⟩
  · exact UInt64.zero_le
  all_goals simp [hopen]

theorem pass (tick : Tick) (hpc : w.pc = .loop) :
    Worker.Follows savePath k o before file (w.passed k o tick) := by
  have hopen : w.opened = false := h.closed (by rw [hpc]; rfl)
  have hgoing : w.loop.broke = false := by rw [h.ended, hpc]; rfl
  unfold Worker.passed
  refine ⟨?_, fun _ => h.buffer (by simp [hpc]), ?_, ?_, pos_pass k o _ tick h.pos, ?_, h.kept, ?_, ?_, ?_, ?_⟩
  · cases hb : (w.loop.pass k o tick).broke <;> simp [hb]
  · simp only [h.ran] at hgoing ⊢
    exact (loop_snoc k o tick _ _ rfl hgoing).symm
  · cases hb : (w.loop.pass k o tick).broke <;> simp [hb, Pc.ended]
  · simp [hopen]
  · simp [hopen]
  · simp [hopen]
  · intro i
    cases hb : (w.loop.pass k o tick).broke <;> simp [hb]
  · cases hb : (w.loop.pass k o tick).broke <;> simp [hb]

theorem create (hpc : w.pc = .save) :
    Worker.Follows savePath k o before (some []) { w with pc := .line 0, opened := true } := by
  refine ⟨by simp, fun _ => h.buffer (by simp [hpc]), h.ran, ?_, h.pos, ?_, ?_, ?_, ?_, ?_, ?_⟩
  · rw [h.ended, hpc]
    rfl
  all_goals simp [Pc.saving, Pc.lines, lines]

theorem refused (hpc : w.pc = .save) : Worker.Follows savePath k o before file { w with pc := .report } := by
  have hopen : w.opened = false := h.closed (by rw [hpc]; rfl)
  refine ⟨by simp, fun _ => h.buffer (by simp [hpc]), h.ran, ?_, h.pos, ?_, h.kept, ?_, ?_, ?_, ?_⟩
  · rw [h.ended, hpc]
    rfl
  all_goals simp [hopen]

theorem line {i : Nat} {v : UInt64} (hpc : w.pc = .line i) (hv : w.loop.vecLatency[i]? = some v)
    (hi : i + 1 < 2 ^ 31) : Worker.Follows savePath k o before (file.map (· ++ decN v.toNat ++ ['\n']))
      { w with pc := .line (i + 1) } := by
  obtain ⟨hopen, -⟩ := h.inside i hpc
  refine ⟨by simp, fun _ => h.buffer (by simp [hpc]), h.ran, ?_, h.pos, ?_, ?_, ?_, ?_, ?_, ?_⟩
  · rw [h.ended, hpc]
    rfl
  · intro _
    rfl
  · simp [hopen]
  · intro _
    have htext := h.text hopen
    rw [hpc] at htext
    rw [htext]
    exact congrArg some (lines_take_succ hv).symm
  · intro _
    exact hi
  · intro j hj
    cases hj
    exact ⟨hopen, (List.getElem?_eq_some_iff.mp hv).1⟩
  · simp

theorem close {i : Nat} (hpc : w.pc = .line i) (hi : w.loop.vecLatency.length ≤ i) :
    Worker.Follows savePath k o before file { w with pc := .report } := by
  obtain ⟨hopen, hle⟩ := h.inside i hpc
  have heq : i = w.loop.vecLatency.length := Nat.le_antisymm hle hi
  have htext := h.text hopen
  have hfits := h.fits hopen
  rw [hpc, heq] at htext hfits
  refine ⟨by simp, fun _ => h.buffer (by simp [hpc]), h.ran, ?_, h.pos, ?_, h.kept, ?_, ?_, ?_, ?_⟩
  · rw [h.ended, hpc]
    rfl
  · intro _
    rfl
  · intro _
    exact htext
  · intro _
    exact hfits
  · simp
  · simp

theorem reported (hpc : w.pc = .report) : Worker.Follows savePath k o before file
    { w with pc := .returned, report := some (TailPosix.report savePath k.tag o w.loop.vecLatency) } := by
  have htext := h.text
  have hfits := h.fits
  rw [hpc] at htext hfits
  refine ⟨by simp, fun _ => h.buffer (by simp [hpc]), h.ran, ?_, h.pos, ?_, h.kept, htext, hfits, ?_, ?_⟩
  · rw [h.ended, hpc]
    rfl
  · intro _
    rfl
  · simp
  · simp

end

section
variable (h : w.Follows savePath k o before file)
include h

/-- Before its first step, a thread has the loop of a worker that crashes. -/
theorem loop_run : (k.run savePath o w.memory w.clock).loop = w.loop := by
  rw [Task.run_eq, worker]
  cases hc : crashes k.op o w.memory with
  | true =>
    have hpc : w.pc = .created := by
      by_contra hpc
      rw [h.buffer hpc] at hc
      cases hc
    rw [h.fresh hpc]
    rfl
  | false =>
    rw [h.ran]
    rfl

theorem run_eq (hpc : w.pc = .returned) : k.run savePath o w.memory w.clock =
    { loop := w.loop, report := some (TailPosix.report savePath k.tag o w.loop.vecLatency) } := by
  have hbroke : w.loop.broke = true := by rw [h.ended, hpc]; rfl
  have hloop := h.ran
  unfold Clock.loop at hloop
  rw [Task.run_eq, worker, if_neg (by simp [h.buffer (by simp [hpc])])]
  simp only [← hloop, hbroke, if_true]

end

/-- The file of a thread that has returned. -/
theorem file_eq (h : w.Follows savePath k o before file) (hpc : w.pc = .returned) (hopen : w.opened = true) :
    w.loop.vecLatency.length < 2 ^ 31 ∧ file = some (resultOutput w.loop.vecLatency) := by
  have htext := h.text hopen
  have hfits := h.fits hopen
  rw [hpc] at htext hfits
  refine ⟨hfits, ?_⟩
  rw [htext, resultOutput_eq hfits]
  simp [Pc.lines]

end Worker.Follows

/-! ## All threads -/

/-- No two threads save to one file. -/
def Apart (threads : List Thread) : Prop :=
  ∀ ⦃t t' : Nat⦄ ⦃th th' : Thread⦄ ⦃k k' : Task⦄, threads[t]? = some th → threads[t']? = some th' →
    latName k th.options = latName k' th'.options → t = t'

structure Inv (threads : List Thread) (savePath : Text) (saved : Detail.Files) (s : State) : Prop where
  follows : ∀ ⦃t : Nat⦄ ⦃th : Thread⦄ ⦃k : Task⦄, threads[t]? = some th → th.task = some k →
    (s.worker t).Follows savePath k th.options (saved (Detail.path savePath (latName k th.options)))
      (s.saved (Detail.path savePath (latName k th.options)))
  other : ∀ file, (∀ (t : Nat) (th : Thread) (k : Task), threads[t]? = some th → th.task = some k →
    file ≠ Detail.path savePath (latName k th.options)) → s.saved file = saved file

namespace Inv

variable {threads : List Thread} {savePath : Text} {saved : Detail.Files} {s u : State} {t : Nat} {th : Thread}
variable {k : Task} {w : Worker}

theorem init (disk : Disk) : Inv threads savePath saved { disk, saved } :=
  ⟨fun _ _ _ _ _ => Worker.Follows.init, fun _ _ => rfl⟩

variable (hapart : Apart threads) (h : Inv threads savePath saved s) (ht : threads[t]? = some th)
include h ht

/-- A step of a thread changes the thread and its own file. -/
theorem update (hk : th.task = some k) (hw : u.worker = Function.update s.worker t w)
    (hother : ∀ file, file ≠ Detail.path savePath (latName k th.options) → u.saved file = s.saved file)
    (hf : w.Follows savePath k th.options (saved (Detail.path savePath (latName k th.options)))
      (u.saved (Detail.path savePath (latName k th.options)))) (hapart : Apart threads) :
    Inv threads savePath saved u := by
  refine ⟨?_, ?_⟩
  · intro t' th' k' ht' hk'
    rw [hw]
    by_cases heq : t' = t
    · subst heq
      rw [ht] at ht'
      cases ht'
      rw [hk] at hk'
      cases hk'
      simpa using hf
    · rw [Function.update_of_ne heq, hother]
      · exact h.follows ht' hk'
      · intro hpath
        exact heq (hapart ht' ht (Detail.path_inj hpath))
  · intro file hfile
    rw [hother file (hfile t th k ht hk)]
    exact h.other file hfile

theorem goto (hk : th.task = some k)
    (hf : w.Follows savePath k th.options (saved (Detail.path savePath (latName k th.options)))
      (s.saved (Detail.path savePath (latName k th.options)))) (hapart : Apart threads) :
    Inv threads savePath saved (s.goto t w) :=
  h.update ht hk rfl (fun _ _ => rfl) hf hapart

include hapart in
theorem moves (hm : Moves savePath s t th u) : Inv threads savePath saved u := by
  cases hm with
  | skip hpc hk =>
    refine ⟨?_, h.other⟩
    intro t' th' k' ht' hk'
    by_cases heq : t' = t
    · subst heq
      rw [ht] at ht'
      cases ht'
      rw [hk] at hk'
      cases hk'
    · simpa [State.goto, heq] using h.follows ht' hk'
  | enter m now k hpc hk hm => exact h.goto ht hk ((h.follows ht hk).enter now hpc hm) hapart
  | pass tick n k hpc hk =>
    refine h.update ht hk (congrArg (Function.update · t _) worker_transfer) (fun _ _ => by simp [State.goto]) ?_ hapart
    simpa [State.goto] using (h.follows ht hk).pass tick hpc
  | create k hpc hk =>
    refine h.update ht hk rfl (fun file hne => Function.update_of_ne hne ..) ?_ hapart
    simpa [State.goto] using (h.follows ht hk).create hpc
  | refused k hpc hk => exact h.goto ht hk ((h.follows ht hk).refused hpc) hapart
  | line i k v hpc hk hv hi =>
    refine h.update ht hk rfl (fun file hne => Function.update_of_ne hne ..) ?_ hapart
    simpa [State.goto] using (h.follows ht hk).line hpc hv hi
  | close i k hpc hk hi => exact h.goto ht hk ((h.follows ht hk).close hpc hi) hapart
  | report k hpc hk => exact h.goto ht hk ((h.follows ht hk).reported hpc) hapart

end Inv

theorem Inv.reach {threads : List Thread} (hapart : Apart threads) {savePath : Text} {saved : Detail.Files} {disk : Disk}
    {s : State} {ok : Label → Prop} (h : Reach (step threads savePath) ok { disk, saved } s) :
    Inv threads savePath saved s := by
  refine h.invariant (Inv.init disk) ?_
  intro a b l _ hs ha
  obtain ⟨th, ht, hm⟩ := step_moves hs
  exact ha.moves hapart ht hm

/-! ## The threads that `main` starts -/

theorem decN_takeWhile (n : Nat) {c : Char} (hc : c.isDigit = false) (t : Text) :
    (decN n ++ c :: t).takeWhile Char.isDigit = decN n := by
  have hdigits : ∀ d ∈ decN n, d.isDigit = true := fun d hd => isDigit_of_mem_decN hd
  rw [List.takeWhile_append_of_pos hdigits]
  simp [hc]

theorem latName_start {k : Task} {o : WorkerOptions} {i : Nat} (h : o.threadId = i) :
    (latName k o).takeWhile Char.isDigit = decN i := by
  have htag : ∃ t, k.tag = '_' :: t := by cases k <;> exact ⟨_, rfl⟩
  obtain ⟨t, ht⟩ := htag
  have hdec : decI (i : Int) = decN i := rfl
  rw [latName, h, hdec, ht, List.append_assoc, List.append_assoc, List.cons_append]
  exact decN_takeWhile i (by decide) _

theorem getElem?_threads {openFile : Text → Int} {a : Args} {n t : Nat} {th : Thread}
    (h : ((List.range n).map (thread openFile a))[t]? = some th) : t < n ∧ th = thread openFile a t := by
  simp only [List.getElem?_map, Option.map_eq_some_iff] at h
  obtain ⟨j, hj, rfl⟩ := h
  obtain ⟨hlt, rfl⟩ := List.getElem?_eq_some_iff.mp hj
  rw [List.length_range] at hlt
  rw [List.getElem_range]
  exact ⟨hlt, rfl⟩

theorem apart_threads (openFile : Text → Int) (a : Args) (n : Nat) :
    Apart ((List.range n).map (thread openFile a)) := by
  intro t t' th th' k k' ht ht' he
  obtain ⟨-, rfl⟩ := getElem?_threads ht
  obtain ⟨-, rfl⟩ := getElem?_threads ht'
  have hstart := congrArg (List.takeWhile Char.isDigit) he
  rw [latName_start (i := t) rfl, latName_start (i := t') rfl] at hstart
  exact decN_inj hstart

theorem parse_of_main {openFile : Text → Int} {argv : List Text} {threads : List Thread} (hargc : 10 ≤ argv.length)
    (h : main openFile argv = .ok threads) : ∃ a, parse argv = .ok a := by
  unfold main at h
  rw [if_neg (Nat.not_lt.mpr hargc)] at h
  obtain ⟨a, ha, -⟩ := Lib.bind_eq_ok.mp h
  exact ⟨a, ha⟩

theorem apart_of_main {openFile : Text → Int} {argv : List Text} {threads : List Thread}
    (h : main openFile argv = .ok threads) : Apart threads := by
  by_cases hargc : argv.length < 10
  · unfold main at h
    rw [if_pos hargc] at h
    cases h
    intro t t' th th' k k' ht
    simp at ht
  · have hargc := Nat.le_of_not_lt hargc
    obtain ⟨a, ha⟩ := parse_of_main hargc h
    obtain ⟨n, -, -, rfl⟩ := (main_eq_ok_iff hargc ha).mp h
    exact apart_threads openFile a n.toNat

theorem saveFilePath_report (savePath : Text) (k : Task) (o : WorkerOptions) (v : List UInt64) :
    (report savePath k.tag o v).saveFilePath = Detail.path savePath (latName k o) := by
  simp [report, Detail.path, latName]

/-- **Refinement.** Whatever the threads do side by side, each of them has done
what its worker alone does with the memory and under the readings that it has
got. One that has returned has printed what the worker prints, and unless its
`ofstream` was not opened the file has the text that the worker saves. -/
theorem refines_task {openFile : Text → Int} {argv : List Text} {threads : List Thread}
    (hmain : main openFile argv = .ok threads) (savePath : Text) (disk : Disk) (saved : Detail.Files) {s : State}
    (h : Reach (step threads savePath) (fun _ => True) { disk, saved } s) {t : Nat} {th : Thread} {k : Task}
    (ht : threads[t]? = some th) (hk : th.task = some k) :
    (k.run savePath th.options (s.worker t).memory (s.worker t).clock).loop = (s.worker t).loop ∧
      ((s.worker t).pc = .returned → ∃ r, (s.worker t).report = some r ∧
        k.run savePath th.options (s.worker t).memory (s.worker t).clock = { loop := (s.worker t).loop, report := some r } ∧
        ((s.worker t).opened = true → s.saved r.saveFilePath = some r.saved)) := by
  have hfollows := (Inv.reach (apart_of_main hmain) h).follows ht hk
  refine ⟨hfollows.loop_run, fun hpc => ⟨_, hfollows.report hpc, hfollows.run_eq hpc, fun hopen => ?_⟩⟩
  obtain ⟨-, hfile⟩ := hfollows.file_eq hpc hopen
  rw [saveFilePath_report, hfile]
  rfl

def oneAndOne : List Text :=
  [['p'], ['/', 'd'], ['1'], ['1'], ['0'], ['1'], ['4', '0', '9', '6'], ['1'], ['1'], ['4', '0', '9', '6']]

def pairArgs : Args := ⟨['/', 'd'], 1073741824, 1, 0, 1, 4096, 1, 1, 4096⟩

def pair : List Thread := (List.range 2).map (thread (fun _ => 3) pairArgs)

theorem main_pair : main (fun _ => 3) oneAndOne = .ok pair := by decide +kernel

/-- A writer and a reader take turns; the reader saves first. -/
def takeTurns : List Label :=
  [.enter 1 (some 8192) ⟨1, 0⟩, .enter 0 (some 4096) ⟨1, 10⟩, .pass 1 ⟨⟨1, 20⟩, ⟨1, 25⟩, ⟨1, 30⟩⟩ 0,
    .pass 0 ⟨⟨1, 20⟩, ⟨3, 0⟩, ⟨3, 10⟩⟩ 4096, .create 0 true, .pass 1 ⟨⟨1, 40⟩, ⟨3, 0⟩, ⟨3, 20⟩⟩ 0, .create 1 true, .line 1,
    .line 0, .line 1, .close 1, .report 1, .close 0, .report 0]

theorem refines_task_take_turns : ∃ s,
    Reach (step pair ['r']) (fun _ => True) { disk := fun _ => none, saved := fun _ => none } s ∧
      (Task.randread.run ['r'] (thread (fun _ => 3) pairArgs 1).options (s.worker 1).memory (s.worker 1).clock).loop =
        (s.worker 1).loop ∧
      s.saved ['r', '/', '1', '_', 'r', 'r', '_', '4', '0', '9', '6', '.', 'l', 'a', 't'] =
        some ['5', '\n', '1', '9', '9', '9', '9', '9', '9', '9', '6', '0', '\n'] := by
  obtain ⟨s, hrun, hs⟩ : ∃ s,
      Reach (step pair ['r']) (fun _ => True) { disk := fun _ => none, saved := fun _ => none } s ∧
        decide (s.saved ['r', '/', '1', '_', 'r', 'r', '_', '4', '0', '9', '6', '.', 'l', 'a', 't'] =
          some ['5', '\n', '1', '9', '9', '9', '9', '9', '9', '9', '6', '0', '\n']) = true :=
    Reach.of_check takeTurns (fun _ _ => trivial) (by decide +kernel)
  exact ⟨s, hrun, (refines_task main_pair _ _ _ hrun rfl rfl).1, of_decide_eq_true hs⟩

end IoTester.TailPosix

import IoTester.TailPosixResults

/-!
# The threads of `tail_latency/posix.cc` come to an end

A pass takes some time, so the number of passes is bounded by the run time. As
long as the lines of a file can be counted by an `int`, no thread ever gets
stuck: every path fits its buffer, and each thread can go on until it returns.
-/

namespace IoTester.TailPosix

open Lib

/-! ## The number of passes -/

/-- Each pass takes at least `d` nanoseconds. -/
def Paced (d : Nat) : Int → List Tick → Prop
  | _, [] => True
  | r, t :: ts => r + d ≤ t.total.ns ∧ Paced d t.total.ns ts

/-- The readings of a thread whose passes take at least `d` nanoseconds. -/
structure Clock.Steady (d : Nat) (c : Clock) : Prop where
  paced : Paced d c.start.ns c.ticks
  span : ∀ t ∈ c.ticks, t.total.ns - c.start.ns < 2 ^ 63

theorem Paced.le {d : Nat} {ts : List Tick} : ∀ {r : Int} {init rest : List Tick} {last : Tick},
    Paced d r ts → ts = init ++ last :: rest → r + (init.length + 1) * d ≤ last.total.ns := by
  induction ts with
  | nil =>
    intro r init rest last _ h
    simp at h
  | cons t ts ih =>
    intro r init rest last hp h
    obtain ⟨hle, hp⟩ := hp
    cases init with
    | nil =>
      cases h
      simpa using hle
    | cons u init =>
      cases h
      have hrest := ih hp rfl
      have hmul : ((t :: init).length + 1 : Int) * d = (init.length + 1) * d + d := by
        rw [List.length_cons, Nat.cast_succ, Int.add_mul _ 1, Int.one_mul]
      omega

theorem Clock.Steady.elapsed {d : Nat} {c : Clock} (h : c.Steady d) {init rest : List Tick} {last : Tick}
    (hticks : c.ticks = init ++ last :: rest) {x : UInt64} (hx : ¬ c.start.elapsedTo last.total > x) :
    (init.length + 1) * d ≤ x.toNat := by
  have hpaced := h.paced.le hticks
  have hspan := h.span last (by simp [hticks])
  have hle : (c.start.elapsedTo last.total).toNat ≤ x.toNat := UInt64.le_iff_toNat_le.mp (UInt64.not_lt.mp hx)
  have hd : (0 : Int) ≤ (init.length + 1) * d := by positivity
  have hexact := Timespec.toNat_elapsedTo (a := c.start) (b := last.total) (by omega) hspan
  have hcast : (((init.length + 1) * d : Nat) : Int) = (init.length + 1) * d := by push_cast; rfl
  omega

/-- As long as the loop goes on, the run time is not over. -/
theorem loop_going (k : Task) (o : WorkerOptions) : ∀ (ts : List Tick) (s : Loop), s.broke = false →
    (loop k.op (k.skip o) o ts s).broke = false →
    (loop k.op (k.skip o) o ts s).vecLatency.length = s.vecLatency.length + ts.length ∧
      ∀ t ∈ ts, ¬ s.timer.start.elapsedTo t.total > o.runTime := by
  intro ts
  induction ts with
  | nil =>
    intro s _ _
    simp [loop]
  | cons t ts ih =>
    intro s hs h
    have hgo : ¬ (s.issue k.op o t).timer.Get > o.runTime := by
      intro hover
      simp [loop, hover] at h
    simp only [loop, hgo, if_false] at h ⊢
    obtain ⟨hlen, hall⟩ := ih _ (by exact hs) h
    refine ⟨?_, ?_⟩
    · rw [hlen]
      simp only [Loop.issue, List.length_append, List.length_cons, List.length_nil]
      omega
    · intro u hu
      rcases List.mem_cons.mp hu with rfl | hu
      · exact hgo
      · exact hall u hu

/-- A run of `n` passes has lasted `n - 1` of them when the last one begins. -/
theorem Clock.Steady.passes_le {d : Nat} {c : Clock} (h : c.Steady d) (k : Task) (o : WorkerOptions) :
    ((c.loop k o).vecLatency.length - 1) * d ≤ o.runTime.toNat := by
  have hback : ∀ {init rest : List Tick}, c.ticks = init ++ rest →
      (∀ t ∈ init, ¬ c.start.elapsedTo t.total > o.runTime) → init.length * d ≤ o.runTime.toNat := by
    intro init rest hticks hbefore
    rcases List.eq_nil_or_concat init with rfl | ⟨init, last, rfl⟩
    · simp
    · rw [List.concat_eq_append] at hticks hbefore ⊢
      rw [List.append_assoc] at hticks
      rw [List.length_append]
      exact h.elapsed hticks (hbefore last (by simp))
  cases hb : (c.loop k o).broke with
  | true =>
    obtain ⟨init, last, rest, hticks, hends⟩ := loop_broke _ _ _ _ _ rfl hb
    have hlen : (c.loop k o).vecLatency.length = init.length + 1 := by
      unfold Clock.loop
      rw [hends.vec]
      simp
    rw [hlen]
    exact hback hticks hends.before
  | false =>
    obtain ⟨hlen, hall⟩ := loop_going k o _ _ rfl hb
    have hlen : (c.loop k o).vecLatency.length = c.ticks.length := by
      unfold Clock.loop
      rw [hlen]
      simp
    rw [hlen]
    exact Nat.le_trans (Nat.mul_le_mul_right d (Nat.sub_le ..)) (hback (List.append_nil _).symm hall)

/-! ## Going on -/

theorem Paced.snoc {d : Nat} {t : Tick} : ∀ {ts : List Tick} {r : Int}, Paced d r ts → r + d ≤ t.total.ns →
    (∀ u ∈ ts, u.total.ns + d ≤ t.total.ns) → Paced d r (ts ++ [t]) := by
  intro ts
  induction ts with
  | nil =>
    intro r _ hr _
    exact ⟨hr, trivial⟩
  | cons u ts ih =>
    intro r hp _ hall
    refine ⟨hp.1, ih hp.2 (hall u List.mem_cons_self) ?_⟩
    intro v hv
    exact hall v (List.mem_cons_of_mem u hv)

theorem start_loop (k : Task) (o : WorkerOptions) : ∀ (ts : List Tick) (s : Loop),
    (loop k.op (k.skip o) o ts s).timer.start = s.timer.start := by
  intro ts
  induction ts with
  | nil =>
    intro s
    rfl
  | cons t ts ih =>
    intro s
    simp only [loop]
    split
    · rfl
    · rw [ih]
      rfl

/-- While the run time is not over, a steady clock can show a time beyond it. -/
theorem Clock.Steady.later {d : Nat} {c : Clock} (h : c.Steady d) {k : Task} {o : WorkerOptions}
    (htime : o.runTime.toNat + d + 1 < 2 ^ 63) (hgo : (c.loop k o).broke = false) :
    ∃ tick : Tick, c.start.elapsedTo tick.total > o.runTime ∧ Clock.Steady d { c with ticks := c.ticks ++ [tick] } := by
  let now : Timespec := ⟨c.start.sec, c.start.nsec + (o.runTime.toNat + d + 1)⟩
  have hnow : now.ns - c.start.ns = o.runTime.toNat + d + 1 := by
    simp only [now, Timespec.ns]
    omega
  have hbefore : ∀ t ∈ c.ticks, t.total.ns + d ≤ now.ns := by
    intro t ht
    have hgoing := (loop_going k o _ _ rfl hgo).2 t ht
    have hle : (c.start.elapsedTo t.total).toNat ≤ o.runTime.toNat :=
      UInt64.le_iff_toNat_le.mp (UInt64.not_lt.mp hgoing)
    obtain ⟨init, rest, hticks⟩ := List.append_of_mem ht
    have hpaced := h.paced.le hticks
    have hd : (0 : Int) ≤ (init.length + 1) * d := by positivity
    have hexact := Timespec.toNat_elapsedTo (a := c.start) (b := t.total) (by omega) (h.span t ht)
    omega
  refine ⟨⟨now, now, now⟩, ?_, ?_, ?_⟩
  · have hexact := Timespec.toNat_elapsedTo (a := c.start) (b := now) (by omega) (by omega)
    rw [gt_iff_lt, UInt64.lt_iff_toNat_lt]
    simp only
    omega
  · refine h.paced.snoc ?_ hbefore
    simp only
    omega
  · intro t ht
    rcases List.mem_append.mp ht with ht | ht
    · exact h.span t ht
    · rw [List.mem_singleton.mp ht]
      simp only
      omega

section
variable (threads : List Thread) (savePath : Text) (memory : Nat → Memory) (d : Nat)

/-- The thread can return while the others stand still. -/
def CanReturn (s : State) (t : Nat) : Prop :=
  ∃ u, Reach (step threads savePath) (Label.From memory) s u ∧ (u.worker t).pc = .returned ∧
    (u.worker t).clock.Steady d ∧ ∀ t', t' ≠ t → u.worker t' = s.worker t'

variable {threads savePath memory d} {s : State} {t : Nat} {th : Thread} {k : Task}

theorem CanReturn.of_step {u : State} {l : Label} (hs : step threads savePath s l = some u) (hl : l.From memory)
    (hothers : ∀ t', t' ≠ t → u.worker t' = s.worker t') (h : CanReturn threads savePath memory d u t) :
    CanReturn threads savePath memory d s t := by
  obtain ⟨v, hreach, hpc, hsteady, hv⟩ := h
  refine ⟨v, (Reach.next .refl hl hs).trans hreach, hpc, hsteady, ?_⟩
  intro t' ht'
  rw [hv t' ht', hothers t' ht']

variable (ht : threads[t]? = some th)
include ht

theorem canReturn_no_task (hk : th.task = none) (hpc : (s.worker t).pc = .created)
    (hsteady : (s.worker t).clock.Steady d) : CanReturn threads savePath memory d s t := by
  have hs : step threads savePath s (.enter t (memory t) default) =
      some (s.goto t { s.worker t with pc := .returned }) := by
    simp [step, Label.thread, ht, hk, hpc]
  refine ⟨_, .next .refl (l := .enter t (memory t) default) rfl hs, ?_, ?_, ?_⟩
  · simp [State.goto]
  · simpa [State.goto] using hsteady
  · intro t' ht'
    simp [State.goto, ht']

variable (hk : th.task = some k)
include hk

theorem canReturn_report (hpc : (s.worker t).pc = .report) (hsteady : (s.worker t).clock.Steady d) :
    CanReturn threads savePath memory d s t := by
  have hs : step threads savePath s (.report t) = some (s.goto t { s.worker t with
      pc := .returned
      report := some (TailPosix.report savePath k.tag th.options (s.worker t).loop.vecLatency) }) := by
    simp [step, Label.thread, ht, hk, hpc]
  refine ⟨_, .next .refl (l := .report t) trivial hs, ?_, ?_, ?_⟩
  · simp [State.goto]
  · simpa [State.goto] using hsteady
  · intro t' ht'
    simp [State.goto, ht']

theorem canReturn_close {i : Nat} (hpc : (s.worker t).pc = .line i) (hle : (s.worker t).loop.vecLatency.length ≤ i)
    (hsteady : (s.worker t).clock.Steady d) : CanReturn threads savePath memory d s t := by
  have hs : step threads savePath s (.close t) = some (s.goto t { s.worker t with pc := .report }) := by
    simp [step, Label.thread, ht, hk, hpc, Nat.not_lt.mpr hle]
  apply CanReturn.of_step hs trivial (fun t' ht' => by simp [State.goto, ht'])
  apply canReturn_report ht hk
  · simp [State.goto]
  · simpa [State.goto] using hsteady

theorem canReturn_line (n : Nat) : ∀ (s : State) (i : Nat), (s.worker t).pc = .line i →
    (s.worker t).loop.vecLatency.length ≤ i + n → (s.worker t).loop.vecLatency.length < 2 ^ 31 →
    (s.worker t).clock.Steady d → CanReturn threads savePath memory d s t := by
  induction n with
  | zero =>
    intro s i hpc hle _ hsteady
    exact canReturn_close ht hk hpc hle hsteady
  | succ n ih =>
    intro s i hpc hle hlt hsteady
    cases hv : (s.worker t).loop.vecLatency[i]? with
    | none => exact canReturn_close ht hk hpc (List.getElem?_eq_none_iff.mp hv) hsteady
    | some v =>
      have hi : i < 2147483647 := by
        have := (List.getElem?_eq_some_iff.mp hv).1
        omega
      have hs : ∃ u, step threads savePath s (.line t) = some u ∧
          u.worker = Function.update s.worker t { s.worker t with pc := .line (i + 1) } := by
        simp [step, Label.thread, ht, hk, hpc, hv, hi, State.goto]
      obtain ⟨u, hs, hw⟩ := hs
      apply CanReturn.of_step hs trivial (fun t' ht' => by simp [hw, ht'])
      apply ih u (i + 1)
      · simp [hw]
      · rw [← Nat.add_assoc, Nat.add_right_comm] at hle
        simpa [hw] using hle
      · simpa [hw] using hlt
      · simpa [hw] using hsteady

variable (hfit : (Detail.path savePath (latName k th.options)).length < 128)
include hfit

theorem canReturn_save (hpc : (s.worker t).pc = .save) (hlen : (s.worker t).loop.vecLatency.length < 2 ^ 31)
    (hsteady : (s.worker t).clock.Steady d) : CanReturn threads savePath memory d s t := by
  have hs : ∃ u, step threads savePath s (.create t true) = some u ∧
      u.worker = Function.update s.worker t { s.worker t with pc := .line 0, opened := true } := by
    simp [step, Label.thread, ht, hk, hpc, Nat.not_le.mpr hfit, State.goto]
  obtain ⟨u, hs, hw⟩ := hs
  apply CanReturn.of_step hs trivial (fun t' ht' => by simp [hw, ht'])
  apply canReturn_line ht hk (s.worker t).loop.vecLatency.length u 0
  · simp [hw]
  · simp [hw]
  · simpa [hw] using hlen
  · simpa [hw] using hsteady

variable (htime : th.options.runTime.toNat + d + 1 < 2 ^ 63)
include htime

theorem canReturn_loop (hpc : (s.worker t).pc = .loop) (hran : (s.worker t).loop = (s.worker t).clock.loop k th.options)
    (hgo : (s.worker t).loop.broke = false) (hlen : (s.worker t).loop.vecLatency.length + 1 < 2 ^ 31)
    (hsteady : (s.worker t).clock.Steady d) : CanReturn threads savePath memory d s t := by
  -- one more pass, and the run time is over
  obtain ⟨tick, hover, hlater⟩ := hsteady.later htime (hran ▸ hgo)
  have hstart : (s.worker t).loop.timer.start = (s.worker t).clock.start := by
    rw [hran]
    exact start_loop k th.options _ _
  have hbroke : ((s.worker t).loop.pass k th.options tick).broke = true := by
    have hget : ((s.worker t).loop.issue k.op th.options tick).timer.Get > th.options.runTime := by
      rw [← hstart] at hover
      exact hover
    simp [Loop.pass, hget]
  have hvec : ((s.worker t).loop.pass k th.options tick).vecLatency.length =
      (s.worker t).loop.vecLatency.length + 1 := by
    simp only [Loop.pass]
    split <;> simp [Loop.issue]
  have hs : ∃ u, step threads savePath s (.pass t tick 0) = some u ∧
      u.worker = Function.update s.worker t ((s.worker t).passed k th.options tick) := by
    simp [step, Label.thread, ht, hk, hpc, State.goto, worker_transfer]
  obtain ⟨u, hs, hw⟩ := hs
  apply CanReturn.of_step hs trivial (fun t' ht' => by simp [hw, ht'])
  apply canReturn_save ht hk hfit
  · simp [hw, Worker.passed, hbroke]
  · simpa [hw, Worker.passed, hvec] using hlen
  · simpa [hw, Worker.passed] using hlater

theorem canReturn_created (hbuffer : posixMemalign (memory t) th.options.blockSize th.options.blockSize = true)
    (hpc : (s.worker t).pc = .created) : CanReturn threads savePath memory d s t := by
  have hcrash : crashes k.op th.options (memory t) = false := by simp [crashes, hbuffer]
  have hs : ∃ u, step threads savePath s (.enter t (memory t) default) = some u ∧
      u.worker = Function.update s.worker t { s.worker t with
        pc := .loop, loop := { timer := Timer.Start {} default }, memory := memory t, clock := ⟨default, []⟩ } := by
    simp [step, Label.thread, ht, hk, hpc, hcrash, State.goto]
  obtain ⟨u, hs, hw⟩ := hs
  apply CanReturn.of_step hs rfl (fun t' ht' => by simp [hw, ht'])
  apply canReturn_loop ht hk hfit htime
  · simp [hw]
  · simp [hw, Clock.loop, loop]
  · simp [hw]
  · simp [hw]
  · simp only [hw, Function.update_self]
    exact ⟨trivial, by simp⟩

end

/-- A thread of an unknown type only prints. -/
theorem idle_reach {threads : List Thread} {savePath : Text} {ok : Label → Prop} {s₀ s : State}
    (h : Reach (step threads savePath) ok s₀ s) (h₀ : ∀ t, (s₀.worker t).pc = .created) {t : Nat}
    {th : Thread} (ht : threads[t]? = some th) (hk : th.task = none) :
    (s.worker t).pc = .created ∨ (s.worker t).pc = .returned := by
  refine h.invariant (P := fun s => (s.worker t).pc = .created ∨ (s.worker t).pc = .returned) (.inl (h₀ t)) ?_
  intro a b l _ hs ha
  obtain ⟨th', ht', hm⟩ := step_moves hs
  by_cases heq : t = l.thread
  · subst heq
    rw [ht] at ht'
    cases ht'
    cases hm with
    | skip => simp [State.goto]
    | _ => simp_all
  · have hother : b.worker t = a.worker t := by
      cases hm with
      | pass => simp [State.goto, heq, worker_transfer]
      | _ => simp [State.goto, heq]
    rw [hother]
    exact ha

section
variable {openFile : Text → Int} {argv : List Text} {threads : List Thread} (hmain : main openFile argv = .ok threads)
variable {lt : Tm} {disk : Disk} {saved : Detail.Files} {memory : Nat → Memory} {d : Nat} {s : State} {t : Nat}
variable {th : Thread} (h : Reach (step threads (resultSavePath lt)) (Label.From memory) { disk, saved } s)
variable (ht : threads[t]? = some th) (hsteady : (s.worker t).clock.Steady d)
include hmain h ht hsteady

theorem samples_le {k : Task} (hk : th.task = some k) (hd : 0 < d) :
    (s.worker t).loop.vecLatency.length ≤ th.options.runTime.toNat / d + 1 := by
  have hle := hsteady.passes_le k th.options
  rw [← ((Inv.reach (apart_of_main hmain) h).follows ht hk).ran] at hle
  have := (Nat.le_div_iff_mul_le hd).mpr hle
  omega

theorem canReturn_reach (hd : 0 < d)
    (hbuffer : th.task ≠ none → posixMemalign (memory t) th.options.blockSize th.options.blockSize = true)
    (htime : th.options.runTime.toNat + d + 1 < 2 ^ 63) (hcount : th.options.runTime.toNat / d + 2 < 2 ^ 31)
    (hpc : (s.worker t).pc ≠ .returned) : CanReturn threads (resultSavePath lt) memory d s t := by
  cases hk : th.task with
  | none =>
    rcases idle_reach h (fun _ => rfl) ht hk with hc | hc
    · exact canReturn_no_task ht hk hc hsteady
    · exact absurd hc hpc
  | some k =>
    have hfollows := (Inv.reach (apart_of_main hmain) h).follows ht hk
    have hfit : (Detail.path (resultSavePath lt) (latName k th.options)).length < 128 :=
      Nat.lt_of_le_of_lt (length_latPath_le hmain lt ht k) (by decide)
    have hle := samples_le hmain h ht hsteady hk hd
    cases hp : (s.worker t).pc with
    | created => exact canReturn_created ht hk hfit htime (hbuffer (by simp [hk])) hp
    | loop =>
      refine canReturn_loop ht hk hfit htime hp hfollows.ran ?_ (by omega) hsteady
      rw [hfollows.ended, hp]
      rfl
    | save => exact canReturn_save ht hk hfit hp (by omega) hsteady
    | line i =>
      exact canReturn_line ht hk (s.worker t).loop.vecLatency.length s i hp (Nat.le_add_left ..) (by omega) hsteady
    | report => exact canReturn_report ht hk hp hsteady
    | returned => exact absurd hp hpc

end

/-- **The threads come to an end.** If a pass takes at least `d` nanoseconds, a
thread takes no more than `run_time / d + 1` samples. Where `posix_memalign` gives
each worker its buffer, the run time is less than `2 ^ 63` nanoseconds, and that
many lines can be counted, the threads can all return from whatever state they
have come to, with clocks that go on at that pace. -/
theorem threads_return {openFile : Text → Int} {argv : List Text} {threads : List Thread}
    (hmain : main openFile argv = .ok threads) (lt : Tm) (disk : Disk) (saved : Detail.Files) {d : Nat} (hd : 0 < d)
    {memory : Nat → Memory} (hbuffer : ∀ t th, threads[t]? = some th → th.task ≠ none →
      posixMemalign (memory t) th.options.blockSize th.options.blockSize = true)
    (htime : ∀ th ∈ threads, th.options.runTime.toNat + d + 1 < 2 ^ 63)
    (hcount : ∀ th ∈ threads, th.options.runTime.toNat / d + 2 < 2 ^ 31) {s : State}
    (h : Reach (step threads (resultSavePath lt)) (Label.From memory) { disk, saved } s)
    (hsteady : ∀ t < threads.length, (s.worker t).clock.Steady d) :
    (∀ t th k, threads[t]? = some th → th.task = some k →
      (s.worker t).loop.vecLatency.length ≤ th.options.runTime.toNat / d + 1) ∧
    ∃ u, Reach (step threads (resultSavePath lt)) (Label.From memory) s u ∧
      ∀ t < threads.length, (u.worker t).pc = .returned ∧ (u.worker t).clock.Steady d := by
  refine ⟨?_, ?_⟩
  · intro t th k ht hk
    exact samples_le hmain h ht (hsteady t (List.getElem?_eq_some_iff.mp ht).1) hk hd
  -- one thread after the other
  suffices hall : ∀ n ≤ threads.length, ∃ u, Reach (step threads (resultSavePath lt)) (Label.From memory) s u ∧
      (∀ t < threads.length, (u.worker t).clock.Steady d) ∧ ∀ t < n, (u.worker t).pc = .returned by
    obtain ⟨u, hu, hclock, hdone⟩ := hall _ (Nat.le_refl _)
    exact ⟨u, hu, fun t ht => ⟨hdone t ht, hclock t ht⟩⟩
  intro n
  induction n with
  | zero =>
    intro _
    exact ⟨s, .refl, hsteady, fun t ht => absurd ht (Nat.not_lt_zero t)⟩
  | succ n ih =>
    intro hn
    obtain ⟨u, hu, hclock, hdone⟩ := ih (Nat.le_of_succ_le hn)
    by_cases hpc : (u.worker n).pc = .returned
    · refine ⟨u, hu, hclock, ?_⟩
      intro t ht
      rcases Nat.lt_succ_iff_lt_or_eq.mp ht with ht | rfl
      · exact hdone t ht
      · exact hpc
    · have hth := List.getElem?_eq_getElem hn
      have hmem := List.mem_of_getElem? hth
      obtain ⟨v, hv, hret, hlast, hothers⟩ := canReturn_reach hmain (h.trans hu) hth (hclock n hn) hd (hbuffer n _ hth)
        (htime _ hmem) (hcount _ hmem) hpc
      refine ⟨v, hu.trans hv, ?_, ?_⟩
      · intro t ht
        by_cases hne : t = n
        · subst hne
          exact hlast
        · rw [hothers t hne]
          exact hclock t ht
      · intro t ht
        rcases Nat.lt_succ_iff_lt_or_eq.mp ht with ht | rfl
        · rw [hothers t (Nat.ne_of_lt ht)]
          exact hdone t ht
        · exact hret

/-- The reader has taken a sample before the writer has started; a pass takes a
microsecond or more. -/
theorem threads_return_one_sample : ∃ s u,
    Reach (step pair (resultSavePath january)) (Label.From fun _ => some 4096)
      { disk := fun _ => none, saved := fun _ => none } s ∧ (s.worker 1).loop.vecLatency = [1000] ∧
      Reach (step pair (resultSavePath january)) (Label.From fun _ => some 4096) s u ∧
      ∀ t < 2, (u.worker t).pc = .returned := by
  obtain ⟨s, hrun, hs⟩ : ∃ s, Reach (step pair (resultSavePath january)) (Label.From fun _ => some 4096)
      { disk := fun _ => none, saved := fun _ => none } s ∧
      decide ((s.worker 1).loop.vecLatency = [1000] ∧ (s.worker 0).clock = ⟨default, []⟩ ∧
        (s.worker 1).clock = ⟨⟨1, 0⟩, [⟨⟨1, 0⟩, ⟨1, 1000⟩, ⟨1, 1000⟩⟩]⟩) = true :=
    Reach.of_check [.enter 1 (some 4096) ⟨1, 0⟩, .pass 1 ⟨⟨1, 0⟩, ⟨1, 1000⟩, ⟨1, 1000⟩⟩ 0] (by simp [Label.From])
      (by decide +kernel)
  obtain ⟨hvec, h0, h1⟩ := of_decide_eq_true hs
  have hsteady : ∀ t < pair.length, (s.worker t).clock.Steady 1000 := by
    intro t ht
    match t, ht with
    | 0, _ =>
      rw [h0]
      exact ⟨trivial, by simp⟩
    | 1, _ =>
      rw [h1]
      exact ⟨⟨by decide, trivial⟩, by simp [Timespec.ns]⟩
  have hbuffer : ∀ (t : Nat) (th : Thread), pair[t]? = some th → th.task ≠ none →
      posixMemalign (some 4096) th.options.blockSize th.options.blockSize = true := by
    intro t th ht _
    obtain ⟨-, rfl⟩ := getElem?_threads ht
    show posixMemalign (some 4096) 4096 4096 = true
    decide
  obtain ⟨-, u, hu, hret⟩ := threads_return main_pair january _ _ (by decide) hbuffer (by decide) (by decide) hrun
    hsteady
  exact ⟨s, u, hrun, hvec, hu, fun t ht => (hret t ht).1⟩

end IoTester.TailPosix

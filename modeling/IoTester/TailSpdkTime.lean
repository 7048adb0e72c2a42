import IoTester.TailSpdkReport
import IoTester.TailSpdkSpans
import IoTester.TailTime
import Mathlib.Algebra.Group.Action.Defs
import Mathlib.Algebra.Order.BigOperators.Group.List

/-!
# The time of the SPDK rounds

The rounds of a run follow one another, and the timers of a round run between
its first and its last reading of the clock. So the samples of each kind add up
to no more than the run took, times the number of commands of that kind in a
round: as many as there can be in flight at once.
-/

namespace IoTester.TailSpdk

open Lib

def State.latencies (s : State) : Kind → List UInt64
  | .read => s.readLatency
  | .write => s.writeLatency

/-! ## The end of a round -/

theorem sample_step {o : WorkerOptions} (ho : o.Fits) {s t : State} {now : Timespec}
    (h : step o s (.sample now) = some t) :
    s.phase = .sampling ∧ (o.timeNs < s.runTimer.start.elapsedTo now ∧
        t = { s.samples o with runTimer := s.runTimer.Stop now, phase := .finished } ∨
      s.runTimer.start.elapsedTo now ≤ o.timeNs ∧
        t = State.nextRound o { s.samples o with runTimer := s.runTimer.Stop now }) := by
  unfold step at h
  cases hp : s.phase with
  | sampling =>
    simp only [hp, Int.not_lt.mpr ho.2.2, if_false] at h
    refine ⟨rfl, ?_⟩
    split at h
    · rename_i hover
      cases h
      exact .inl ⟨hover, rfl⟩
    · rename_i hover
      cases h
      exact .inr ⟨UInt64.not_lt.mp hover, rfl⟩
  | _ => simp [hp] at h

theorem latencies_samples {o : WorkerOptions} (ho : o.Fits) (s : State) (k : Kind) :
    (s.samples o).latencies k =
      s.latencies k ++ (List.range (o.num k).toNat).map fun i => s.latency (o.firstSlot k + i) := by
  rw [samples_split o ho.1 ho.2.1]
  cases k with
  | read => simp [State.latencies, WorkerOptions.num, WorkerOptions.firstSlot]
  | write => rfl

/-! ## Commands and samples -/

/-- The readings with which the rounds ended. -/
def Label.ended : Label → Option Timespec
  | .sample now => some now
  | _ => none

def ends (ls : List Label) : List Timespec := ls.filterMap Label.ended

theorem ends_snoc (ls : List Label) (l : Label) : ends (ls ++ [l]) = ends ls ++ l.ended.toList := by
  cases l <;> simp [ends, Label.ended]

def Phase.Active : Phase → Prop
  | .finished | .aborted | .crashed | .fault => False
  | _ => True

theorem Phase.Active.ne_finished {p : Phase} (h : p.Active) : p ≠ .finished := by
  rintro rfl
  exact h

theorem enter_active (o : WorkerOptions) {p : Phase} (h : p.Active) : (enter o p).Active := by
  cases p with
  | reads i => by_cases hr : (i : Int) < o.numRead <;> by_cases hw : 0 < o.numWrite <;> simp [enter, hr, hw, Phase.Active]
  | writes i => by_cases hw : (i : Int) < o.numWrite <;> simp [enter, hw, Phase.Active]
  | _ => exact h

structure Counted (o : WorkerOptions) (start : Timespec) (ls : List Label) (s : State) : Prop where
  timer : s.runTimer.start = start
  within : s.phase ≠ .finished → (ends ls).length = s.round ∧ ∀ t ∈ ends ls, start.elapsedTo t ≤ o.timeNs
  beyond : s.phase = .finished → ∃ init last, ends ls = init ++ [last] ∧ init.length = s.round ∧
    (∀ t ∈ init, start.elapsedTo t ≤ o.timeNs) ∧ o.timeNs < start.elapsedTo last
  samples : ∀ k, (s.latencies k).length = (ends ls).length * (o.num k).toNat
  drained : s.phase = .finished → (s.c : Int) = o.ioDepth ∧ s.inflight = []

/-- A step that does not end a round. -/
theorem other_step {o : WorkerOptions} {s t : State} {l : Label} (hl : l.ended = none) (h : step o s l = some t) :
    s.phase ≠ .finished ∧ t.phase ≠ .finished ∧ t.round = s.round ∧ t.runTimer = s.runTimer ∧
      ∀ k, t.latencies k = s.latencies k := by
  have hsame : ∀ {u : State}, u.readLatency = s.readLatency → u.writeLatency = s.writeLatency →
      ∀ k, u.latencies k = s.latencies k := by
    intro u hr hw k
    cases k
    · exact hr
    · exact hw
  cases step_moves h with
  | overrun now buff rc hp hc =>
    refine ⟨fun e => ?_, by simp, rfl, rfl, hsame rfl rfl⟩
    rw [e] at hp
    exact hp
  | refused now buff rc p hp hcase hno =>
    refine ⟨fun e => ?_, by rcases hcase with rfl | rfl <;> simp, rfl, rfl, hsame rfl rfl⟩
    rw [e] at hp
    exact hp
  | read now i hp hc =>
    exact ⟨by simp [hp], (enter_active o (p := .reads (i + 1)) trivial).ne_finished, rfl, rfl, hsame rfl rfl⟩
  | write now i hp hc =>
    exact ⟨by simp [hp], (enter_active o (p := .writes (i + 1)) trivial).ne_finished, rfl, rfl, hsame rfl rfl⟩
  | poll done num u hp hu =>
    rw [completeAll_frame hu]
    refine ⟨by simp [hp], ?_, rfl, rfl, hsame rfl rfl⟩
    simp only [State.count]
    split <;> simp
  | outside now hp hd => cases hl
  | finish now hp hd => cases hl
  | again now hp hd => cases hl

theorem counted_step {o : WorkerOptions} (ho : o.Fits) {start : Timespec} {ls : List Label} {s t : State} {l : Label}
    (hacc : Accounted o s) (hs : step o s l = some t) (h : Counted o start ls s) : Counted o start (ls ++ [l]) t := by
  cases hl : l.ended with
  | none =>
    have hends : ends (ls ++ [l]) = ends ls := by rw [ends_snoc, hl]; exact List.append_nil _
    obtain ⟨hfin, hfin', hround, htimer, hlat⟩ := other_step hl hs
    refine ⟨by rw [htimer]; exact h.timer, fun _ => ?_, fun hf => absurd hf hfin', fun k => ?_,
      fun hf => absurd hf hfin'⟩
    · rw [hends, hround]
      exact h.within hfin
    · rw [hends, hlat]
      exact h.samples k
  | some now =>
    cases l with
    | sample now' =>
      cases hl
      have hends : ends (ls ++ [.sample now]) = ends ls ++ [now] := ends_snoc ls (.sample now)
      obtain ⟨hp, hcase⟩ := sample_step ho hs
      obtain ⟨hlen, hwithin⟩ := h.within (by simp [hp])
      have hsamples : ∀ k, ((s.samples o).latencies k).length =
          (ends (ls ++ [.sample now])).length * (o.num k).toNat := by
        intro k
        rw [latencies_samples ho, hends, List.length_append, h.samples k, List.length_append, Nat.add_mul]
        simp
      obtain ⟨_, _, hsam⟩ := samples_eq o s
      have hround : (s.samples o).round = s.round := by rw [hsam]
      rw [h.timer] at hcase
      rcases hcase with ⟨hover, rfl⟩ | ⟨hle, rfl⟩
      · refine ⟨h.timer, fun hne => absurd rfl hne, fun _ => ⟨ends ls, now, hends, ?_, hwithin, hover⟩, hsamples,
          fun _ => ?_⟩
        · exact hlen.trans hround.symm
        · have hexp := hacc.expects
          rw [hp] at hexp
          rw [hsam]
          exact ⟨hexp.1, hexp.2.2⟩
      · have hgo : enter o (.reads 0) ≠ .finished := (enter_active o (p := .reads 0) trivial).ne_finished
        refine ⟨h.timer, fun _ => ⟨?_, fun r hr => ?_⟩, fun hf => absurd hf hgo, hsamples, fun hf => absurd hf hgo⟩
        · rw [hends, List.length_append, hlen]
          exact congrArg (· + 1) hround.symm
        · rw [hends] at hr
          rcases List.mem_append.mp hr with hr | hr
          · exact hwithin r hr
          · rw [List.mem_singleton.mp hr]
            exact hle
    | _ => cases hl

theorem counted_init (o : WorkerOptions) (start : Timespec) : Counted o start [] (init o start) := by
  have hgo : enter o (.reads 0) ≠ .finished := (enter_active o (p := .reads 0) trivial).ne_finished
  refine ⟨rfl, fun _ => ⟨rfl, ?_⟩, fun hf => absurd hf hgo, fun k => ?_, fun hf => absurd hf hgo⟩
  · simp [ends]
  · cases k <;> simp [State.latencies, init, ends]

theorem counted_run {o : WorkerOptions} (ho : o.Fits) {start : Timespec} {ls : List Label} (hls : ∀ l ∈ ls, l.Regular)
    {s : State} (h : runs (step o) (init o start) ls = some s) :
    Accounted o s ∧ SentCount o s ∧ Counted o start ls s := by
  have hstep : ∀ {before : List Label} {a b : State} {l : Label}, l.Regular → step o a l = some b →
      Accounted o a ∧ SentCount o a ∧ Counted o start before a →
      Accounted o b ∧ SentCount o b ∧ Counted o start (before ++ [l]) b := fun hl hs ⟨hacc, hsent, hcount⟩ =>
    ⟨accounted_step ho hl hs hacc, sentCount_step ho hacc hs hsent, counted_step ho hacc hs hcount⟩
  exact runs_invariant (P := fun ls s => Accounted o s ∧ SentCount o s ∧ Counted o start ls s) hstep ls [] _ hls
    ⟨accounted_init ho start, sentCount_init ho start, counted_init o start⟩ h

/-- **The account of a run.** A run ends with the first round whose last reading
is beyond the run time. By then nothing is in flight, every round has sent the
commands of each kind that it should, and every command has its sample. -/
theorem run_account (o : WorkerOptions) (ho : o.Fits) (start : Timespec) (ls : List Label)
    (hls : ∀ l ∈ ls, l.Regular) {s : State} (h : runs (step o) (init o start) ls = some s) (hfin : s.phase = .finished) :
    ∃ init last, ends ls = init ++ [last] ∧ (∀ t ∈ init, start.elapsedTo t ≤ o.timeNs) ∧
      o.timeNs < start.elapsedTo last ∧ s.inflight = [] ∧
      ∀ k, ((s.sentOf k).length : Int) = (init.length + 1) * o.num k ∧
        (s.latencies k).length = (s.sentOf k).length := by
  obtain ⟨-, hsent, hcount⟩ := counted_run ho hls h
  obtain ⟨init, last, hends, hlen, hwithin, hover⟩ := hcount.beyond hfin
  obtain ⟨hc, hin⟩ := hcount.drained hfin
  refine ⟨init, last, hends, hwithin, hover, hin, fun k => ?_⟩
  have h0 := ho.1
  have hr := ho.2.1
  have hnum : min (o.num k) ((s.c - o.firstSlot k : Nat) : Int) = o.num k ∧ 0 ≤ o.num k := by
    cases k with
    | read =>
      simp only [WorkerOptions.num, WorkerOptions.firstSlot]
      omega
    | write =>
      simp only [WorkerOptions.num, WorkerOptions.firstSlot, WorkerOptions.numWrite]
      omega
  have hcmds : ((s.sentOf k).length : Int) = (init.length + 1) * o.num k := by
    rw [hsent k, hnum.1, ← hlen, Int.add_mul, Int.one_mul]
  refine ⟨hcmds, ?_⟩
  have hsamples := hcount.samples k
  rw [hends, List.length_append, List.length_singleton] at hsamples
  have hcast : (((init.length + 1) * (o.num k).toNat : Nat) : Int) = (init.length + 1) * o.num k := by
    rw [Int.natCast_mul, Int.toNat_of_nonneg hnum.2]
    rfl
  exact Int.ofNat_inj.mp (by rw [hsamples, hcast, hcmds])

/-- One round of a read and a write, and a run time that it exceeds. -/
def oneRound : List Label :=
  [.send ⟨0, 5⟩ true 0, .send ⟨0, 7⟩ true 0, .poll [(⟨.write, 1, 0, 1, 1, 0⟩, ⟨0, 30⟩)] 1,
    .poll [(⟨.read, 0, 0, 1, 0, 0⟩, ⟨0, 40⟩)] 1, .sample ⟨0, 50⟩]

theorem oneRound_regular : ∀ l ∈ oneRound, l.Regular := by
  simp [oneRound, Label.Regular, Label.Counts, Label.NoError]

theorem run_account_one_round : ∃ s, runs (step evenSplit) (init evenSplit default) oneRound = some s ∧
    s.phase = .finished ∧ ∀ k, (s.latencies k).length = (s.sentOf k).length := by
  obtain ⟨s, hs, hfin⟩ := (Option.any_eq_true (fun s : State => decide (s.phase = .finished))
    (runs (step evenSplit) (init evenSplit default) oneRound)).mp (by decide +kernel)
  have hfin := of_decide_eq_true hfin
  obtain ⟨_, _, _, _, _, _, hk⟩ :=
    run_account evenSplit (by decide +kernel) default oneRound oneRound_regular hs hfin
  exact ⟨s, hs, hfin, fun k => (hk k).2⟩

/-! ## Readings of the clock -/

def Label.readings : Label → List Timespec
  | .send now _ _ => [now]
  | .poll done _ => done.map Prod.snd
  | .sample now => [now]

def Event.reading : Event → Option Timespec
  | .start _ now => some now
  | .stop _ now => some now
  | _ => none

/-- What `CLOCK_MONOTONIC` may show after `start`. -/
structure Monotonic (start : Timespec) (rs : List Timespec) : Prop where
  ordered : (start :: rs).Pairwise Timespec.le
  normal : ∀ r ∈ start :: rs, r.Normal
  span : ∀ r ∈ start :: rs, r.ns - start.ns < 2 ^ 63

theorem Monotonic.pairwise {start : Timespec} {rs : List Timespec} (h : Monotonic start rs) :
    (start :: rs).Pairwise fun a b => a.ns ≤ b.ns :=
  h.ordered.imp_of_mem fun ha hb hab => Timespec.ns_le (h.normal _ ha) (h.normal _ hb) hab

theorem Monotonic.left {start : Timespec} {rs rs' : List Timespec} (h : Monotonic start (rs ++ rs')) :
    Monotonic start rs := by
  have hsub : ∀ r ∈ start :: rs, r ∈ start :: (rs ++ rs') := fun r hr => by
    rcases List.mem_cons.mp hr with rfl | hr
    · exact List.mem_cons_self
    · exact List.mem_cons_of_mem _ (List.mem_append_left _ hr)
  refine ⟨?_, fun r hr => h.normal r (hsub r hr), fun r hr => h.span r (hsub r hr)⟩
  have := h.ordered
  rw [← List.cons_append] at this
  exact (List.pairwise_append.mp this).1

/-- The readings of the round that is going on follow the last reading `r` of
the round before; the samples of all rounds before that are within the time up
to `r`. -/
def Timed (o : WorkerOptions) (start : Timespec) (ls : List Label) (s : State) : Prop :=
  ∃ before r rest, start :: ls.flatMap Label.readings = before ++ r :: rest ∧
    (s.phase.Active → rest = s.log.filterMap Event.reading) ∧
    ∀ k, (((s.latencies k).map UInt64.toNat).sum : Int) ≤ o.num k * (r.ns - start.ns)

theorem completeAll_log : ∀ {done : List (Cmd × Timespec)} {s t : State}, completeAll s done = some t →
    t.log.filterMap Event.reading = s.log.filterMap Event.reading ++ done.map Prod.snd
  | [], s, t, h => by
    cases h
    simp
  | d :: done, s, t, h => by
    obtain ⟨u, hu, ht⟩ := Option.bind_eq_some_iff.mp h
    rw [completeAll_log ht]
    unfold complete at hu
    split at hu
    · cases hu
      simp [Event.reading]
    · cases hu

theorem timed_other {o : WorkerOptions} {start : Timespec} {ls : List Label} {s t : State} {l : Label}
    (hlat : ∀ k, t.latencies k = s.latencies k) (hact : s.phase.Active)
    (hlog : t.phase.Active → t.log.filterMap Event.reading = s.log.filterMap Event.reading ++ l.readings)
    (h : Timed o start ls s) : Timed o start (ls ++ [l]) t := by
  obtain ⟨before, r, rest, hread, hrest, hsum⟩ := h
  refine ⟨before, r, rest ++ l.readings, ?_, fun ha => ?_, fun k => ?_⟩
  · rw [List.flatMap_append, ← List.cons_append, hread]
    simp
  · rw [hlog ha, hrest hact]
  · rw [hlat]
    exact hsum k

section
variable {o : WorkerOptions} {s : State} (hacc : Accounted o s) (hin : s.inflight = []) {start r now : Timespec}
  (hp : (r :: (s.log.filterMap Event.reading ++ [now])).Pairwise fun a b => a.ns ≤ b.ns) (hstart : start.ns ≤ r.ns)
  (hspan : now.ns - start.ns < 2 ^ 63)
include hacc hin hp hstart hspan

/-- The timer of a slot runs between the readings that bound its round. -/
theorem latency_le {i : Nat} (hi : i < s.c) : ((s.latency i).toNat : Int) ≤ now.ns - r.ns := by
  rw [← hacc.tracked.count] at hi
  obtain ⟨cb, hcb, hev, hget, -⟩ := slot_done hacc hin (List.getElem?_eq_getElem hi)
  have hsub : [cb.timer.start, cb.timer.stop].Sublist (s.log.filterMap Event.reading) := by
    have hfilter : (timerEvents i s.log).Sublist s.log := List.filter_sublist
    rw [hev] at hfilter
    exact hfilter.filterMap Event.reading
  have hchain := hp.sublist ((hsub.append_right [now]).cons_cons r)
  simp only [List.cons_append, List.nil_append, List.pairwise_cons, List.mem_cons, List.not_mem_nil, or_false,
    forall_eq_or_imp, forall_eq] at hchain
  obtain ⟨⟨h₁, h₂, h₃⟩, ⟨h₄, h₅⟩, h₆, -⟩ := hchain
  have hlat : s.latency i = cb.timer.start.elapsedTo cb.timer.stop := by
    unfold State.latency
    rw [hcb]
    exact hget
  rw [hlat, Timespec.toNat_elapsedTo h₄ (by omega)]
  omega

theorem sum_samples_le (ho : o.Fits) (hphase : s.phase = .sampling)
    (hsum : ∀ k, (((s.latencies k).map UInt64.toNat).sum : Int) ≤ o.num k * (r.ns - start.ns)) (k : Kind) :
    ((((s.samples o).latencies k).map UInt64.toNat).sum : Int) ≤ o.num k * (now.ns - start.ns) := by
  have hexp := hacc.expects
  rw [hphase] at hexp
  have hc := hexp.1
  have h0 := ho.1
  have hr := ho.2.1
  have hslot : 0 ≤ o.num k ∧ ∀ i < (o.num k).toNat, o.firstSlot k + i < s.c := by
    cases k with
    | read =>
      simp only [WorkerOptions.num, WorkerOptions.firstSlot]
      exact ⟨h0, fun i hi => by omega⟩
    | write =>
      simp only [WorkerOptions.num, WorkerOptions.firstSlot, WorkerOptions.numWrite]
      exact ⟨by omega, fun i hi => by omega⟩
  have hrn : r.ns ≤ now.ns := (List.pairwise_cons.mp hp).1 now (by simp)
  have hnew : (((List.range (o.num k).toNat).map fun i => s.latency (o.firstSlot k + i)).map UInt64.toNat).sum ≤
      (o.num k).toNat * (now.ns - r.ns).toNat := by
    have hle := List.sum_le_card_nsmul
      (((List.range (o.num k).toNat).map fun i => s.latency (o.firstSlot k + i)).map UInt64.toNat) (now.ns - r.ns).toNat
    rw [List.length_map, List.length_map, List.length_range, smul_eq_mul] at hle
    refine hle fun x hx => ?_
    obtain ⟨_, hm, rfl⟩ := List.mem_map.mp hx
    obtain ⟨i, hi, rfl⟩ := List.mem_map.mp hm
    have := latency_le hacc hin hp hstart hspan (hslot.2 i (List.mem_range.mp hi))
    omega
  have hcast : (((o.num k).toNat * (now.ns - r.ns).toNat : Nat) : Int) = o.num k * (now.ns - r.ns) := by
    rw [Int.natCast_mul, Int.toNat_of_nonneg hslot.1, Int.toNat_of_nonneg (by omega)]
  have hold := hsum k
  rw [latencies_samples ho, List.map_append, List.sum_append, Int.natCast_add]
  calc _ ≤ o.num k * (r.ns - start.ns) + o.num k * (now.ns - r.ns) := by omega
    _ = o.num k * (now.ns - start.ns) := by rw [← Int.mul_add]; congr 1; omega

end

theorem timed_step {o : WorkerOptions} (ho : o.Fits) {start : Timespec} {ls : List Label} {s t : State} {l : Label}
    (hacc : Accounted o s) (hmono : Monotonic start ((ls ++ [l]).flatMap Label.readings))
    (hs : step o s l = some t) (h : Timed o start ls s) : Timed o start (ls ++ [l]) t := by
  cases hend : l.ended with
  | none =>
    obtain ⟨-, -, -, -, hlat⟩ := other_step hend hs
    have hsend : s.phase.Sending → s.phase.Active := by
      intro hp
      cases hq : s.phase <;> simp_all [Phase.Sending, Phase.Active]
    cases step_moves hs with
    | overrun now buff rc hp hc => exact timed_other hlat (hsend hp) (fun ha => ha.elim) h
    | refused now buff rc p hp hcase hno =>
      refine timed_other hlat (hsend hp) (fun ha => ?_) h
      rcases hcase with rfl | rfl <;> exact ha.elim
    | read now i hp hc =>
      refine timed_other hlat (by rw [hp]; trivial) (fun _ => ?_) h
      simp [State.submit, Event.reading, Label.readings]
    | write now i hp hc =>
      refine timed_other hlat (by rw [hp]; trivial) (fun _ => ?_) h
      simp [State.submit, Event.reading, Label.readings]
    | poll done num u hp hu =>
      have hlog := completeAll_log hu
      exact timed_other hlat (by rw [hp]; trivial) (fun _ => hlog) h
    | outside now hp hd => cases hend
    | finish now hp hd => cases hend
    | again now hp hd => cases hend
  | some now =>
    cases l with
    | sample now' =>
      cases hend
      obtain ⟨before, r, rest, hread, hrest, hsum⟩ := h
      obtain ⟨hp, hcase⟩ := sample_step ho hs
      have hexp := hacc.expects
      rw [hp] at hexp
      have hrest := hrest (by rw [hp]; trivial)
      have hall : start :: (ls ++ [Label.sample now]).flatMap Label.readings =
          before ++ r :: (s.log.filterMap Event.reading ++ [now]) := by
        rw [List.flatMap_append, ← List.cons_append, hread, hrest]
        simp [Label.readings]
      have hpair := hmono.pairwise
      have hspan := hmono.span
      rw [hall] at hpair hspan
      have hpr := (List.pairwise_append.mp hpair).2.1
      have hstart : start.ns ≤ r.ns := by
        cases before with
        | nil =>
          have : start = r := (List.cons.inj hread).1
          rw [this]
        | cons b before =>
          have hb : start = b := (List.cons.inj hread).1
          have := (List.pairwise_cons.mp hpair).1 r (by simp)
          rwa [← hb] at this
      have hle := sum_samples_le hacc hexp.2.2 hpr hstart (hspan now (by simp)) ho hp hsum
      refine ⟨before ++ r :: s.log.filterMap Event.reading, now, [], by rw [hall]; simp, ?_, ?_⟩
      · rcases hcase with ⟨-, rfl⟩ | ⟨-, rfl⟩
        · exact fun ha => ha.elim
        · exact fun _ => rfl
      · rcases hcase with ⟨-, rfl⟩ | ⟨-, rfl⟩
        · exact hle
        · exact hle
    | _ => cases hend

/-! ## The average -/

theorem getAvgLatency_exact {v : List UInt64} (hne : v ≠ []) (hsum : (v.map UInt64.toNat).sum < 2 ^ 64)
    (hlen : v.length < 2 ^ 64) :
    ∃ x, getAvgLatency (v.mergeSort (· ≤ ·)) = .ok x ∧ x.toNat = (v.map UInt64.toNat).sum / v.length := by
  have hperm := (List.mergeSort_perm v (· ≤ ·)).map UInt64.toNat
  refine ⟨_, if_neg (Lib.mergeSort_ne_nil hne), ?_⟩
  rw [UInt64.toNat_div, TailPosix.toNat_foldl_add _ _ (by rw [hperm.sum_eq]; simpa using hsum), hperm.sum_eq,
    List.length_mergeSort, UInt64.toNat_ofNat_of_lt' hlen]
  simp

theorem timed_run {o : WorkerOptions} (ho : o.Fits) {start : Timespec} {ls : List Label} (hls : ∀ l ∈ ls, l.Regular)
    (hmono : Monotonic start (ls.flatMap Label.readings)) {s : State} (h : runs (step o) (init o start) ls = some s) :
    Timed o start ls s := by
  have hstep : ∀ {before : List Label} {a b : State} {l : Label}, l.Regular → step o a l = some b →
      Accounted o a ∧ (Monotonic start (before.flatMap Label.readings) → Timed o start before a) →
      Accounted o b ∧ (Monotonic start ((before ++ [l]).flatMap Label.readings) → Timed o start (before ++ [l]) b) := by
    rintro before a b l hl hs ⟨hacc, htimed⟩
    refine ⟨accounted_step ho hl hs hacc, fun hm => timed_step ho hacc hm hs (htimed ?_)⟩
    rw [List.flatMap_append] at hm
    exact hm.left
  have hinit : Timed o start [] (init o start) := by
    refine ⟨[], start, [], rfl, fun _ => rfl, fun k => ?_⟩
    cases k <;> simp [State.latencies, init]
  exact (runs_invariant
    (P := fun ls s => Accounted o s ∧ (Monotonic start (ls.flatMap Label.readings) → Timed o start ls s)) hstep ls [] _ hls
    ⟨accounted_init ho start, fun _ => hinit⟩ h).2 hmono

/-- **Samples and time.** Over any number of rounds and however the completions
come in, the samples of a kind add up to no more than the run has taken, times
the commands of that kind in a round. The average that is printed does not
wrap as long as this bound fits `64` bits; it is the floor of the mean, and no
more than the mean time of a round. -/
theorem samples_within_run (o : WorkerOptions) (ho : o.Fits) (start : Timespec) (ls : List Label)
    (hls : ∀ l ∈ ls, l.Regular) (hmono : Monotonic start (ls.flatMap Label.readings)) {s : State}
    (h : runs (step o) (init o start) ls = some s) {now : Timespec}
    (hnow : (start :: ls.flatMap Label.readings).getLast? = some now) (k : Kind) :
    (((s.latencies k).map UInt64.toNat).sum : Int) ≤ o.num k * (now.ns - start.ns) ∧
      (s.latencies k ≠ [] → o.num k * (now.ns - start.ns) < 2 ^ 64 → (s.latencies k).length < 2 ^ 64 →
        ∃ x, getAvgLatency ((s.latencies k).mergeSort (· ≤ ·)) = .ok x ∧
          x.toNat = ((s.latencies k).map UInt64.toNat).sum / (s.latencies k).length ∧
          (x.toNat * (ends ls).length : Int) ≤ now.ns - start.ns) := by
  obtain ⟨before, r, rest, hread, -, hsum⟩ := timed_run ho hls hmono h
  have hpair := hmono.pairwise
  rw [hread] at hpair hnow
  have hrn : r.ns ≤ now.ns := by
    rw [List.getLast?_append_cons] at hnow
    rcases List.mem_cons.mp (List.mem_of_getLast? hnow) with rfl | hm
    · exact Int.le_refl _
    · exact (List.pairwise_cons.mp (List.pairwise_append.mp hpair).2.1).1 now hm
  have h0 : 0 ≤ o.num k := by
    have h0 := ho.1
    have hr := ho.2.1
    cases k with
    | read => exact h0
    | write => simpa only [WorkerOptions.num, WorkerOptions.numWrite, Int.sub_nonneg] using hr
  have hle : (((s.latencies k).map UInt64.toNat).sum : Int) ≤ o.num k * (now.ns - start.ns) :=
    Int.le_trans (hsum k) (Int.mul_le_mul_of_nonneg_left (by omega) h0)
  refine ⟨hle, fun hne hfit hlen => ?_⟩
  obtain ⟨x, hx, hmean⟩ := getAvgLatency_exact hne (by omega) hlen
  refine ⟨x, hx, hmean, ?_⟩
  -- the samples are as many as the rounds, times the commands of the kind in one
  have hsamples := (counted_run ho hls h).2.2.samples k
  have hpos : 0 < (s.latencies k).length := List.length_pos_iff.mpr hne
  have hnum : 0 < o.num k := by
    rcases lt_or_eq_of_le h0 with hlt | heq
    · exact hlt
    · rw [← heq, Int.toNat_zero, Nat.mul_zero] at hsamples
      omega
  have hfloor : x.toNat * (s.latencies k).length ≤ ((s.latencies k).map UInt64.toNat).sum := by
    rw [hmean]
    exact Nat.div_mul_le_self _ _
  have hscaled : o.num k * (x.toNat * (ends ls).length : Int) ≤ o.num k * (now.ns - start.ns) := by
    refine Int.le_trans ?_ hle
    have hcast : o.num k * (x.toNat * (ends ls).length : Int) = ((x.toNat * (s.latencies k).length : Nat) : Int) := by
      rw [hsamples, Int.natCast_mul, Int.natCast_mul, Int.toNat_of_nonneg h0, Int.mul_comm, Int.mul_assoc]
    rw [hcast]
    omega
  exact Int.le_of_mul_le_mul_left hscaled hnum

theorem samples_within_run_one_round : ∃ s, runs (step evenSplit) (init evenSplit ⟨0, 0⟩) oneRound = some s ∧
    ∀ k, (((s.latencies k).map UInt64.toNat).sum : Int) ≤ evenSplit.num k * (50 - 0) := by
  obtain ⟨s, hs⟩ : ∃ s, runs (step evenSplit) (init evenSplit ⟨0, 0⟩) oneRound = some s :=
    Option.isSome_iff_exists.mp (by decide +kernel)
  have hmono : Monotonic ⟨0, 0⟩ (oneRound.flatMap Label.readings) :=
    ⟨by simp [oneRound, Label.readings, Timespec.le], by simp [oneRound, Label.readings, Timespec.Normal],
      by simp [oneRound, Label.readings, Timespec.ns]⟩
  have hnow : ((⟨0, 0⟩ : Timespec) :: oneRound.flatMap Label.readings).getLast? = some ⟨0, 50⟩ := rfl
  refine ⟨s, hs, fun k => ?_⟩
  exact (samples_within_run evenSplit (by decide +kernel) ⟨0, 0⟩ oneRound oneRound_regular hmono hs
    hnow k).1

end IoTester.TailSpdk

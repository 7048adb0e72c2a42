import IoTester.LatFile
import Mathlib.Algebra.BigOperators.Ring.Finset

/-!
# The time of the POSIX workers

A worker takes all its readings from one clock: the latencies it records are
disjoint parts of the time that it runs. So they add up to no more than the
run took, and their sum fits the `uint64_t` in which `detail.cc` averages them.
-/

namespace IoTester

/-! ## Readings -/

def Timespec.ns (t : Timespec) : Int := t.sec * 1000000000 + t.nsec

/-- The order of normalised readings. -/
def Timespec.le (a b : Timespec) : Prop := a.sec < b.sec ∨ a.sec = b.sec ∧ a.nsec ≤ b.nsec

def Timespec.Normal (t : Timespec) : Prop := 0 ≤ t.nsec ∧ t.nsec < 1000000000

theorem Timespec.ns_le {a b : Timespec} (ha : a.Normal) (hb : b.Normal) (h : a.le b) : a.ns ≤ b.ns := by
  obtain ⟨ha0, ha1⟩ := ha
  obtain ⟨hb0, hb1⟩ := hb
  unfold ns
  rcases h with h | ⟨h, h'⟩ <;> omega

theorem Timespec.toNat_elapsedTo {a b : Timespec} (hle : a.ns ≤ b.ns) (hlt : b.ns - a.ns < 2 ^ 63) :
    ((a.elapsedTo b).toNat : Int) = b.ns - a.ns := by
  have hdiff : (b.sec - a.sec) * 1000000000 + (b.nsec - a.nsec) = b.ns - a.ns := by
    unfold ns
    omega
  unfold elapsedTo UInt64.ofInt
  rw [hdiff, Int.emod_eq_of_lt (by omega) (by omega), UInt64.toNat_ofNat', Nat.mod_eq_of_lt (by omega)]
  exact Int.toNat_of_nonneg (by omega)

/-- Some reading is more than any given time after another one. -/
theorem Timespec.exists_elapsedTo_gt (a : Timespec) {x : UInt64} (hx : x.toNat + 1 < 2 ^ 64) :
    ∃ b, a.elapsedTo b > x := by
  refine ⟨⟨a.sec, a.nsec + (x.toNat + 1)⟩, ?_⟩
  have hdiff : (a.sec - a.sec) * 1000000000 + (a.nsec + (x.toNat + 1) - a.nsec) = (x.toNat + 1 : Nat) := by
    omega
  rw [gt_iff_lt, UInt64.lt_iff_toNat_lt, Timespec.elapsedTo, hdiff, UInt64.ofInt,
    Int.emod_eq_of_lt (by omega) (by omega), Int.toNat_natCast, UInt64.toNat_ofNat_of_lt' hx]
  exact Nat.lt_succ_self _

namespace TailPosix

def Tick.readings (t : Tick) : List Timespec := [t.issue, t.done, t.total]

def Clock.readings (c : Clock) : List Timespec := c.start :: c.ticks.flatMap Tick.readings

/-- What `CLOCK_MONOTONIC` may show. -/
structure Clock.Monotonic (c : Clock) : Prop where
  ordered : c.readings.Pairwise Timespec.le
  normal : ∀ r ∈ c.readings, r.Normal
  span : ∀ r ∈ c.readings, r.ns - c.start.ns < 2 ^ 63

def Tick.latency (t : Tick) : Int := t.done.ns - t.issue.ns

def Clock.elapsed (c : Clock) (t : Tick) : Int := t.total.ns - c.start.ns

/-- Passes one after the other, the first no earlier than `r`. -/
def InOrder : Int → List Tick → Prop
  | _, [] => True
  | r, t :: ts => r ≤ t.issue.ns ∧ t.issue.ns ≤ t.done.ns ∧ t.done.ns ≤ t.total.ns ∧ InOrder t.total.ns ts

theorem inOrder_of_pairwise : ∀ {ts : List Tick} {r : Timespec}, r.Normal →
    (∀ x ∈ ts.flatMap Tick.readings, x.Normal) → (r :: ts.flatMap Tick.readings).Pairwise Timespec.le →
    InOrder r.ns ts
  | [], _, _, _, _ => trivial
  | t :: ts, r, hr, hn, h => by
    have hi : t.issue.Normal := hn _ (by simp [Tick.readings])
    have hd : t.done.Normal := hn _ (by simp [Tick.readings])
    have ht : t.total.Normal := hn _ (by simp [Tick.readings])
    rw [List.flatMap_cons, Tick.readings] at h
    obtain ⟨h₀, h⟩ := List.pairwise_cons.mp h
    obtain ⟨h₁, h⟩ := List.pairwise_cons.mp h
    obtain ⟨h₂, h⟩ := List.pairwise_cons.mp h
    refine ⟨Timespec.ns_le hr hi (h₀ _ (by simp)), Timespec.ns_le hi hd (h₁ _ (by simp)),
      Timespec.ns_le hd ht (h₂ _ (by simp)), inOrder_of_pairwise ht (fun x hx => hn x ?_) h⟩
    rw [List.flatMap_cons]
    exact List.mem_append_right _ hx

theorem InOrder.left : ∀ {l l' : List Tick} {r : Int}, InOrder r (l ++ l') → InOrder r l
  | [], _, _, _ => trivial
  | _ :: _, _, _, ⟨h₀, h₁, h₂, h⟩ => ⟨h₀, h₁, h₂, h.left⟩

/-- **Disjoint parts of the run.** -/
theorem InOrder.sum_latency_le : ∀ {init : List Tick} {last : Tick} {r : Int}, InOrder r (init ++ [last]) →
    ((init ++ [last]).map Tick.latency).sum ≤ last.total.ns - r
  | [], last, r, ⟨h₀, h₁, h₂, _⟩ => by
    simp only [List.nil_append, List.map_cons, List.map_nil, List.sum_cons, List.sum_nil, Tick.latency]
    omega
  | t :: init, last, r, ⟨h₀, h₁, h₂, h⟩ => by
    have hrest := h.sum_latency_le
    simp only [List.cons_append, List.map_cons, List.sum_cons]
    unfold Tick.latency at hrest ⊢
    omega

theorem InOrder.mem_bounds : ∀ {ts : List Tick} {r : Int}, InOrder r ts → ∀ t ∈ ts,
    r ≤ t.issue.ns ∧ t.issue.ns ≤ t.done.ns ∧ t.done.ns ≤ t.total.ns
  | u :: ts, r, ⟨h₀, h₁, h₂, h⟩, t, ht => by
    rcases List.mem_cons.mp ht with rfl | ht
    · exact ⟨h₀, h₁, h₂⟩
    · obtain ⟨h₃, h₄, h₅⟩ := h.mem_bounds t ht
      exact ⟨by omega, h₄, h₅⟩

theorem sum_toNat {v : List UInt64} {ts : List Tick}
    (h : v.map (fun v => (v.toNat : Int)) = ts.map Tick.latency) :
    ((v.map UInt64.toNat).sum : Int) = (ts.map Tick.latency).sum := by
  rw [← h, Nat.cast_list_sum, List.map_map]
  rfl

namespace Clock.Monotonic

variable {c : Clock} (h : c.Monotonic)
include h

theorem inOrder : InOrder c.start.ns c.ticks :=
  inOrder_of_pairwise (h.normal _ List.mem_cons_self) (fun x hx => h.normal x (List.mem_cons_of_mem _ hx)) h.ordered

theorem elapsed_exact {t : Tick} (ht : t ∈ c.ticks) :
    ((t.issue.elapsedTo t.done).toNat : Int) = t.latency ∧
      ((c.start.elapsedTo t.total).toNat : Int) = c.elapsed t ∧ c.elapsed t < 2 ^ 63 := by
  obtain ⟨h₀, h₁, h₂⟩ := h.inOrder.mem_bounds t ht
  have hspan : t.total.ns - c.start.ns < 2 ^ 63 := by
    refine h.span _ (List.mem_cons_of_mem _ (List.mem_flatMap.mpr ⟨t, ht, ?_⟩))
    simp [Tick.readings]
  exact ⟨Timespec.toNat_elapsedTo h₁ (by omega), Timespec.toNat_elapsedTo (by omega) hspan, hspan⟩

theorem map_latency {ts : List Tick} (hts : ∀ t ∈ ts, t ∈ c.ticks) :
    (ts.map fun t => t.issue.elapsedTo t.done).map (fun v => (v.toNat : Int)) = ts.map Tick.latency := by
  rw [List.map_map]
  exact List.map_congr_left fun t ht => (h.elapsed_exact (hts t ht)).1

theorem sum_le_elapsed {init rest : List Tick} {last : Tick} (hticks : c.ticks = init ++ last :: rest) :
    ((((init ++ [last]).map fun t => t.issue.elapsedTo t.done).map UInt64.toNat).sum : Int) ≤ c.elapsed last := by
  have horder := h.inOrder
  rw [List.append_cons] at hticks
  rw [hticks] at horder
  rw [sum_toNat (h.map_latency fun t ht => by rw [hticks]; exact List.mem_append_left _ ht)]
  exact horder.left.sum_latency_le

end Clock.Monotonic

/-! ## Runs that end -/

/-- The loop from `s` ends in `s'`, in the first pass beyond the run time. -/
structure Ends (o : WorkerOptions) (s s' : Loop) (init : List Tick) (last : Tick) : Prop where
  before : ∀ t ∈ init, ¬ s.timer.start.elapsedTo t.total > o.runTime
  exceeds : s.timer.start.elapsedTo last.total > o.runTime
  vec : s'.vecLatency = s.vecLatency ++ (init ++ [last]).map fun t => t.issue.elapsedTo t.done
  issued : s'.issued.length = s.issued.length + (init.length + 1)
  timer : s'.timer.Get = s.timer.start.elapsedTo last.total

section
variable (op : IoOp) (skip : UInt64) (o : WorkerOptions)

theorem Ends.cons {s s' : Loop} {t last : Tick} {init : List Tick} {pos : UInt64}
    (h : Ends o { s.issue op o t with pos } s' init last) (ht : ¬ s.timer.start.elapsedTo t.total > o.runTime) :
    Ends o s s' (t :: init) last := by
  refine ⟨fun u hu => ?_, h.exceeds, ?_, ?_, h.timer⟩
  · rcases List.mem_cons.mp hu with rfl | hu
    · exact ht
    · exact h.before u hu
  · rw [h.vec, Loop.issue, List.append_assoc]
    rfl
  · rw [h.issued]
    simp only [Loop.issue, List.length_append, List.length_cons, List.length_nil]
    omega

theorem loop_broke : ∀ (ticks : List Tick) (s : Loop), s.broke = false → (loop op skip o ticks s).broke = true →
    ∃ init last rest, ticks = init ++ last :: rest ∧ Ends o s (loop op skip o ticks s) init last
  | [], s, hs, h => by
    rw [loop, hs] at h
    cases h
  | t :: ts, s, hs, h => by
    unfold loop at h ⊢
    by_cases hover : s.timer.start.elapsedTo t.total > o.runTime
    · have hbreak : (s.issue op o t).timer.Get > o.runTime := hover
      simp only [hbreak, if_true]
      refine ⟨[], t, ts, rfl, ?_, hover, rfl, List.length_append, rfl⟩
      simp
    · have hgo : ¬ (s.issue op o t).timer.Get > o.runTime := hover
      simp only [hgo, if_false] at h ⊢
      obtain ⟨init, last, rest, hticks, hends⟩ := loop_broke ts _ (by exact hs) h
      exact ⟨t :: init, last, rest, congrArg _ hticks, hends.cons op o hover⟩

end

/-! ## The average of the recorded file -/

theorem toNat_foldl_add : ∀ (l : List UInt64) (a : UInt64), a.toNat + (l.map UInt64.toNat).sum < 2 ^ 64 →
    (l.foldl (· + ·) a).toNat = a.toNat + (l.map UInt64.toNat).sum
  | [], a, _ => by simp
  | v :: l, a, h => by
    rw [List.map_cons, List.sum_cons] at h
    have hadd : (a + v).toNat = a.toNat + v.toNat := by
      rw [UInt64.toNat_add, Nat.mod_eq_of_lt (by omega)]
    rw [List.foldl_cons, toNat_foldl_add l (a + v) (by omega), hadd, List.map_cons, List.sum_cons, Nat.add_assoc]

/-- The average line of `detail.cc` for samples whose sum does not wrap. -/
theorem getAvgLatency_exact {v : List UInt64} (hne : v ≠ []) (hlen : v.length < 2 ^ 64)
    (hsum : (v.map UInt64.toNat).sum < 2 ^ 64) :
    ∃ x, Detail.getAvgLatency (v.mergeSort (· ≤ ·)) = .ok (.average x) ∧
      x.toNat = (v.map UInt64.toNat).sum / v.length := by
  have hperm := (List.mergeSort_perm v (· ≤ ·)).map UInt64.toNat
  refine ⟨_, if_neg (Lib.mergeSort_ne_nil hne), ?_⟩
  rw [UInt64.toNat_div, toNat_foldl_add _ _ (by rw [hperm.sum_eq]; simpa using hsum), hperm.sum_eq,
    List.length_mergeSort, UInt64.toNat_ofNat_of_lt' hlen]
  simp

/-! ## The account of a run -/

/-- What a run that ends has recorded. -/
structure Accounts (o : WorkerOptions) (c : Clock) (init : List Tick) (last : Tick) (s : Loop) : Prop where
  one : s.vecLatency.length = s.issued.length
  passes : s.issued.length = init.length + 1
  latencies : s.vecLatency.map (fun v => (v.toNat : Int)) = (init ++ [last]).map Tick.latency
  before : ∀ t ∈ init, c.elapsed t ≤ o.runTime.toNat
  exceeds : o.runTime.toNat < c.elapsed last
  timer : (s.timer.Get.toNat : Int) = c.elapsed last
  total : (s.vecLatency.map UInt64.toNat).sum ≤ s.timer.Get.toNat
  spent : (s.vecLatency.dropLast.map UInt64.toNat).sum ≤ o.runTime.toNat

section
variable {o : WorkerOptions} {c : Clock} {init rest : List Tick} {last : Tick} {s : Loop}

theorem Ends.accounts (hc : c.Monotonic) (hticks : c.ticks = init ++ last :: rest)
    (h : Ends o { timer := Timer.Start {} c.start } s init last) : Accounts o c init last s := by
  have hmem : ∀ t ∈ init ++ [last], t ∈ c.ticks := by
    intro t ht
    rw [hticks, List.append_cons]
    exact List.mem_append_left _ ht
  have hvec : s.vecLatency = (init ++ [last]).map fun t => t.issue.elapsedTo t.done := h.vec
  have hissued : s.issued.length = init.length + 1 := by simpa using h.issued
  obtain ⟨_, hlast, _⟩ := hc.elapsed_exact (hmem last (by simp))
  have hbefore : ∀ t ∈ init, c.elapsed t ≤ o.runTime.toNat := by
    intro t ht
    have hle := h.before t ht
    rw [gt_iff_lt, UInt64.lt_iff_toNat_lt] at hle
    obtain ⟨_, helapsed, _⟩ := hc.elapsed_exact (hmem t (List.mem_append_left _ ht))
    rw [← helapsed]
    exact_mod_cast Nat.not_lt.mp hle
  have htimer : (s.timer.Get.toNat : Int) = c.elapsed last := by
    rw [h.timer]
    exact hlast
  refine ⟨?_, hissued, ?_, hbefore, ?_, htimer, ?_, ?_⟩
  · rw [hvec, hissued]
    simp
  · rw [hvec]
    exact hc.map_latency hmem
  · rw [← hlast]
    exact_mod_cast UInt64.lt_iff_toNat_lt.mp h.exceeds
  · have htotal := hc.sum_le_elapsed hticks
    rw [← hvec, ← htimer] at htotal
    exact_mod_cast htotal
  · rw [hvec, List.map_append, List.map_singleton, List.dropLast_concat]
    rcases List.eq_nil_or_concat init with hnil | ⟨init', last', hsnoc⟩
    · rw [hnil]
      simp
    · -- the pass before the last one was within the run time
      rw [List.concat_eq_append] at hsnoc
      subst hsnoc
      have hspent := hc.sum_le_elapsed (hticks.trans (List.append_assoc ..))
      have hle := hbefore last' (by simp)
      omega

end

/-- What `detail.cc` prints for a file: the floor of the mean of its samples,
summed without a wrap. -/
def AveragedExactly (saved : Text) (samples : List UInt64) : Prop :=
  ∀ (fs : Detail.Files) (name : Text), fs name = some saved →
    Detail.readFromFile fs name = samples ∧ (samples.map UInt64.toNat).sum < 2 ^ 64 ∧
      ∃ x : UInt64, x.toNat = (samples.map UInt64.toNat).sum / samples.length ∧
        ∀ (avg : List UInt64 → UInt64) (interval : Int), UInt64.ofInt interval ≠ 0 →
          ∃ fs' lines, Detail.detailHandler avg fs name interval = .ok (fs', lines) ∧ .average x ∈ lines

theorem averagedExactly {v : List UInt64} (hne : v ≠ []) (hsum : (v.map UInt64.toNat).sum < 2 ^ 64) :
    AveragedExactly (resultOutput v) (v.take (2 ^ 31)) := by
  intro fs name hsaved
  have hread : Detail.readFromFile fs name = v.take (2 ^ 31) := Detail.readFromFile_decLines hsaved
  have htake : ((v.take (2 ^ 31)).map UInt64.toNat).sum ≤ (v.map UInt64.toNat).sum := by
    rw [List.map_take, ← List.sum_take_add_sum_drop (v.map UInt64.toNat) (2 ^ 31)]
    exact Nat.le_add_right _ _
  have hne' : v.take (2 ^ 31) ≠ [] := by
    rw [Ne, List.take_eq_nil_iff]
    rintro (h | h)
    · cases h
    · exact hne h
  have hlen : (v.take (2 ^ 31)).length < 2 ^ 64 := by
    have := List.length_take_le (2 ^ 31) v
    omega
  obtain ⟨x, hline, hx⟩ := getAvgLatency_exact hne' hlen (by omega)
  refine ⟨hread, by omega, x, hx, fun avg interval hi => ?_⟩
  obtain ⟨lines, hlines, ⟨line, hmem, hav⟩, _⟩ := Detail.detailHandler_ok avg (by rw [hread]; exact hne') hi
  rw [hread, hline] at hav
  cases hav
  exact ⟨_, lines, hlines, hmem⟩

theorem worker_accounts (op : IoOp) (skip : UInt64) (tag savePath : Text) (o : WorkerOptions) (m : Memory) {c : Clock}
    (hc : c.Monotonic) (hbroke : (worker op skip tag savePath o m c).loop.broke = true) :
    ∃ init last rest, c.ticks = init ++ last :: rest ∧
      Accounts o c init last (worker op skip tag savePath o m c).loop ∧
      ∃ r, (worker op skip tag savePath o m c).report = some r ∧
        AveragedExactly r.saved ((worker op skip tag savePath o m c).loop.vecLatency.take (2 ^ 31)) := by
  unfold worker at hbroke ⊢
  by_cases hcrash : crashes op o m = true
  · rw [if_pos hcrash] at hbroke
    cases hbroke
  rw [if_neg hcrash] at hbroke ⊢
  obtain ⟨init, last, rest, hticks, hends⟩ := loop_broke op skip o c.ticks { timer := Timer.Start {} c.start } rfl hbroke
  have haccounts := hends.accounts hc hticks
  refine ⟨init, last, rest, hticks, haccounts, _, if_pos hbroke, averagedExactly ?_ ?_⟩
  · rw [← List.length_pos_iff, haccounts.one, haccounts.passes]
    exact Nat.succ_pos _
  · have htotal := haccounts.total
    have htimer := haccounts.timer
    have hspan := (hc.elapsed_exact (show last ∈ c.ticks by simp [hticks])).2.2
    omega

/-- **The account of a run.** -/
theorem time_accounts (task : Task) (savePath : Text) (o : WorkerOptions) (m : Memory) {c : Clock} (hc : c.Monotonic)
    (hends : (task.run savePath o m c).loop.broke = true) :
    ∃ init last rest, c.ticks = init ++ last :: rest ∧ Accounts o c init last (task.run savePath o m c).loop ∧
      ∃ r, (task.run savePath o m c).report = some r ∧
        AveragedExactly r.saved ((task.run savePath o m c).loop.vecLatency.take (2 ^ 31)) := by
  cases task with
  | randwrite => exact worker_accounts _ _ _ _ _ _ hc hends
  | seqwrite => exact worker_accounts _ _ _ _ _ _ hc hends
  | randread => exact worker_accounts _ _ _ _ _ _ hc hends
  | seqread => exact worker_accounts _ _ _ _ _ _ hc hends

/-- Two passes, with a borrow from the seconds in the second one. -/
theorem time_accounts_two_passes :
    ∃ init last rest, [(⟨⟨1, 5⟩, ⟨1, 9⟩, ⟨1, 10⟩⟩ : Tick), ⟨⟨1, 999999999⟩, ⟨2, 1⟩, ⟨2, 1⟩⟩] = init ++ last :: rest ∧
      Accounts ⟨3, 0, 4096, 512, 100⟩ ⟨⟨1, 0⟩, [⟨⟨1, 5⟩, ⟨1, 9⟩, ⟨1, 10⟩⟩, ⟨⟨1, 999999999⟩, ⟨2, 1⟩, ⟨2, 1⟩⟩]⟩ init last
        (Task.seqread.run ['s'] ⟨3, 0, 4096, 512, 100⟩ (some 512)
          ⟨⟨1, 0⟩, [⟨⟨1, 5⟩, ⟨1, 9⟩, ⟨1, 10⟩⟩, ⟨⟨1, 999999999⟩, ⟨2, 1⟩, ⟨2, 1⟩⟩]⟩).loop := by
  obtain ⟨init, last, rest, hticks, haccounts, _⟩ := @time_accounts .seqread ['s'] ⟨3, 0, 4096, 512, 100⟩ (some 512)
    ⟨⟨1, 0⟩, [⟨⟨1, 5⟩, ⟨1, 9⟩, ⟨1, 10⟩⟩, ⟨⟨1, 999999999⟩, ⟨2, 1⟩, ⟨2, 1⟩⟩]⟩
    ⟨by simp [Clock.readings, Tick.readings, Timespec.le], by simp [Clock.readings, Tick.readings, Timespec.Normal],
      by simp [Clock.readings, Tick.readings, Timespec.ns]⟩ (by decide)
  exact ⟨init, last, rest, hticks, haccounts⟩

end TailPosix

end IoTester

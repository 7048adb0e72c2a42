import IoTester.DetailMain
import IoTester.TailSpdkTime

/-!
# From a run of `tail_latency/spdk.cc` to the output of `detail.cc`

`do_readwrite` saves its two vectors of latencies, unless they are empty, to two
files of one directory, and prints an average and two percentiles of each. A
run of `detail.cc` over the directory prints the same.
-/

namespace IoTester.TailSpdk

open Lib

def Kind.fileName : Kind → Text
  | .read => ['r', 'e', 'a', 'd', '.', 'l', 'a', 't']
  | .write => ['w', 'r', 'i', 't', 'e', '.', 'l', 'a', 't']

/-- What `result_output` writes of a report; nothing, and without a word, if its
stream did not open. -/
def saveReport (opened : Bool) (fs : Detail.Files) : Option Report → Detail.Files
  | none => fs
  | some r => if opened then Function.update fs r.savePath (some r.saved) else fs

def saveReports (opened : Kind → Bool) (fs : Detail.Files) (rs : Kind → Option Report) : Detail.Files :=
  saveReport (opened .write) (saveReport (opened .read) fs (rs .read)) (rs .write)

def State.Saves (s : State) (opened : Kind → Bool) (k : Kind) : Prop := opened k = true ∧ s.latencies k ≠ []

instance (s : State) (opened : Kind → Bool) (k : Kind) : Decidable (s.Saves opened k) :=
  inferInstanceAs (Decidable (_ ∧ _))

/-- The vector that is saved under a name. -/
def State.results (s : State) (opened : Kind → Bool) (name : Text) : Option (List UInt64) :=
  [Kind.read, .write].findSome? fun k =>
    if k.fileName = name ∧ s.Saves opened k then some (s.latencies k) else none

theorem results_eq_some {s : State} {opened : Kind → Bool} {name : Text} {v : List UInt64}
    (h : s.results opened name = some v) : ∃ k, k.fileName = name ∧ s.latencies k ≠ [] ∧ s.latencies k = v := by
  obtain ⟨k, -, h⟩ := List.exists_of_findSome?_eq_some h
  by_cases hk : k.fileName = name ∧ s.Saves opened k
  · rw [if_pos hk] at h
    exact ⟨k, hk.1, hk.2.2, Option.some.inj h⟩
  · rw [if_neg hk] at h
    cases h

theorem results_fileName (s : State) (opened : Kind → Bool) (k : Kind) :
    s.results opened k.fileName = if s.Saves opened k then some (s.latencies k) else none := by
  cases k with
  | read => by_cases h : s.Saves opened .read <;> simp [State.results, h, Kind.fileName]
  | write => by_cases h : s.Saves opened .write <;> simp [State.results, h, Kind.fileName]

/-- What is reported of a vector. -/
structure Reported (path : Text) (v : List UInt64) (r : Report) : Prop where
  savePath : r.savePath = path
  saved : r.saved = decLines v
  average : Detail.getAvgLatency (v.mergeSort (· ≤ ·)) = .ok (.average r.average)
  p99 : Prints v (99 / 100) r.p99.value ∧ r.p99 = ⟨99 / 100, r.p99.value, Detail.tailIndex (99 / 100) v.length, v.length⟩
  p999 : Prints v (999 / 1000) r.p999.value ∧
    r.p999 = ⟨999 / 1000, r.p999.value, Detail.tailIndex (999 / 1000) v.length, v.length⟩

theorem report_reported (path : Text) {v : List UInt64} (hv : v ≠ []) :
    ∃ r, report path v = .ok (some r) ∧ Reported path v r := by
  have hsorted := Lib.mergeSort_ne_nil hv
  obtain ⟨x, hx⟩ := exists_prints (p := 99 / 100) hv (by decide +kernel) (by decide +kernel)
  obtain ⟨y, hy⟩ := exists_prints (p := 999 / 1000) hv (by decide +kernel) (by decide +kernel)
  refine ⟨⟨path, resultOutput v, _, ⟨99 / 100, x, _, _⟩, ⟨999 / 1000, y, _, _⟩⟩, ?_, rfl, rfl, if_neg hsorted, ⟨hx, rfl⟩,
    hy, rfl⟩
  simp only [report, List.length_pos_iff.mpr hv, if_true, getAvgLatency, hsorted, if_false, hx.spdk, hy.spdk, bind,
    Except.bind]

/-- The two reports: none of an empty vector. -/
theorem reports_reported (s : State) (dir : Text) : ∃ rs : Kind → Option Report,
    s.reports dir = .ok (rs .read, rs .write) ∧
      ∀ k, (s.latencies k = [] → rs k = none) ∧
        (s.latencies k ≠ [] → ∃ r, rs k = some r ∧ Reported (Detail.path dir k.fileName) (s.latencies k) r) := by
  have hone : ∀ k, ∃ r, report (Detail.path dir k.fileName) (s.latencies k) = .ok r ∧
      (s.latencies k = [] → r = none) ∧
      (s.latencies k ≠ [] → ∃ r', r = some r' ∧ Reported (Detail.path dir k.fileName) (s.latencies k) r') := by
    intro k
    by_cases hk : s.latencies k = []
    · rw [hk]
      exact ⟨none, rfl, fun _ => rfl, fun h => absurd rfl h⟩
    · obtain ⟨r, hr, hrep⟩ := report_reported (Detail.path dir k.fileName) hk
      exact ⟨some r, hr, fun h => absurd h hk, fun _ => ⟨r, rfl, hrep⟩⟩
  refine ⟨fun k => (hone k).choose, ?_, fun k => (hone k).choose_spec.2⟩
  have hread := (hone .read).choose_spec.1
  have hwrite := (hone .write).choose_spec.1
  refine Lib.bind_eq_ok.mpr ⟨_, hread, Lib.bind_eq_ok.mpr ⟨_, hwrite, rfl⟩⟩

section
variable {s : State} {dir : Text} {rs : Kind → Option Report} {fs : Detail.Files} {opened : Kind → Bool}
variable (hrs : ∀ k, (s.latencies k = [] → rs k = none) ∧
  (s.latencies k ≠ [] → ∃ r, rs k = some r ∧ Reported (Detail.path dir k.fileName) (s.latencies k) r))
include hrs

theorem saveReport_other {k : Kind} {file : Text} (hne : file ≠ Detail.path dir k.fileName) :
    saveReport (opened k) fs (rs k) file = fs file := by
  by_cases hk : s.latencies k = []
  · rw [(hrs k).1 hk]
    rfl
  · obtain ⟨r, hr, hrep⟩ := (hrs k).2 hk
    rw [hr]
    simp only [saveReport, hrep.savePath]
    split
    · exact Function.update_of_ne hne ..
    · rfl

theorem saveReport_self {k : Kind} : saveReport (opened k) fs (rs k) (Detail.path dir k.fileName) =
    if s.Saves opened k then some (decLines (s.latencies k)) else fs (Detail.path dir k.fileName) := by
  by_cases hk : s.latencies k = []
  · rw [(hrs k).1 hk, if_neg fun h => h.2 hk]
    rfl
  · obtain ⟨r, hr, hrep⟩ := (hrs k).2 hk
    rw [hr]
    by_cases ho : opened k = true
    · rw [if_pos ⟨ho, hk⟩]
      simp only [saveReport, ho, if_true, hrep.savePath, hrep.saved, Function.update_self]
    · rw [if_neg fun h => ho h.1]
      exact congrFun (if_neg ho) _

theorem results_of_reports (hdir : dir.length ≤ 111) (hfresh : ∀ name, fs (Detail.path dir name) = none)
    (hlen : ∀ k, (s.latencies k).length < 2 ^ 31) :
    Detail.Results dir (s.results opened) (saveReports opened fs rs) := by
  refine ⟨?_, ?_, ?_, ?_, ?_⟩
  · intro name
    unfold saveReports
    by_cases hwrite : name = Kind.write.fileName
    · subst hwrite
      rw [saveReport_self hrs, saveReport_other hrs (fun he => by cases Detail.path_inj he), hfresh, results_fileName]
      split <;> rfl
    · rw [saveReport_other hrs fun he => hwrite (Detail.path_inj he)]
      by_cases hread : name = Kind.read.fileName
      · subst hread
        rw [saveReport_self hrs, hfresh, results_fileName]
        split <;> rfl
      · rw [saveReport_other hrs fun he => hread (Detail.path_inj he), hfresh]
        simp [State.results, Ne.symm hread, Ne.symm hwrite]
  · intro name v hv
    obtain ⟨k, rfl, -⟩ := results_eq_some hv
    cases k <;> rfl
  · intro name v hv
    obtain ⟨k, rfl, -⟩ := results_eq_some hv
    have hname : k.fileName.length ≤ 9 := by cases k <;> decide
    simp only [Detail.path, List.length_append, List.length_cons]
    omega
  · intro name v hv
    obtain ⟨k, -, hne, rfl⟩ := results_eq_some hv
    exact hne
  · intro name v hv
    obtain ⟨k, -, -, rfl⟩ := results_eq_some hv
    exact hlen k

end

/-- `detail.cc` prints what is in a report. -/
def Agrees (out : List Detail.Line) (r : Report) : Prop :=
  ∃ before lines after, out = before ++ .reading r.savePath r.p99.size :: lines ++ after ∧
    (∀ line ∈ lines, line.reads = none) ∧ .average r.average ∈ lines ∧
    .tail r.p99.p r.p99.value r.p99.idx r.p99.size ∈ lines ∧
    .tail r.p999.p r.p999.value r.p999.idx r.p999.size ∈ lines

theorem Reported.agrees {path : Text} {v : List UInt64} {r : Report} (h : Reported path v r) {out : List Detail.Line}
    (hs : Detail.Shows out path v) : Agrees out r := by
  obtain ⟨before, lines, after, hout, hdetails⟩ := hs
  have unique : ∀ {p : Rat} {x y : UInt64}, Prints v p x → Prints v p y → x = y := by
    intro p x y hx hy
    have := hx.detail.symm.trans hy.detail
    cases this
    rfl
  refine ⟨before, lines, after, ?_, hdetails.own, ?_, ?_, ?_⟩
  · rw [h.savePath, h.p99.2]
    exact hout
  · obtain ⟨x, hx, hline⟩ := hdetails.average
    rw [h.average] at hx
    cases hx
    exact hline
  · obtain ⟨x, hx, hline⟩ := hdetails.tails (99 / 100) (by simp [Detail.reported])
    rw [unique hx h.p99.1] at hline
    rw [h.p99.2]
    exact hline
  · obtain ⟨x, hx, hline⟩ := hdetails.tails (999 / 1000) (by simp [Detail.reported])
    rw [unique hx h.p999.1] at hline
    rw [h.p999.2]
    exact hline

theorem latencies_ne_nil_iff {o : WorkerOptions} {start : Timespec} {ls : List Label} {s : State}
    (h : Counted o start ls s) (hfin : s.phase = .finished) (k : Kind) : s.latencies k ≠ [] ↔ 0 < o.num k := by
  obtain ⟨init, last, hends, -⟩ := h.beyond hfin
  have hk := h.samples k
  rw [hends, List.length_append, List.length_singleton] at hk
  rw [← List.length_pos_iff, hk, Nat.mul_pos_iff_of_pos_left (Nat.succ_pos _)]
  omega

/-- **From the loop to the analysis.** When the loop is over, the vector of a
kind has the samples of all rounds, and it is reported exactly if there are
commands of that kind in a round; it is saved if, besides, the stream opens. A
run of `detail.cc` over the new directory succeeds, keeps the files and prints of
each what was reported. -/
theorem reports_reach_detail (o : WorkerOptions) (ho : o.Fits) (start : Timespec) (ls : List Label)
    (hls : ∀ l ∈ ls, l.Regular) {s : State} (h : runs (step o) (init o start) ls = some s) (hfin : s.phase = .finished)
    (opened : Kind → Bool) (dir : Text) (hdir : dir.length ≤ 111) (fs : Detail.Files)
    (hfresh : ∀ name, fs (Detail.path dir name) = none)
    (hlen : ∀ k, (ends ls).length * (o.num k).toNat < 2 ^ 31) (avg : List UInt64 → UInt64) (look : Text → Detail.Look)
    (hlook : look dir = ⟨true, true, true, true⟩) (dist : Text) (hpos : 0 < (atol dist).toInt)
    (hint : (atol dist).toInt < 2 ^ 31) (program : Text) :
    ∃ rs : Kind → Option Report, s.reports dir = .ok (rs .read, rs .write) ∧
      (∀ k, (rs k).isSome ↔ 0 < o.num k) ∧
      ∀ names, Detail.Yields avg dir (atol dist).toUInt64 (saveReports opened fs rs) names →
        ∃ fs' out, Detail.main avg look names [program, dir, dist] (saveReports opened fs rs) =
            .ok (fs', .details out, 0) ∧
          ∀ k r, rs k = some r → r.p99.size = (ends ls).length * (o.num k).toNat ∧
            if opened k then fs' r.savePath = some r.saved ∧ Agrees out r
            else saveReports opened fs rs r.savePath = none := by
  obtain ⟨-, -, hcount⟩ := counted_run ho hls h
  obtain ⟨rs, hreports, hrs⟩ := reports_reported s dir
  have hsize : ∀ k, (s.latencies k).length < 2 ^ 31 := by
    intro k
    rw [hcount.samples k]
    exact hlen k
  have hresults : Detail.Results dir (s.results opened) (saveReports opened fs rs) :=
    results_of_reports hrs hdir hfresh hsize
  refine ⟨rs, hreports, ?_, ?_⟩
  · intro k
    rw [← latencies_ne_nil_iff hcount hfin k]
    by_cases hnil : s.latencies k = []
    · simp [(hrs k).1 hnil, hnil]
    · obtain ⟨r, hr, -⟩ := (hrs k).2 hnil
      simp [hr, hnil]
  · intro names hy
    obtain ⟨fs', out, hrun, hall⟩ := hresults.main (by omega) hlook hpos hint hy program
    refine ⟨fs', out, hrun, ?_⟩
    intro k r hr
    have hnil : s.latencies k ≠ [] := by
      intro hnil
      rw [(hrs k).1 hnil] at hr
      cases hr
    obtain ⟨r', hr', hrep⟩ := (hrs k).2 hnil
    rw [hr] at hr'
    cases hr'
    refine ⟨?_, ?_⟩
    · rw [hrep.p99.2]
      exact hcount.samples k
    · have hname := results_fileName s opened k
      by_cases hopen : opened k = true
      · rw [if_pos hopen]
        rw [if_pos ⟨hopen, hnil⟩] at hname
        obtain ⟨hkept, hshows⟩ := hall _ _ hname
        refine ⟨?_, hrep.agrees hshows⟩
        rw [hrep.savePath, hkept, hresults.files, hname, hrep.saved]
        rfl
      · rw [if_neg hopen, hrep.savePath, hresults.files, hname, if_neg fun h => hopen h.1]
        rfl

/-- The stream of the writes does not open. -/
theorem reports_reach_detail_one_round : ∃ s, runs (step evenSplit) (init evenSplit default) oneRound = some s ∧
    ∃ rs : Kind → Option Report, s.reports ['d'] = .ok (rs .read, rs .write) ∧ (rs .read).isSome ∧
      ∀ names, Detail.Yields Detail.mean ['d'] 10 (saveReports (· == .read) (fun _ => none) rs) names →
        ∃ fs' out, Detail.main Detail.mean (fun _ => ⟨true, true, true, true⟩) names [['p'], ['d'], ['1', '0']]
            (saveReports (· == .read) (fun _ => none) rs) = .ok (fs', .details out, 0) ∧
          ∀ r, rs .read = some r → Agrees out r := by
  obtain ⟨s, hs, hfin⟩ := (Option.any_eq_true (fun s : State => decide (s.phase = .finished))
    (runs (step evenSplit) (init evenSplit default) oneRound)).mp (by decide +kernel)
  have hlen : ∀ k, (ends oneRound).length * (evenSplit.num k).toNat < 2 ^ 31 := by
    intro k
    cases k <;> decide +kernel
  obtain ⟨rs, hreports, hsome, hall⟩ := reports_reach_detail evenSplit (by decide +kernel) default oneRound
    oneRound_regular hs (of_decide_eq_true hfin) (· == .read) ['d'] (by decide) (fun _ => none) (fun _ => rfl) hlen
    Detail.mean (fun _ => ⟨true, true, true, true⟩) rfl ['1', '0'] (by decide) (by decide) ['p']
  refine ⟨s, hs, rs, hreports, (hsome .read).mpr (by decide +kernel), ?_⟩
  intro names hy
  obtain ⟨fs', out, hmain, hr⟩ := hall names hy
  exact ⟨fs', out, hmain, fun r hk => (hr .read r hk).2.2⟩

end IoTester.TailSpdk

import IoTester.DetailMain
import IoTester.TailPosixRunSound
import IoTester.TailTime
import Mathlib.Data.Nat.Digits.Defs

/-!
# From the threads of `tail_latency/posix.cc` to the output of `detail.cc`

The threads save to a directory that is named after the time. The paths fit
all buffers of both programs, whatever the arguments; and what `detail.cc`
prints for the directory is what the threads have measured.
-/

namespace IoTester.TailPosix

open Lib

/-! ## Lengths of paths -/

theorem length_zeroPadded_le {w : Nat} (hw : w ≤ 11) (x : Int32) : (zeroPadded w x.toInt).length ≤ 11 := by
  have hlo := x.le_toInt
  have hhi := x.toInt_lt
  cases hx : x.toInt with
  | ofNat n =>
    rw [hx, Int.ofNat_eq_natCast] at hhi
    have hn : (decN n).length ≤ 10 := Nat.toDigits_length 10 n 10 (by decide) (by omega)
    simp only [zeroPadded, List.length_append, List.length_replicate]
    omega
  | negSucc n =>
    have hn : (decN (n + 1)).length ≤ 10 := Nat.toDigits_length 10 (n + 1) 10 (by decide) (by omega)
    simp only [zeroPadded, List.length_append, List.length_replicate, List.length_cons]
    omega

theorem length_resultSavePath_le (lt : Tm) : (resultSavePath lt).length ≤ 67 := by
  have h₁ := length_zeroPadded_le (w := 4) (by decide) lt.year
  have h₂ := length_zeroPadded_le (w := 2) (by decide) lt.mon
  have h₃ := length_zeroPadded_le (w := 2) (by decide) lt.mday
  have h₄ := length_zeroPadded_le (w := 2) (by decide) lt.hour
  have h₅ := length_zeroPadded_le (w := 2) (by decide) lt.min
  have h₆ := length_zeroPadded_le (w := 2) (by decide) lt.sec
  simp only [resultSavePath, List.length_append, List.length_cons]
  omega

theorem length_latName_le {k : Task} {o : WorkerOptions} {i : Nat} (h : o.threadId = i) (hi : i < 32) :
    (latName k o).length ≤ 30 := by
  have hid : (decI o.threadId).length ≤ 2 := by
    rw [h]
    exact Nat.toDigits_length 10 i 2 (by decide) (by omega)
  have hbs : (decN o.blockSize.toNat).length ≤ 20 := by
    have := o.blockSize.toNat_lt
    exact Nat.toDigits_length 10 _ 20 (by decide) (by omega)
  have htag : k.tag.length = 4 := by cases k <;> rfl
  simp only [latName, List.length_append, List.length_cons, List.length_nil, htag]
  omega

/-! ## The directory after a run -/

/-- The vector that a thread saves under a name. -/
def State.results (threads : List Thread) (s : State) (name : Text) : Option (List UInt64) :=
  threads.zipIdx.findSome? fun (th, t) => th.task.bind fun k =>
    if latName k th.options = name then some (s.worker t).loop.vecLatency else none

theorem results_eq_some {threads : List Thread} {s : State} {name : Text} {v : List UInt64}
    (h : s.results threads name = some v) : ∃ t th k, threads[t]? = some th ∧ th.task = some k ∧
      latName k th.options = name ∧ (s.worker t).loop.vecLatency = v := by
  obtain ⟨⟨th, t⟩, hmem, h⟩ := List.exists_of_findSome?_eq_some h
  obtain ⟨k, hk, h⟩ := Option.bind_eq_some_iff.mp h
  refine ⟨t, th, k, List.mem_zipIdx_iff_getElem?.mp hmem, hk, ?_⟩
  by_cases hname : latName k th.options = name
  · rw [if_pos hname] at h
    exact ⟨hname, Option.some.inj h⟩
  · rw [if_neg hname] at h
    cases h

theorem results_latName {threads : List Thread} (hapart : Apart threads) {s : State} {t : Nat} {th : Thread} {k : Task}
    (ht : threads[t]? = some th) (hk : th.task = some k) :
    s.results threads (latName k th.options) = some (s.worker t).loop.vecLatency := by
  cases h : s.results threads (latName k th.options) with
  | some v =>
    obtain ⟨t', th', k', ht', -, hname, rfl⟩ := results_eq_some h
    rw [hapart ht' ht hname]
  | none =>
    have hnone := List.findSome?_eq_none_iff.mp h (th, t) (List.mem_zipIdx_iff_getElem?.mpr ht)
    simp [hk] at hnone

def latNames (threads : List Thread) : List Text :=
  threads.filterMap fun th => th.task.map fun k => latName k th.options

theorem mem_latNames_iff {threads : List Thread} (hapart : Apart threads) {s : State} {name : Text} :
    name ∈ latNames threads ↔ (s.results threads name).isSome := by
  constructor
  · intro h
    obtain ⟨th, hmem, h⟩ := List.mem_filterMap.mp h
    obtain ⟨k, hk, rfl⟩ := Option.map_eq_some_iff.mp h
    obtain ⟨t, ht⟩ := List.mem_iff_getElem?.mp hmem
    rw [results_latName hapart ht hk]
    rfl
  · intro h
    obtain ⟨v, hv⟩ := Option.isSome_iff_exists.mp h
    obtain ⟨t, th, k, ht, hk, hname, -⟩ := results_eq_some hv
    exact List.mem_filterMap.mpr ⟨th, List.mem_of_getElem? ht, by simp [hk, hname]⟩

theorem vecLatency_ne_nil {k : Task} {o : WorkerOptions} {c : Clock} (h : (c.loop k o).broke = true) :
    (c.loop k o).vecLatency ≠ [] := by
  obtain ⟨init, last, rest, -, hends⟩ := loop_broke _ _ _ _ _ rfl h
  unfold Clock.loop
  rw [hends.vec]
  simp

section
variable {openFile : Text → Int} {argv : List Text} {threads : List Thread} (hmain : main openFile argv = .ok threads)
include hmain

theorem threadId_of_main {t : Nat} {th : Thread} (ht : threads[t]? = some th) : th.options.threadId = t ∧ t < 32 := by
  by_cases hargc : argv.length < 10
  · unfold main at hmain
    rw [if_pos hargc] at hmain
    cases hmain
    simp at ht
  · have hargc := Nat.le_of_not_lt hargc
    obtain ⟨a, ha⟩ := parse_of_main hargc hmain
    obtain ⟨n, -, hfit, rfl⟩ := (main_eq_ok_iff hargc ha).mp hmain
    obtain ⟨hlt, rfl⟩ := getElem?_threads ht
    exact ⟨rfl, (hfit t hlt).1⟩

/-- No buffer for a path is too small. -/
theorem length_latPath_le (lt : Tm) {t : Nat} {th : Thread} (ht : threads[t]? = some th) (k : Task) :
    (Detail.path (resultSavePath lt) (latName k th.options)).length ≤ 98 := by
  obtain ⟨hid, hlt⟩ := threadId_of_main hmain ht
  have hname := length_latName_le (k := k) hid hlt
  have hdir := length_resultSavePath_le lt
  simp only [Detail.path, List.length_append, List.length_cons]
  omega

theorem results_of_returned {lt : Tm} {disk : Disk} {saved : Detail.Files}
    (hfresh : ∀ name, saved (Detail.path (resultSavePath lt) name) = none) {s : State}
    (h : Reach (step threads (resultSavePath lt)) (fun _ => True) { disk, saved } s)
    (hret : ∀ t < threads.length, (s.worker t).pc = .returned)
    (hopen : ∀ t th, threads[t]? = some th → th.task ≠ none → (s.worker t).opened = true) :
    Detail.Results (resultSavePath lt) (s.results threads) s.saved := by
  have hinv := Inv.reach (apart_of_main hmain) h
  have hfile : ∀ {t th k}, threads[t]? = some th → th.task = some k → (s.worker t).loop.vecLatency.length < 2 ^ 31 ∧
      s.saved (Detail.path (resultSavePath lt) (latName k th.options)) =
        some (resultOutput (s.worker t).loop.vecLatency) := by
    intro t th k ht hk
    have hpc := hret t (List.getElem?_eq_some_iff.mp ht).1
    exact (hinv.follows ht hk).file_eq hpc (hopen t th ht (by simp [hk]))
  refine ⟨?_, ?_, ?_, ?_, ?_⟩
  · intro name
    cases hv : s.results threads name with
    | some v =>
      obtain ⟨t, th, k, ht, hk, rfl, rfl⟩ := results_eq_some hv
      rw [(hfile ht hk).2]
      rfl
    | none =>
      rw [hinv.other, hfresh]
      · rfl
      · intro t th k ht hk hpath
        rw [Detail.path_inj hpath, results_latName (apart_of_main hmain) ht hk] at hv
        cases hv
  · intro name v hv
    obtain ⟨t, th, k, -, -, rfl, -⟩ := results_eq_some hv
    exact Detail.isLat_iff.mpr ⟨_, rfl⟩
  · intro name v hv
    obtain ⟨t, th, k, ht, -, rfl, -⟩ := results_eq_some hv
    exact Nat.le_trans (length_latPath_le hmain lt ht k) (by decide)
  · intro name v hv
    obtain ⟨t, th, k, ht, hk, -, rfl⟩ := results_eq_some hv
    have hfollows := hinv.follows ht hk
    have hbroke : (s.worker t).loop.broke = true := by
      rw [hfollows.ended, hret t (List.getElem?_eq_some_iff.mp ht).1]
      rfl
    rw [hfollows.ran] at hbroke ⊢
    exact vecLatency_ne_nil hbroke
  · intro name v hv
    obtain ⟨t, th, k, ht, hk, -, rfl⟩ := results_eq_some hv
    exact (hfile ht hk).1

end

/-- `detail.cc` prints the percentiles of a thread, in nanoseconds. -/
def Agrees (out : List Detail.Line) (r : Report) : Prop :=
  ∃ before lines after, out = before ++ .reading r.saveFilePath r.size :: lines ++ after ∧
    (∀ line ∈ lines, line.reads = none) ∧
    (∃ x, .tail (99 / 100) x r.p99Size r.size ∈ lines ∧ r.p99 = some (x / 1000)) ∧
    ∃ x, .tail (999 / 1000) x r.p999Size r.size ∈ lines ∧ r.p999 = some (x / 1000)

theorem agrees_of_shows {out : List Detail.Line} {savePath : Text} {k : Task} {o : WorkerOptions} {v : List UInt64}
    (h : Detail.Shows out (Detail.path savePath (latName k o)) v) : Agrees out (report savePath k.tag o v) := by
  obtain ⟨before, lines, after, hout, hdetails⟩ := h
  have hsize : (report savePath k.tag o v).size = v.length := List.length_mergeSort v
  have h99 : (report savePath k.tag o v).p99Size = Detail.tailIndex (99 / 100) v.length := by
    rw [show (99 / 100 : Rat) = ((99 : Nat) : Rat) / (100 : Nat) from rfl, tailIndex_ratio, ← hsize]
    rfl
  have h999 : (report savePath k.tag o v).p999Size = Detail.tailIndex (999 / 1000) v.length := by
    rw [show (999 / 1000 : Rat) = ((999 : Nat) : Rat) / (1000 : Nat) from rfl, tailIndex_ratio, ← hsize]
    rfl
  refine ⟨before, lines, after, ?_, hdetails.own, ?_, ?_⟩
  · rw [saveFilePath_report, hsize]
    exact hout
  · obtain ⟨x, hx, hline⟩ := hdetails.tails (99 / 100) (by simp [Detail.reported])
    rw [h99, hsize]
    exact ⟨x, hline, hx.p99 rfl ..⟩
  · obtain ⟨x, hx, hline⟩ := hdetails.tails (999 / 1000) (by simp [Detail.reported])
    rw [h999, hsize]
    exact ⟨x, hline, hx.p999 rfl ..⟩

/-- **From the threads to the analysis.** When the threads have returned and
could all open their files in a new directory, a run of `detail.cc` over the
directory succeeds, whatever the arguments of the tester, the time, the
interleaving and the order of `readdir`. It keeps the file of every thread, and
prints for it the percentiles that the thread has printed. -/
theorem results_reach_detail {openFile : Text → Int} {argv : List Text} {threads : List Thread}
    (hmain : main openFile argv = .ok threads) (lt : Tm) (disk : Disk) {saved : Detail.Files}
    (hfresh : ∀ name, saved (Detail.path (resultSavePath lt) name) = none) {s : State}
    (h : Reach (step threads (resultSavePath lt)) (fun _ => True) { disk, saved } s)
    (hret : ∀ t < threads.length, (s.worker t).pc = .returned)
    (hopen : ∀ t th, threads[t]? = some th → th.task ≠ none → (s.worker t).opened = true)
    (avg : List UInt64 → UInt64) (look : Text → Detail.Look) (hlook : look (resultSavePath lt) = ⟨true, true, true, true⟩)
    {dist : Text} (hpos : 0 < (atol dist).toInt) (hint : (atol dist).toInt < 2 ^ 31) {names : List Text}
    (hy : Detail.Yields avg (resultSavePath lt) (atol dist).toUInt64 s.saved names) (program : Text) :
    ∃ fs' out, Detail.main avg look names [program, resultSavePath lt, dist] s.saved = .ok (fs', .details out, 0) ∧
      ∀ t th k, threads[t]? = some th → th.task = some k → ∃ r, (s.worker t).report = some r ∧
        fs' r.saveFilePath = some r.saved ∧ Agrees out r := by
  have hapart := apart_of_main hmain
  have hinv := Inv.reach hapart h
  have hresults := results_of_returned hmain hfresh h hret hopen
  have hdir : (resultSavePath lt).length < 128 := Nat.lt_of_le_of_lt (length_resultSavePath_le lt) (by decide)
  obtain ⟨fs', out, hrun, hall⟩ := hresults.main hdir hlook hpos hint hy program
  refine ⟨fs', out, hrun, ?_⟩
  intro t th k ht hk
  have hpc := hret t (List.getElem?_eq_some_iff.mp ht).1
  have hfollows := hinv.follows ht hk
  obtain ⟨hkept, hshows⟩ := hall _ _ (results_latName hapart ht hk)
  refine ⟨_, hfollows.report hpc, ?_, agrees_of_shows hshows⟩
  obtain ⟨-, hfile⟩ := hfollows.file_eq hpc (hopen t th ht (by simp [hk]))
  rw [saveFilePath_report, hkept, hfile]
  rfl

def january : Tm := ⟨121, 0, 2, 3, 4, 5⟩

theorem results_reach_detail_take_turns : ∃ s, Reach (step pair (resultSavePath january)) (fun _ => True)
      { disk := fun _ => none, saved := fun _ => none } s ∧
    ∃ fs' out, Detail.main Detail.mean (fun _ => ⟨true, true, true, true⟩) (latNames pair)
      [['d'], resultSavePath january, ['1', '0']] s.saved = .ok (fs', .details out, 0) ∧
      ∃ r, (s.worker 1).report = some r ∧ fs' r.saveFilePath = some r.saved ∧ Agrees out r := by
  obtain ⟨s, hrun, hs⟩ : ∃ s, Reach (step pair (resultSavePath january)) (fun _ => True)
      { disk := fun _ => none, saved := fun _ => none } s ∧
      decide (((s.worker 0).pc = .returned ∧ (s.worker 0).opened = true) ∧
        (s.worker 1).pc = .returned ∧ (s.worker 1).opened = true) = true :=
    Reach.of_check takeTurns (fun _ _ => trivial) (by decide +kernel)
  have hboth : ∀ t < pair.length, (s.worker t).pc = .returned ∧ (s.worker t).opened = true := by
    intro t ht
    match t, ht with
    | 0, _ => exact (of_decide_eq_true hs).1
    | 1, _ => exact (of_decide_eq_true hs).2
  have hret : ∀ t < pair.length, (s.worker t).pc = .returned := fun t ht => (hboth t ht).1
  have hopen : ∀ t th, pair[t]? = some th → th.task ≠ none → (s.worker t).opened = true := fun t th ht _ =>
    (hboth t (List.getElem?_eq_some_iff.mp ht).1).2
  have hresults := results_of_returned main_pair (fun _ => rfl) hrun hret hopen
  have hy : Detail.Yields Detail.mean (resultSavePath january) (atol ['1', '0']).toUInt64 s.saved (latNames pair) :=
    hresults.yields (fun name => mem_latNames_iff (apart_of_main main_pair)) ..
  obtain ⟨fs', out, hdetail, hall⟩ := results_reach_detail main_pair january _ (fun _ => rfl) hrun hret hopen Detail.mean
    (fun _ => ⟨true, true, true, true⟩) rfl (by decide) (by decide) hy ['d']
  exact ⟨s, hrun, fs', out, hdetail, hall 1 _ _ rfl rfl⟩

/-! ## Two runs -/

/-- What `localtime` gives for a time since 1900. -/
structure Tm.Normal (lt : Tm) : Prop where
  year : 0 ≤ lt.year.toInt
  mon : 0 ≤ lt.mon.toInt ∧ lt.mon.toInt < 12
  mday : 1 ≤ lt.mday.toInt ∧ lt.mday.toInt < 32
  hour : 0 ≤ lt.hour.toInt ∧ lt.hour.toInt < 24
  min : 0 ≤ lt.min.toInt ∧ lt.min.toInt < 60
  sec : 0 ≤ lt.sec.toInt ∧ lt.sec.toInt ≤ 60

theorem digitsValue_zeros (n : Nat) (t : Text) : digitsValue (List.replicate n '0' ++ t) = digitsValue t := by
  unfold digitsValue
  rw [List.foldl_append]
  congr 1
  induction n with
  | zero => rfl
  | succ n ih =>
    rw [List.replicate_succ, List.foldl_cons]
    exact ih

theorem digitsValue_zeroPadded {w : Nat} {x : Int} (h : 0 ≤ x) : (digitsValue (zeroPadded w x) : Int) = x := by
  obtain ⟨n, rfl⟩ := Int.eq_ofNat_of_zero_le h
  have hpad : zeroPadded w (n : Int) = List.replicate (w - (decN n).length) '0' ++ decN n := rfl
  rw [hpad, digitsValue_zeros, digitsValue_decN]

theorem zeroPadded_inj {w : Nat} {x y : Int32} (hx : 0 ≤ x.toInt) (hy : 0 ≤ y.toInt)
    (h : zeroPadded w x.toInt = zeroPadded w y.toInt) : x = y := by
  apply Int32.toInt_inj.mp
  rw [← digitsValue_zeroPadded (w := w) hx, h, digitsValue_zeroPadded hy]

theorem length_zeroPadded_two {x : Int} (h : 0 ≤ x) (hlt : x < 100) : (zeroPadded 2 x).length = 2 := by
  obtain ⟨n, rfl⟩ := Int.eq_ofNat_of_zero_le h
  have hpad : zeroPadded 2 (n : Int) = List.replicate (2 - (decN n).length) '0' ++ decN n := rfl
  have hlen : (decN n).length ≤ 2 := Nat.toDigits_length 10 n 2 (by decide) (by omega)
  rw [hpad, List.length_append, List.length_replicate]
  omega

/-- Two times give two names. -/
theorem resultSavePath_inj {lt lt' : Tm} (h : lt.Normal) (h' : lt'.Normal)
    (he : resultSavePath lt = resultSavePath lt') : lt = lt' := by
  have two : ∀ {x y : Int32} {t t' : Text}, 0 ≤ x.toInt → x.toInt < 100 → 0 ≤ y.toInt → y.toInt < 100 →
      t ++ zeroPadded 2 x.toInt = t' ++ zeroPadded 2 y.toInt → t = t' ∧ x = y := by
    intro x y t t' hx hx' hy hy' hxy
    obtain ⟨ht, hz⟩ := List.append_inj' hxy
      (by rw [length_zeroPadded_two hx hx', length_zeroPadded_two hy hy'])
    exact ⟨ht, zeroPadded_inj hx hy hz⟩
  obtain ⟨hyear, ⟨hmon, hmon'⟩, ⟨hmday, hmday'⟩, ⟨hhour, hhour'⟩, ⟨hmin, hmin'⟩, hsec, hsec'⟩ := h
  obtain ⟨hyear₁, ⟨hmon₁, hmon₁'⟩, ⟨hmday₁, hmday₁'⟩, ⟨hhour₁, hhour₁'⟩, ⟨hmin₁, hmin₁'⟩, hsec₁, hsec₁'⟩ := h'
  unfold resultSavePath at he
  obtain ⟨he, hs⟩ := two hsec (by omega) hsec₁ (by omega) he
  obtain ⟨he, hm⟩ := two hmin (by omega) hmin₁ (by omega) he
  obtain ⟨he, hh⟩ := List.append_inj' he (by rw [List.length_cons, List.length_cons,
    length_zeroPadded_two hhour (by omega), length_zeroPadded_two hhour₁ (by omega)])
  have hh := zeroPadded_inj hhour hhour₁ (List.cons.inj hh).2
  obtain ⟨he, hd⟩ := two (by omega) (by omega) (by omega) (by omega) he
  obtain ⟨he, hM⟩ := two hmon (by omega) hmon₁ (by omega) he
  have hy := zeroPadded_inj hyear hyear₁ he
  cases lt
  cases lt'
  simp_all

theorem slash_not_mem_zeroPadded (w : Nat) (x : Int) : '/' ∉ zeroPadded w x := by
  have hdec : ∀ n, '/' ∉ decN n := by
    intro n hmem
    have := isDigit_of_mem_decN hmem
    simp at this
  cases x with
  | ofNat n => simp [zeroPadded, hdec]
  | negSucc n => simp [zeroPadded, hdec]

/-- The directory of a path. -/
theorem takeWhile_path (lt : Tm) (name : Text) :
    (Detail.path (resultSavePath lt) name).takeWhile (· ≠ '/') = resultSavePath lt := by
  have hslash : ∀ c ∈ resultSavePath lt, decide (c ≠ '/') = true := by
    intro c hc
    apply decide_eq_true
    rintro rfl
    simp [resultSavePath, slash_not_mem_zeroPadded] at hc
  rw [Detail.path, List.takeWhile_append_of_pos hslash]
  simp

/-- **Runs keep the results of each other.** While a run goes on that was
started at another time, the files in the directory of an earlier run stay as
they were. -/
theorem results_kept {openFile : Text → Int} {argv : List Text} {threads : List Thread}
    (hmain : main openFile argv = .ok threads) {lt lt' : Tm} (hlt : lt.Normal) (hlt' : lt'.Normal) (hne : lt ≠ lt')
    (disk : Disk) (saved : Detail.Files) {s : State}
    (h : Reach (step threads (resultSavePath lt')) (fun _ => True) { disk, saved } s) (name : Text) :
    s.saved (Detail.path (resultSavePath lt) name) = saved (Detail.path (resultSavePath lt) name) := by
  apply (Inv.reach (apart_of_main hmain) h).other
  intro t th k _ _ hpath
  have hdir := congrArg (List.takeWhile (· ≠ '/')) hpath
  rw [takeWhile_path, takeWhile_path] at hdir
  exact hne (resultSavePath_inj hlt hlt' hdir)

theorem results_kept_next_second : ∃ s, Reach (step pair (resultSavePath { january with sec := 6 })) (fun _ => True)
      { disk := fun _ => none, saved := fun _ => some ['7'] } s ∧
    (s.worker 0).pc = .returned ∧ s.saved (Detail.path (resultSavePath january) ['a']) = some ['7'] := by
  obtain ⟨s, hrun, hs⟩ : ∃ s, Reach (step pair (resultSavePath { january with sec := 6 })) (fun _ => True)
      { disk := fun _ => none, saved := fun _ => some ['7'] } s ∧ decide ((s.worker 0).pc = .returned) = true :=
    Reach.of_check takeTurns (fun _ _ => trivial) (by decide +kernel)
  have hfirst : january.Normal := ⟨by decide, by decide, by decide, by decide, by decide, by decide⟩
  have hsecond : Tm.Normal { january with sec := 6 } :=
    ⟨by decide, by decide, by decide, by decide, by decide, by decide⟩
  exact ⟨s, hrun, of_decide_eq_true hs, results_kept main_pair hfirst hsecond (by decide) _ _ hrun ['a']⟩

end IoTester.TailPosix

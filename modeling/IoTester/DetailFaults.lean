import IoTester.DetailWindows
import IoTester.LatFile

/-!
# The faults of the offline analysis

What a directory and an interval must be for a run of `detail.cc` to divide by
no zero, to index no array outside of it, and to use the interval it was given.
-/

namespace IoTester.Detail

def Line.reads : Line → Option Text
  | .reading name _ => some name
  | _ => none

/-- The window length of a run: `interval` is narrowed to an `int` and widened
again. -/
def windowLength (interval : UInt64) : UInt64 := UInt64.ofInt (toInt interval)

section
variable {avg : List UInt64 → UInt64}

/-! ## One file -/

theorem reads_tailLatencyHandlers {name : Text} {vec : List UInt64} {interval : UInt64} :
    ∀ {ps : List Rat} {fs fs' : Files} {lines : List Line},
      tailLatencyHandlers avg name vec interval ps fs = .ok (fs', lines) → ∀ line ∈ lines, line.reads = none
  | [], _, _, _, h, line, hline => by
    cases h
    cases hline
  | p :: ps, fs, fs', lines, h, line, hline => by
    obtain ⟨⟨fs₁, line₁⟩, h₁, h⟩ := Lib.bind_eq_ok.mp h
    obtain ⟨⟨fs₂, lines₂⟩, h₂, h⟩ := Lib.bind_eq_ok.mp h
    obtain ⟨tails, _, h₁⟩ := Lib.bind_eq_ok.mp h₁
    cases h
    cases h₁
    rcases List.mem_cons.mp hline with rfl | hline
    · rfl
    · exact reads_tailLatencyHandlers h₂ line hline

theorem reads_getTailLatency {vec : List UInt64} {p : Rat} {line : Line} (h : getTailLatency vec p = .ok line) :
    line.reads = none := by
  rw [getTailLatency_def] at h
  split at h
  · cases h
    rfl
  · cases h

theorem getAvgLatency_inv {vec : List UInt64} {line : Line} (h : getAvgLatency vec = .ok line) :
    vec ≠ [] ∧ line.reads = none := by
  unfold getAvgLatency at h
  by_cases hne : vec = []
  · rw [if_pos hne] at h
    cases h
  · rw [if_neg hne] at h
    cases h
    exact ⟨hne, rfl⟩

theorem tailLoop_inv {p : Rat} {interval : UInt64} {i : Nat} {tmp vec tails : List UInt64}
    (h : tailLoop avg p interval i tmp vec = .ok tails) (hne : vec ≠ []) : interval ≠ 0 := by
  cases vec with
  | nil => exact absurd rfl hne
  | cons v vec =>
    rintro rfl
    cases h

/-- What a run over one file shows of it. -/
theorem detailHandler_inv {fs fs' : Files} {name : Text} {interval : Int} {out : List Line}
    (h : detailHandler avg fs name interval = .ok (fs', out)) :
    readFromFile fs name ≠ [] ∧ UInt64.ofInt interval ≠ 0 ∧ out.filterMap Line.reads = [name] := by
  obtain ⟨⟨fs₁, lines⟩, hlines, h⟩ := Lib.bind_eq_ok.mp h
  obtain ⟨average, haverage, h⟩ := Lib.bind_eq_ok.mp h
  obtain ⟨tails, htails, h⟩ := Lib.bind_eq_ok.mp h
  obtain ⟨hsorted, hnone⟩ := getAvgLatency_inv haverage
  have hne : readFromFile fs name ≠ [] := by
    intro hnil
    rw [hnil] at hsorted
    exact hsorted List.mergeSort_nil
  refine ⟨hne, ?_, ?_⟩
  · obtain ⟨⟨fs₂, line⟩, hfirst, _⟩ := Lib.bind_eq_ok.mp hlines
    obtain ⟨first, hfirst, _⟩ := Lib.bind_eq_ok.mp hfirst
    exact tailLoop_inv hfirst hne
  · cases h
    have hl : lines.filterMap Line.reads = [] := List.filterMap_eq_nil_iff.mpr (reads_tailLatencyHandlers hlines)
    have ht : tails.filterMap Line.reads = [] := by
      refine List.filterMap_eq_nil_iff.mpr fun line hline => ?_
      obtain ⟨p, _, hp⟩ := Lib.mem_of_mapM htails hline
      exact reads_getTailLatency hp
    have hreading : (Line.reading name (readFromFile fs name).length).reads = some name := rfl
    rw [List.cons_append, List.filterMap_cons_some hreading, List.filterMap_append, hl, List.filterMap_cons_none hnone,
      ht, List.append_nil]

/-! ## A file that is written over -/

theorem resultOutput_start (v : UInt64) (tails : List UInt64) (interval : UInt64) :
    ∃ n < 2 ^ 64, ∃ t, resultOutput (v :: tails) interval = decN n ++ ' ' :: t := by
  refine ⟨(interval * UInt64.ofNat 0).toNat, UInt64.toNat_lt _, ?_⟩
  unfold resultOutput
  rw [show 2 ^ 31 = (2 ^ 31 - 1) + 1 from rfl, List.take_succ_cons, List.zipIdx_cons, List.flatMap_cons]
  exact ⟨_, by rw [List.append_assoc, List.append_assoc, List.cons_append]⟩

theorem readFromFile_number {fs : Files} {name : Text} {n : Nat} (hn : n < 2 ^ 64) {c : Char} (hc : c.isDigit = false)
    {t : Text} (h : fs name = some (decN n ++ c :: t)) : readFromFile fs name ≠ [] := by
  unfold readFromFile
  rw [h]
  simp only [List.length_append, List.length_cons, ← Nat.add_assoc]
  rw [extractAll, extract_decN hn hc]
  exact List.cons_ne_nil _ _

theorem resultText_start {vec : List UInt64} (hne : vec ≠ []) {interval : UInt64} (hi : interval ≠ 0) {p : Rat}
    (hp : p ∈ percents) : ∃ n < 2 ^ 64, ∃ t, resultText avg vec interval p = decN n ++ ' ' :: t := by
  obtain ⟨h0, h1⟩ := percents_range p hp
  cases vec with
  | nil => exact absurd rfl hne
  | cons v vec =>
    -- the first sample closes a window
    obtain ⟨value, hvalue⟩ := @summary_ok avg p h0 h1 ([] ++ [v]) (by simp)
    obtain ⟨rest, hrest⟩ := tailLoop_ok avg h0 h1 hi vec 1 []
    have htext : resultText avg (v :: vec) interval p = resultOutput (value :: rest) interval := by
      simp only [resultText, tailLoop_cons, hi, if_false, Nat.zero_mod, if_true, hvalue, hrest, bind, Except.bind]
    rw [htext]
    exact resultOutput_start value rest interval

theorem readFromFile_outputs {name : Text} {vec : List UInt64} (hne : vec ≠ []) {interval : UInt64}
    (hi : interval ≠ 0) {file : Text} : ∀ (ps : List Rat) (fs : Files), (∀ p ∈ ps, p ∈ percents) →
      readFromFile fs file ≠ [] → readFromFile (outputs avg name vec interval ps fs) file ≠ []
  | [], _, _, h => h
  | p :: ps, fs, hps, h => by
    refine readFromFile_outputs hne hi ps (Function.update fs (newName name p) (some (resultText avg vec interval p)))
      (fun q hq => hps q (List.mem_cons_of_mem p hq)) ?_
    by_cases hf : file = newName name p
    · obtain ⟨n, hn, t, ht⟩ := @resultText_start avg vec hne interval hi p (hps p List.mem_cons_self)
      apply readFromFile_number hn (show ' '.isDigit = false by decide)
      rw [hf, Function.update_self, ht]
    · unfold readFromFile at h ⊢
      rwa [Function.update_of_ne hf]

/-! ## One entry of the directory -/

variable {dir : Text} {interval : UInt64}

/-- What an entry must be for the run to go on. -/
structure Safe (dir : Text) (interval : UInt64) (fs : Files) (name : Text) : Prop where
  four : name ≠ ['.'] → name ≠ ['.', '.'] → 4 ≤ name.length
  fits : isLat name = true → (path dir name).length ≤ 127
  sample : isLat name = true → readFromFile fs (path dir name) ≠ []
  window : isLat name = true → windowLength interval ≠ 0

/-- What an entry does. -/
structure Did (avg : List UInt64 → UInt64) (dir : Text) (interval : UInt64) (fs : Files) (name : Text) (fs' : Files)
    (out : List Line) : Prop where
  files : fs' = if isLat name then outputs avg (path dir name) (readFromFile fs (path dir name))
    (windowLength interval) percents fs else fs
  read : out.filterMap Line.reads = if isLat name then [path dir name] else []

theorem entry_safe {fs : Files} {name : Text} (h : Safe dir interval fs name) :
    ∃ r, entry avg dir interval fs name = .ok r := by
  unfold entry
  by_cases hdot : name = ['.'] ∨ name = ['.', '.']
  · exact ⟨_, if_pos hdot⟩
  have hlen : 4 ≤ name.length := h.four (fun hd => hdot (.inl hd)) (fun hd => hdot (.inr hd))
  rw [if_neg hdot, if_neg (Nat.not_lt.mpr hlen)]
  by_cases hlat : isLat name = true
  · obtain ⟨lines, hlines, _⟩ := @detailHandler_ok avg fs (path dir name) (h.sample hlat) (toInt interval) (h.window hlat)
    have hfit := h.fits hlat
    rw [if_pos hlat, if_neg (by omega)]
    exact ⟨_, hlines⟩
  · exact ⟨_, if_neg hlat⟩

theorem entry_inv {fs fs' : Files} {name : Text} {out : List Line}
    (h : entry avg dir interval fs name = .ok (fs', out)) :
    Safe dir interval fs name ∧ Did avg dir interval fs name fs' out := by
  unfold entry at h
  by_cases hdot : name = ['.'] ∨ name = ['.', '.']
  · rw [if_pos hdot] at h
    cases h
    have hlat : isLat name = false := by rcases hdot with rfl | rfl <;> decide
    refine ⟨⟨fun h₁ h₂ => (hdot.elim h₁ h₂).elim, ?_, ?_, ?_⟩, ?_, ?_⟩ <;> simp [hlat]
  rw [if_neg hdot] at h
  by_cases hlen : name.length < 4
  · rw [if_pos hlen] at h
    cases h
  rw [if_neg hlen] at h
  have hlen := Nat.not_lt.mp hlen
  by_cases hlat : isLat name = true
  · rw [if_pos hlat] at h
    by_cases hfit : 128 ≤ (path dir name).length
    · rw [if_pos hfit] at h
      cases h
    rw [if_neg hfit] at h
    obtain ⟨hne, hi, hread⟩ := detailHandler_inv h
    obtain ⟨lines, hlines, _⟩ := @detailHandler_ok avg fs (path dir name) hne (toInt interval) hi
    rw [h] at hlines
    cases hlines
    refine ⟨⟨fun _ _ => hlen, fun _ => by omega, fun _ => hne, fun _ => hi⟩, ?_, ?_⟩
    · rw [if_pos hlat]
      rfl
    · rw [if_pos hlat, hread]
  · rw [if_neg hlat] at h
    cases h
    refine ⟨⟨fun _ _ => hlen, ?_, ?_, ?_⟩, ?_, ?_⟩ <;> simp [hlat]

theorem newName_lat {n m : Text} {p : Rat} (hn : isLat n = true) (hm : isLat m = true)
    (hfit : (path dir n).length ≤ 127) (hp : p ∈ percents) (h : newName (path dir n) p = path dir m) : m = n := by
  rw [newName_path hfit] at h
  have h := path_inj h
  rcases Nat.eq_zero_or_pos (127 - (path dir n).length) with hz | hpos
  · rw [hz, List.take_zero, List.append_nil] at h
    exact h.symm
  · have := isLat_suffix hn hp hpos
    rw [h, hm] at this
    cases this

/-- Which inputs have samples does not change: an output is no input, unless it
is written over its own input. -/
theorem entry_sample {fs fs' : Files} {name : Text} {out : List Line}
    (h : entry avg dir interval fs name = .ok (fs', out)) {m : Text} (hm : isLat m = true) :
    readFromFile fs' (path dir m) ≠ [] ↔ readFromFile fs (path dir m) ≠ [] := by
  obtain ⟨hsafe, hdid⟩ := entry_inv h
  rw [hdid.files]
  by_cases hlat : isLat name = true
  · rw [if_pos hlat]
    by_cases hmn : m = name
    · rw [hmn]
      have hne := hsafe.sample hlat
      exact iff_of_true (readFromFile_outputs hne (hsafe.window hlat) percents fs (fun p hp => hp) hne) hne
    · have hkept : ∀ p ∈ percents, path dir m ≠ newName (path dir name) p := fun p hp he =>
        hmn (newName_lat hlat hm (hsafe.fits hlat) hp he.symm)
      unfold readFromFile
      rw [outputs_other avg _ _ _ percents fs hkept]
  · rw [if_neg hlat]

theorem entry_safe_iff {fs fs' : Files} {name : Text} {out : List Line}
    (h : entry avg dir interval fs name = .ok (fs', out)) (m : Text) :
    Safe dir interval fs' m ↔ Safe dir interval fs m :=
  ⟨fun hm => ⟨hm.four, hm.fits, fun hlat => (entry_sample h hlat).mp (hm.sample hlat), hm.window⟩,
    fun hm => ⟨hm.four, hm.fits, fun hlat => (entry_sample h hlat).mpr (hm.sample hlat), hm.window⟩⟩

/-! ## A whole scan -/

theorem scan_safe : ∀ {names : List Text} {fs : Files}, (∀ name ∈ names, Safe dir interval fs name) →
    ∃ r, scan avg dir interval names fs = .ok r
  | [], fs, _ => ⟨(fs, []), rfl⟩
  | name :: names, fs, h => by
    obtain ⟨⟨fs₁, out₁⟩, h₁⟩ := entry_safe (h name List.mem_cons_self)
    obtain ⟨r, hr⟩ := scan_safe fun m hm => (entry_safe_iff h₁ m).mpr (h m (List.mem_cons_of_mem name hm))
    exact ⟨_, Lib.bind_eq_ok.mpr ⟨_, h₁, Lib.bind_eq_ok.mpr ⟨r, hr, rfl⟩⟩⟩

theorem scan_inv : ∀ {names : List Text} {fs fs' : Files} {out : List Line},
    scan avg dir interval names fs = .ok (fs', out) →
      (∀ name ∈ names, Safe dir interval fs name) ∧ out.filterMap Line.reads = (names.filter isLat).map (path dir)
  | [], _, _, _, h => by
    cases h
    simp
  | name :: names, fs, fs', out, h => by
    obtain ⟨⟨fs₁, out₁⟩, h₁, h⟩ := Lib.bind_eq_ok.mp h
    obtain ⟨⟨fs₂, out₂⟩, h₂, h⟩ := Lib.bind_eq_ok.mp h
    cases h
    obtain ⟨hsafe, hdid⟩ := entry_inv h₁
    obtain ⟨hrest, hreads⟩ := scan_inv h₂
    refine ⟨fun m hm => ?_, ?_⟩
    · rcases List.mem_cons.mp hm with rfl | hm
      · exact hsafe
      · exact (entry_safe_iff h₁ m).mp (hrest m hm)
    · rw [List.filterMap_append, hdid.read, hreads]
      by_cases hlat : isLat name = true
      · simp [hlat]
      · simp [hlat]

end

/-! ## The interval -/

theorem windowLength_eq_iff (i : Int64) :
    ((windowLength i.toUInt64).toNat : Int) = i.toInt ↔ 0 ≤ i.toInt ∧ i.toInt < 2 ^ 31 := by
  have hlt : i.toUInt64.toNat < 2 ^ 64 := i.toUInt64.toNat_lt
  have hi : i.toInt = if 2 * i.toUInt64.toNat < 2 ^ 64 then (i.toUInt64.toNat : Int)
      else (i.toUInt64.toNat : Int) - 2 ^ 64 := i.toBitVec.toInt_eq_toNat_cond
  have hu : toInt i.toUInt64 = if 2 * (i.toUInt64.toNat % 2 ^ 32) < 2 ^ 32 then ((i.toUInt64.toNat % 2 ^ 32 : Nat) : Int)
      else ((i.toUInt64.toNat % 2 ^ 32 : Nat) : Int) - 2 ^ 32 := i.toUInt64.toUInt32.toBitVec.toInt_eq_toNat_cond
  have hw : ((windowLength i.toUInt64).toNat : Int) = toInt i.toUInt64 % 2 ^ 64 := by
    have hpos := Int.emod_nonneg (toInt i.toUInt64) (show (2 : Int) ^ 64 ≠ 0 by decide)
    have hlt := Int.emod_lt_of_pos (toInt i.toUInt64) (show (0 : Int) < 2 ^ 64 by decide)
    unfold windowLength UInt64.ofInt
    rw [UInt64.toNat_ofNat', Nat.mod_eq_of_lt (by omega)]
    exact Int.toNat_of_nonneg hpos
  rw [hw, hi, hu]
  generalize i.toUInt64.toNat = x at hlt ⊢
  split <;> split <;> omega

/-! ## Runs without a fault -/

/-- The run ends, it selects the names that end in `.lat`, and its windows are
as long as the interval. -/
structure Analyses (avg : List UInt64 → UInt64) (dir : Text) (interval : Int64) (names : List Text) (fs : Files) :
    Prop where
  run : ∃ fs' out, scan avg dir interval.toUInt64 names fs = .ok (fs', out) ∧
    out.filterMap Line.reads = (names.filter fun name => ['.', 'l', 'a', 't'].isSuffixOf name).map (path dir)
  window : ∀ name ∈ names, ['.', 'l', 'a', 't'] <:+ name →
    ((windowLength interval.toUInt64).toNat : Int) = interval.toInt

theorem isLat_iff_suffix {name : Text} : isLat name = true ↔ ['.', 'l', 'a', 't'] <:+ name := by
  rw [isLat_iff]
  exact exists_congr fun t => eq_comm

theorem isLat_eq : isLat = fun name => ['.', 'l', 'a', 't'].isSuffixOf name := by
  funext name
  rw [Bool.eq_iff_iff, isLat_iff_suffix, List.isSuffixOf_iff_suffix]

theorem windowLength_ne_zero {i : Int64} (h : ((windowLength i.toUInt64).toNat : Int) = i.toInt) :
    windowLength i.toUInt64 ≠ 0 ↔ 0 < i.toInt := by
  rw [← h]
  refine ⟨fun hne => ?_, fun hpos => toNat_pos_iff.mp (by omega)⟩
  have := toNat_pos_iff.mpr hne
  omega

/-- **Runs of the analysis.** -/
theorem analyses_iff (avg : List UInt64 → UInt64) (dir : Text) (interval : Int64) (names : List Text) (fs : Files) :
    Analyses avg dir interval names fs ↔
      (∀ name ∈ names, name ≠ ['.'] → name ≠ ['.', '.'] → 4 ≤ name.length) ∧
      ∀ name ∈ names, ['.', 'l', 'a', 't'] <:+ name →
        (path dir name).length ≤ 127 ∧ readFromFile fs (path dir name) ≠ [] ∧
        0 < interval.toInt ∧ interval.toInt < 2 ^ 31 := by
  constructor
  · rintro ⟨⟨fs', out, hscan, _⟩, hwindow⟩
    obtain ⟨hsafe, _⟩ := scan_inv hscan
    refine ⟨fun name hname => (hsafe name hname).four, fun name hname hlat => ?_⟩
    have h := hsafe name hname
    have heq := hwindow name hname hlat
    have hlat := isLat_iff_suffix.mpr hlat
    exact ⟨h.fits hlat, h.sample hlat, (windowLength_ne_zero heq).mp (h.window hlat),
      ((windowLength_eq_iff interval).mp heq).2⟩
  · rintro ⟨hfour, hlats⟩
    have heq : ∀ name ∈ names, ['.', 'l', 'a', 't'] <:+ name →
        ((windowLength interval.toUInt64).toNat : Int) = interval.toInt := by
      intro name hname hlat
      obtain ⟨_, _, hpos, hlt⟩ := hlats name hname hlat
      exact (windowLength_eq_iff interval).mpr ⟨by omega, hlt⟩
    have hsafe : ∀ name ∈ names, Safe dir interval.toUInt64 fs name := by
      intro name hname
      refine ⟨hfour name hname, fun hlat => ?_, fun hlat => ?_, fun hlat => ?_⟩ <;>
        have hlat := isLat_iff_suffix.mp hlat <;>
        obtain ⟨hfit, hne, hpos, _⟩ := hlats name hname hlat
      · exact hfit
      · exact hne
      · exact (windowLength_ne_zero (heq name hname hlat)).mpr hpos
    obtain ⟨⟨fs', out⟩, hscan⟩ := @scan_safe avg dir interval.toUInt64 names fs hsafe
    refine ⟨⟨fs', out, hscan, ?_⟩, heq⟩
    rw [(scan_inv hscan).2, isLat_eq]

/-- An empty `.lat` file, a name of one character, the interval `0`, and the
interval `2 ^ 32 + 5`, which is used as `5`. -/
theorem analyses_faults :
    ¬ Analyses mean ['d'] 10 [['a', '.', 'l', 'a', 't']] (fun _ => some []) ∧
      ¬ Analyses mean ['d'] 10 [['a']] (fun _ => none) ∧
      ¬ Analyses mean ['d'] 0 [['a', '.', 'l', 'a', 't']] (fun _ => some ['7']) ∧
      ¬ Analyses mean ['d'] 4294967301 [['a', '.', 'l', 'a', 't']] (fun _ => some ['7']) := by
  refine ⟨fun h => ?_, fun h => ?_, fun h => ?_, fun h => ?_⟩
  · obtain ⟨⟨fs', out, hscan, _⟩, _⟩ := h
    have hsafe := (scan_inv hscan).1 _ List.mem_cons_self
    exact hsafe.sample (by decide) rfl
  · obtain ⟨⟨fs', out, hscan, _⟩, _⟩ := h
    cases hscan
  · obtain ⟨⟨fs', out, hscan, _⟩, _⟩ := h
    have hsafe := (scan_inv hscan).1 _ List.mem_cons_self
    exact hsafe.window (by decide) (by decide)
  · have hwindow := h.window _ List.mem_cons_self (by decide)
    revert hwindow
    decide

end IoTester.Detail

import IoTester.Lib.Windows
import IoTester.Lib.Except
import IoTester.Decimal
import IoTester.DetailSound

/-!
# The windows of the offline analysis

`tail_latency_handler` summarises the windows of `Lib.windows`: one sample,
then whole chunks, and nothing of an incomplete one. `result_output` labels
them again from their position in the list of summaries.
-/

namespace IoTester.Detail

open Lib (window)

def windows (interval : UInt64) (vec : List UInt64) : List (List UInt64) := Lib.windows interval.toNat 0 [] vec

section
variable (avg : List UInt64 → UInt64) (p : Rat) {interval : UInt64}

theorem tailLoop_eq_mapM (hi : interval ≠ 0) : ∀ (vec : List UInt64) (i : Nat) (tmp : List UInt64),
    tailLoop avg p interval i tmp vec = (Lib.windows interval.toNat i tmp vec).mapM (summary avg p)
  | [], _, _ => rfl
  | v :: vec, i, tmp => by
    rw [tailLoop_cons, Lib.windows, if_neg hi]
    by_cases hclose : i % interval.toNat = 0
    · rw [if_pos hclose, if_pos hclose, List.mapM_cons, tailLoop_eq_mapM hi vec]
      rfl
    · rw [if_neg hclose, if_neg hclose]
      exact tailLoop_eq_mapM hi vec (i + 1) (tmp ++ [v])

end

/-- Windows that are the consecutive chunks of a list. -/
def Chunked (interval : UInt64) (vec : List UInt64) (ws : List (List UInt64)) : Prop :=
  ws.flatten = vec ∧ ∀ w ∈ ws.dropLast, w.length = interval.toNat

instance (interval : UInt64) (vec : List UInt64) (ws : List (List UInt64)) : Decidable (Chunked interval vec ws) :=
  inferInstanceAs (Decidable (_ ∧ _))

/-- **The windows are the chunks of the input** exactly when they have one
sample each, or when there is at most one sample. -/
theorem windows_chunked_iff {interval : UInt64} (hi : 1 ≤ interval) (vec : List UInt64) :
    (∀ avg p, tailLoop avg p interval 0 [] vec = (windows interval vec).mapM (summary avg p)) ∧
      (Chunked interval vec (windows interval vec) ↔ interval = 1 ∨ vec.length ≤ 1) := by
  have hpos : 0 < interval.toNat := UInt64.le_iff_toNat_le.mp hi
  refine ⟨fun avg p => tailLoop_eq_mapM avg p (toNat_pos_iff.mp hpos) vec 0 [], ?_⟩
  unfold windows
  cases vec with
  | nil => simp [Chunked, Lib.windows]
  | cons v vec =>
    rw [Lib.windows_cons hpos]
    constructor
    · rintro ⟨hflat, hlen⟩
      cases hc : Lib.chunks interval.toNat vec with
      | nil =>
        right
        rw [hc] at hflat
        simp at hflat
        simp [← hflat]
      | cons w ws =>
        left
        rw [hc] at hlen
        have hone := hlen [v] (by simp)
        exact UInt64.toNat_inj.mp hone.symm
    · rintro (rfl | hlen)
      · rw [show (1 : UInt64).toNat = 1 from rfl, Lib.chunks_one]
        refine ⟨?_, fun w hw => ?_⟩
        · rw [List.flatten_cons, ← List.flatMap_def, List.flatMap_singleton', List.singleton_append]
        · rcases List.mem_cons.mp ((List.dropLast_subset _) hw) with rfl | hw
          · rfl
          · obtain ⟨a, _, rfl⟩ := List.mem_map.mp hw
            rfl
      · have hnil : vec = [] := by simpa using hlen
        simp [Chunked, hnil, Lib.chunks]

theorem windows_chunked_iff_singles : Chunked 1 [10, 20] (windows 1 [10, 20]) :=
  (windows_chunked_iff (by decide) [10, 20]).2.mpr (.inl rfl)

theorem windows_lose_sample : ¬ Chunked 2 [10, 20] (windows 2 [10, 20]) := by decide

/-! ## The lines of a result file -/

def lineText (label : Nat) (value : UInt64) : Text := decN label ++ ' ' :: decN value.toNat ++ ['\n']

theorem count_newline_lineText (label : Nat) (value : UInt64) : (lineText label value).count '\n' = 1 := by
  simp [lineText, count_newline_decN]

theorem count_newline_lines (label : Nat → Nat) (value : Nat → UInt64) (m : Nat) :
    ((List.range m).flatMap fun k => lineText (label k) (value k)).count '\n' = m := by
  rw [List.count_flatMap]
  simp [Function.comp_def, count_newline_lineText]

theorem zipIdx_eq_map (data : List UInt64) :
    data.zipIdx = (List.range data.length).map fun k => (data.getD k 0, k) := by
  apply List.ext_getElem
  · simp
  · intro k h₁ h₂
    have hk : k < data.length := by simpa using h₁
    simp [hk]

theorem resultOutput_eq (data : List UInt64) {interval : UInt64} (hint : interval.toNat < 2 ^ 31) :
    resultOutput data interval =
      (List.range (min data.length (2 ^ 31))).flatMap fun k => lineText (k * interval.toNat) (data.getD k 0) := by
  unfold resultOutput
  rw [zipIdx_eq_map, List.flatMap_map, List.length_take, Nat.min_comm]
  refine List.flatMap_congr fun k hk => ?_
  have hk : k < data.length ∧ k < 2 ^ 31 := by simpa [Nat.lt_min] using hk
  have hbound : k * interval.toNat ≤ 2 ^ 31 * 2 ^ 31 := Nat.mul_le_mul (by omega) (by omega)
  have hlabel : (interval * UInt64.ofNat k).toNat = k * interval.toNat := by
    rw [UInt64.toNat_mul, UInt64.toNat_ofNat_of_lt' (show k < 2 ^ 64 by omega), Nat.mul_comm, Nat.mod_eq_of_lt (by omega)]
  have hget : (data.take (2 ^ 31)).getD k 0 = data.getD k 0 := by
    rw [List.getD_eq_getElem?_getD, List.getD_eq_getElem?_getD, List.getElem?_take_of_lt hk.2]
  simp only [hlabel, hget, lineText]

/-- The lines that a file should have: one for each multiple of the interval
below the number of samples. -/
def lineCount (interval : UInt64) (v : List UInt64) : Nat := (v.length + interval.toNat - 1) / interval.toNat

/-- The element at index `p * size` of the sorted window. -/
def tailOf (p : Rat) (w : List UInt64) : UInt64 := (w.mergeSort (· ≤ ·))[tailIndex p w.length]?.getD 0

section
variable {p : Rat} (h0 : 0 < p) (h1 : p < 1)
include h0 h1

theorem getElem?_tailOf {w : List UInt64} (hne : w ≠ []) :
    (w.mergeSort (· ≤ ·))[tailIndex p w.length]? = some (tailOf p w) := by
  have hlt : tailIndex p w.length < (w.mergeSort (· ≤ ·)).length := by
    rw [List.length_mergeSort]
    exact tailIndex_lt (le_of_lt h0) h1 (List.length_pos_iff.mpr hne)
  unfold tailOf
  rw [List.getElem?_eq_getElem hlt]
  rfl

theorem summary_eq (avg : List UInt64 → UInt64) {w : List UInt64} (hne : w ≠ []) :
    summary avg p w = .ok (tailOf p w) := by
  rw [summary_def, if_neg (ne_of_gt h0)]
  rw [List.length_mergeSort, getElem?_tailOf h0 h1 hne]

section
variable {interval : UInt64} (hpos : 0 < interval.toNat)
include hpos

theorem tailLoop_eq (avg : List UInt64 → UInt64) (v : List UInt64) :
    tailLoop avg p interval 0 [] v =
      .ok ((List.range (lineCount interval v)).map fun k => tailOf p (window interval.toNat v k)) := by
  have hok : ∀ w ∈ (List.range (lineCount interval v)).map (window interval.toNat v),
      summary avg p w = .ok (tailOf p w) := by
    intro w hw
    obtain ⟨k, hk, rfl⟩ := List.mem_map.mp hw
    exact summary_eq h0 h1 avg (Lib.window_ne_nil (List.mem_range.mp hk))
  rw [tailLoop_eq_mapM avg p (toNat_pos_iff.mp hpos), Lib.windows_eq hpos]
  refine (Lib.mapM_ok hok).trans ?_
  rw [List.map_map]
  rfl

/-- **The result file.** -/
theorem tailLatencyHandler_eq (hint : interval.toNat < 2 ^ 31) (avg : List UInt64 → UInt64) (fs : Files) (name : Text)
    (v : List UInt64) : ∃ line, tailLatencyHandler avg fs name v p interval =
      .ok (Function.update fs (newName name p) (some ((List.range (min (lineCount interval v) (2 ^ 31))).flatMap
        fun k => lineText (k * interval.toNat) (tailOf p (window interval.toNat v k)))), line) := by
  rw [tailLatencyHandler_def, tailLoop_eq h0 h1 hpos]
  refine ⟨_, congrArg (fun text => Except.ok (Function.update fs (newName name p) (some text), _)) ?_⟩
  rw [resultOutput_eq _ hint, List.length_map, List.length_range]
  refine List.flatMap_congr fun k hk => ?_
  have hk : k < lineCount interval v := (Nat.lt_min.mp (List.mem_range.mp hk)).1
  simp [hk]

end

end

/-- What the file of a percentile says: its lines, their labels and values, and
where in the input they come from. -/
structure Reports (p : Rat) (interval : UInt64) (v : List UInt64) (text : Text) (value : Nat → UInt64) : Prop where
  content : text = (List.range (lineCount interval v)).flatMap fun k => lineText (k * interval.toNat) (value k)
  lines : text.count '\n' = lineCount interval v
  last : ∀ k < lineCount interval v, k * interval.toNat < v.length ∧
    (window interval.toNat v k).getLast? = v[k * interval.toNat]?
  rank : ∀ k < lineCount interval v,
    ((window interval.toNat v k).mergeSort (· ≤ ·))[tailIndex p (window interval.toNat v k).length]? = some (value k)
  increasing : ∀ j k, j < k → j * interval.toNat < k * interval.toNat
  sample : ∀ k < lineCount interval v, ∃ j, v[j]? = some (value k) ∧ j ≤ k * interval.toNat ∧
    (k ≠ 0 → (k - 1) * interval.toNat < j)

section
variable {p : Rat} (h0 : 0 < p) (h1 : p < 1) {interval : UInt64} (hpos : 0 < interval.toNat)
  (hint : interval.toNat < 2 ^ 31)
include h0 h1 hpos hint

theorem lineCount_le_of_reports {avg : List UInt64 → UInt64} {fs fs' : Files} {name : Text} {v : List UInt64}
    {line : Line} {text : Text} {value : Nat → UInt64}
    (hok : tailLatencyHandler avg fs name v p interval = .ok (fs', line)) (htext : fs' (newName name p) = some text)
    (hrep : Reports p interval v text value) : lineCount interval v ≤ 2 ^ 31 := by
  obtain ⟨line', hline⟩ := tailLatencyHandler_eq h0 h1 hpos hint avg fs name v
  rw [hline] at hok
  cases hok
  rw [Function.update_self] at htext
  cases htext
  have hlines := hrep.lines
  rw [count_newline_lines] at hlines
  omega

theorem reports_of_lineCount_le (avg : List UInt64 → UInt64) (fs : Files) (name : Text) {v : List UInt64}
    (hle : lineCount interval v ≤ 2 ^ 31) :
    ∃ fs' line text value, tailLatencyHandler avg fs name v p interval = .ok (fs', line) ∧
      fs' (newName name p) = some text ∧ Reports p interval v text value := by
  obtain ⟨line, hline⟩ := tailLatencyHandler_eq h0 h1 hpos hint avg fs name v
  refine ⟨_, line, _, fun k => tailOf p (window interval.toNat v k), hline, Function.update_self .., ?_⟩
  rw [Nat.min_eq_left hle]
  have hget : ∀ k < lineCount interval v, ((window interval.toNat v k).mergeSort (· ≤ ·))[tailIndex p
      (window interval.toNat v k).length]? = some (tailOf p (window interval.toNat v k)) := fun k hk =>
    getElem?_tailOf h0 h1 (Lib.window_ne_nil hk)
  refine ⟨rfl, count_newline_lines _ _ _, fun k hk => ?_, hget, fun j k hjk => ?_, fun k hk => ?_⟩
  · exact ⟨Lib.lt_of_window hk, Lib.getLast?_window hk⟩
  · exact Nat.mul_lt_mul_of_pos_right hjk hpos
  · have hmem := List.mem_of_getElem? (hget k hk)
    exact Lib.mem_window ((List.mergeSort_perm _ _).mem_iff.mp hmem)

end

/-- **The labels of the windows** are right exactly when the lines fit the `int`
that counts them. -/
theorem labels_iff {p : Rat} (hp : p = 99 / 100 ∨ p = 999 / 1000 ∨ p = 9999 / 10000) {interval : UInt64}
    (hpos : 1 ≤ interval.toNat) (hint : interval.toNat < 2 ^ 31) (avg : List UInt64 → UInt64) (fs : Files) (name : Text)
    (v : List UInt64) :
    (∃ fs' line text value, tailLatencyHandler avg fs name v p interval = .ok (fs', line) ∧
      fs' (newName name p) = some text ∧ Reports p interval v text value) ↔ lineCount interval v ≤ 2 ^ 31 := by
  have hrange : 0 < p ∧ p < 1 := by rcases hp with rfl | rfl | rfl <;> norm_num
  obtain ⟨h0, h1⟩ := hrange
  constructor
  · rintro ⟨fs', line, text, value, hok, htext, hrep⟩
    exact lineCount_le_of_reports h0 h1 hpos hint hok htext hrep
  · exact reports_of_lineCount_le h0 h1 hpos hint avg fs name

theorem labels_iff_five_samples :
    ∃ fs' line text value,
      tailLatencyHandler mean (fun _ => none) ['a'] [5, 4, 3, 2, 1] (99 / 100) 2 = .ok (fs', line) ∧
        fs' (newName ['a'] (99 / 100)) = some text ∧ Reports (99 / 100) 2 [5, 4, 3, 2, 1] text value :=
  (labels_iff (.inl rfl) (by decide) (by decide) mean _ _ _).mpr (by decide)

theorem lineCount_one (v : List UInt64) : lineCount 1 v = v.length := by
  simp [lineCount]

/-- One sample more than an `int` counts, in windows of one sample. -/
theorem labels_stop :
    ¬ ∃ fs' line text value,
      tailLatencyHandler mean (fun _ => none) ['a'] (List.replicate (2 ^ 31 + 1) 7) (99 / 100) 1 = .ok (fs', line) ∧
        fs' (newName ['a'] (99 / 100)) = some text ∧
        Reports (99 / 100) 1 (List.replicate (2 ^ 31 + 1) 7) text value := by
  rintro ⟨fs', line, text, value, hok, htext, hrep⟩
  have hle := lineCount_le_of_reports (by norm_num) (by norm_num) (by decide) (by decide) hok htext hrep
  rw [lineCount_one, List.length_replicate] at hle
  exact Nat.not_succ_le_self _ hle

end IoTester.Detail

import IoTester.Lib.Except
import IoTester.Lib.Ranks
import IoTester.Detail
import Mathlib.Data.Rat.Floor

/-!
# The analysis keeps its inputs

The outputs of `detail.cc` stand in the directory that it scans. Their names
are the name of the input with a suffix, cut at the size of a buffer; as long
as enough of the suffix is left, outputs are told apart from each other and
from inputs, and a second run finds the same inputs and writes the same files.
-/

namespace IoTester.Detail

/-! ## No window is empty -/

theorem tailIndex_lt {p : Rat} (h0 : 0 ≤ p) (h1 : p < 1) {n : Nat} (hn : 0 < n) : tailIndex p n < n := by
  have hn' : (0 : Rat) < n := by exact_mod_cast hn
  have hlt : (n : Rat) * p < n := by nlinarith
  have hfloor : ⌊(n : Rat) * p⌋ < n := Int.floor_lt.mpr (by exact_mod_cast hlt)
  have hnonneg : 0 ≤ ⌊(n : Rat) * p⌋ := Int.floor_nonneg.mpr (by positivity)
  unfold tailIndex
  have : (((n : Rat) * p).floor.toNat : Int) = ⌊(n : Rat) * p⌋ := Int.toNat_of_nonneg hnonneg
  omega

section
variable (avg : List UInt64 → UInt64)

theorem summary_ok {p : Rat} (h0 : 0 ≤ p) (h1 : p < 1) {tmp : List UInt64} (hne : tmp ≠ []) :
    ∃ v, summary avg p tmp = .ok v := by
  rw [summary_def]
  by_cases hp : p = 0
  · exact ⟨_, if_pos hp⟩
  · have hlen : 0 < (tmp.mergeSort (· ≤ ·)).length := by
      rw [List.length_mergeSort]
      exact List.length_pos_iff.mpr hne
    simp only [hp, if_false, List.getElem?_eq_getElem (tailIndex_lt h0 h1 hlen)]
    exact ⟨_, rfl⟩

theorem tailLoop_ok {p : Rat} (h0 : 0 ≤ p) (h1 : p < 1) {interval : UInt64} (hi : interval ≠ 0) :
    ∀ (vec : List UInt64) (i : Nat) (tmp : List UInt64), ∃ tails, tailLoop avg p interval i tmp vec = .ok tails
  | [], _, _ => ⟨[], rfl⟩
  | v :: vec, i, tmp => by
    simp only [tailLoop_cons, hi, if_false]
    by_cases hclose : i % interval.toNat = 0
    · obtain ⟨value, hvalue⟩ := @summary_ok avg p h0 h1 (tmp ++ [v]) (by simp)
      obtain ⟨rest, hrest⟩ := tailLoop_ok h0 h1 hi vec (i + 1) []
      simp only [hclose, if_true, hvalue, hrest]
      exact ⟨_, rfl⟩
    · simp only [hclose, if_false]
      exact tailLoop_ok h0 h1 hi vec (i + 1) (tmp ++ [v])

def resultText (vec : List UInt64) (interval : UInt64) (p : Rat) : Text :=
  match tailLoop avg p interval 0 [] vec with
  | .ok tails => resultOutput tails interval
  | .error _ => []

def outputs (name : Text) (vec : List UInt64) (interval : UInt64) (ps : List Rat) (fs : Files) : Files :=
  ps.foldl (fun fs p => Function.update fs (newName name p) (some (resultText avg vec interval p))) fs

theorem percents_range : ∀ p ∈ percents, 0 ≤ p ∧ p < 1 := by decide +kernel

theorem tailLatencyHandlers_ok (name : Text) (vec : List UInt64) {interval : UInt64} (hi : interval ≠ 0) :
    ∀ (ps : List Rat) (fs : Files), (∀ p ∈ ps, 0 ≤ p ∧ p < 1) →
      ∃ lines, tailLatencyHandlers avg name vec interval ps fs = .ok (outputs avg name vec interval ps fs, lines)
  | [], fs, _ => ⟨[], rfl⟩
  | p :: ps, fs, h => by
    obtain ⟨h0, h1⟩ := h p List.mem_cons_self
    obtain ⟨tails, htails⟩ := tailLoop_ok avg h0 h1 hi vec 0 []
    have htext : resultText avg vec interval p = resultOutput tails interval := by
      unfold resultText
      rw [htails]
    obtain ⟨lines, hlines⟩ := tailLatencyHandlers_ok name vec hi ps
      (Function.update fs (newName name p) (some (resultOutput tails interval)))
      (fun q hq => h q (List.mem_cons_of_mem p hq))
    refine ⟨.written (newName name p) tails.length :: lines, ?_⟩
    simp only [tailLatencyHandlers_cons, tailLatencyHandler_def, htails, bind, Except.bind, hlines, outputs,
      List.foldl_cons, htext]

theorem getTailLatency_ok {vec : List UInt64} (hne : vec ≠ []) {p : Rat} (h0 : 0 ≤ p) (h1 : p < 1) :
    ∃ line, getTailLatency vec p = .ok line := by
  rw [getTailLatency_def]
  rw [List.getElem?_eq_getElem (tailIndex_lt h0 h1 (List.length_pos_iff.mpr hne))]
  exact ⟨_, rfl⟩

theorem mapM_getTailLatency_ok {vec : List UInt64} (hne : vec ≠ []) {ps : List Rat} (h : ∀ p ∈ ps, 0 ≤ p ∧ p < 1) :
    ∃ lines, ps.mapM (getTailLatency vec) = .ok lines ∧ ∀ p ∈ ps, ∃ line ∈ lines, getTailLatency vec p = .ok line := by
  obtain ⟨lines, hlines⟩ := Lib.exists_mapM_ok fun p hp => getTailLatency_ok hne (h p hp).1 (h p hp).2
  exact ⟨lines, hlines, fun p hp => Lib.ok_of_mapM hlines hp⟩

def reported : List Rat := [1 / 2, 3 / 4, 90 / 100, 99 / 100, 999 / 1000, 9999 / 10000]

theorem reported_range : ∀ p ∈ reported, 0 ≤ p ∧ p < 1 := by decide +kernel

theorem detailHandler_ok {fs : Files} {name : Text} (hne : readFromFile fs name ≠ []) {interval : Int}
    (hi : UInt64.ofInt interval ≠ 0) : ∃ lines, detailHandler avg fs name interval =
      .ok (outputs avg name (readFromFile fs name) (UInt64.ofInt interval) percents fs, lines) ∧
      (∃ line ∈ lines, getAvgLatency ((readFromFile fs name).mergeSort (· ≤ ·)) = .ok line) ∧
      ∀ p ∈ reported, ∃ line ∈ lines, getTailLatency ((readFromFile fs name).mergeSort (· ≤ ·)) p = .ok line := by
  obtain ⟨lines, hlines⟩ := tailLatencyHandlers_ok avg name (readFromFile fs name) hi percents fs percents_range
  have hsorted := Lib.mergeSort_ne_nil hne
  obtain ⟨tails, htails, hmem⟩ := mapM_getTailLatency_ok hsorted reported_range
  simp only [detailHandler_def, hlines, getAvgLatency, hsorted, if_false, bind, Except.bind] at htails ⊢
  unfold reported at htails
  rw [htails]
  refine ⟨_, rfl, ⟨_, by simp, rfl⟩, fun p hp => ?_⟩
  obtain ⟨line, hline, he⟩ := hmem p hp
  exact ⟨line, by simp [hline], he⟩

end

/-! ## Names -/

theorem toInt_of_lt {interval : UInt64} (h : interval.toNat < 2 ^ 31) : UInt64.ofInt (toInt interval) = interval := by
  have hmod : interval.toUInt32.toBitVec.toNat = interval.toNat := by
    show interval.toUInt32.toNat = _
    rw [UInt64.toNat_toUInt32, Nat.mod_eq_of_lt (by omega)]
  have hint : toInt interval = (interval.toNat : Int) := by
    unfold toInt
    rw [BitVec.toInt_eq_toNat_of_lt (by omega), hmod]
  have hlt := interval.toNat_lt
  unfold UInt64.ofInt
  rw [hint, Int.emod_eq_of_lt (by omega) (by omega)]
  simp

theorem path_append (dir name s : Text) : path dir name ++ s = path dir (name ++ s) := by
  simp [path]

theorem path_inj {dir n m : Text} (h : path dir n = path dir m) : n = m := by
  simpa [path] using h

theorem newName_eq {name : Text} (h : name.length ≤ 127) (p : Rat) :
    newName name p = name ++ (suffix p).take (127 - name.length) := by
  rw [newName_def]
  rw [List.take_append, List.take_of_length_le h]

theorem isLat_append {s : Text} (h : 4 ≤ s.length) (t : Text) : isLat (t ++ s) = isLat s := by
  unfold isLat
  rw [List.length_append, List.drop_append, List.drop_eq_nil_of_le (by omega), List.nil_append,
    show t.length + s.length - 4 - t.length = s.length - 4 by omega]

theorem isLat_iff {name : Text} : isLat name = true ↔ ∃ t, name = t ++ ['.', 'l', 'a', 't'] := by
  refine ⟨fun h => ?_, ?_⟩
  · refine ⟨name.take (name.length - 4), ?_⟩
    have h := of_decide_eq_true h
    rw [← h, List.take_append_drop]
  · rintro ⟨t, rfl⟩
    rw [isLat_append (by decide)]
    rfl

/-- A cut suffix is not the end of a `.lat` name. -/
theorem isLat_suffix {name : Text} (h : isLat name = true) {p : Rat} (hp : p ∈ percents) {k : Nat} (hk : 0 < k) :
    isLat (name ++ (suffix p).take k) = false := by
  obtain ⟨t, rfl⟩ := isLat_iff.mp h
  have hcut : ∀ p ∈ percents, (suffix p).length ≤ 8 := by decide +kernel
  have hall : ∀ p ∈ percents, ∀ k < 8, isLat (['.', 'l', 'a', 't'] ++ (suffix p).take (k + 1)) = false := by
    decide +kernel
  rw [List.append_assoc, isLat_append (by simp)]
  rcases Nat.lt_or_ge (k - 1) 8 with hlt | hge
  · have := hall p hp (k - 1) hlt
    rwa [show k - 1 + 1 = k by omega] at this
  · have := hall p hp 7 (by omega)
    have hlen := hcut p hp
    rw [List.take_of_length_le (by omega)] at this ⊢
    exact this

theorem suffix_inj {p q : Rat} (hp : p ∈ percents) (hq : q ∈ percents) {k : Nat} (hk : 6 ≤ k)
    (h : (suffix p).take k = (suffix q).take k) : p = q := by
  have hall : ∀ p ∈ percents, ∀ q ∈ percents, (suffix p).take 6 = (suffix q).take 6 → p = q := by decide +kernel
  have h6 := congrArg (List.take 6) h
  rw [List.take_take, List.take_take, Nat.min_eq_left hk] at h6
  exact hall p hp q hq h6

theorem suffix_collide {k : Nat} (hk : k ≤ 5) :
    (suffix (999 / 1000)).take k = (suffix (9999 / 10000)).take k := by
  have h5 : (suffix (999 / 1000)).take 5 = (suffix (9999 / 10000)).take 5 := by decide +kernel
  have := congrArg (List.take k) h5
  rwa [List.take_take, List.take_take, Nat.min_eq_left hk] at this

theorem isLat_no_more {name : Text} (h : isLat name = true) {p : Rat} (hp : p ∈ percents) {k : Nat} {s t : Text}
    (hs : (suffix p).take k = s ++ t) (hlat : isLat (name ++ s) = true) : s = [] := by
  have hcut : s = (suffix p).take (min s.length k) := by
    have := congrArg (List.take s.length) hs
    rw [List.take_left, List.take_take] at this
    exact this.symm
  refine Classical.byContradiction fun hne => ?_
  have hpos : 0 < min s.length k := by
    refine Nat.pos_of_ne_zero fun hz => hne ?_
    rw [hcut, hz, List.take_zero]
  have := isLat_suffix h hp hpos
  rw [← hcut, hlat] at this
  cases this

theorem append_suffix_inj {n m : Text} (hn : isLat n = true) (hm : isLat m = true) {p q : Rat}
    (hp : p ∈ percents) (hq : q ∈ percents) {j k : Nat} (h : n ++ (suffix p).take j = m ++ (suffix q).take k) :
    n = m := by
  rcases List.append_eq_append_iff.mp h with ⟨s, rfl, hs⟩ | ⟨s, rfl, hs⟩
  · rw [isLat_no_more hn hp hs hm, List.append_nil]
  · rw [isLat_no_more hm hq hs hn, List.append_nil]

section
variable {dir n m : Text} {p q : Rat}

theorem newName_path (h : (path dir n).length ≤ 127) (p : Rat) :
    newName (path dir n) p = path dir (n ++ (suffix p).take (127 - (path dir n).length)) := by
  rw [newName_eq h, path_append]

theorem newName_inj (hn : isLat n = true) (hm : isLat m = true) (hnl : (path dir n).length ≤ 121)
    (hml : (path dir m).length ≤ 121) (hp : p ∈ percents) (hq : q ∈ percents)
    (h : newName (path dir n) p = newName (path dir m) q) : n = m ∧ p = q := by
  rw [newName_path (by omega), newName_path (by omega)] at h
  have h := path_inj h
  obtain rfl := append_suffix_inj hn hm hp hq h
  exact ⟨rfl, suffix_inj hp hq (by omega) (List.append_cancel_left h)⟩

theorem newName_not_lat (hn : isLat n = true) (hnl : (path dir n).length ≤ 126) (hp : p ∈ percents)
    (h : newName (path dir n) p = path dir m) : isLat m = false := by
  rw [newName_path (by omega)] at h
  rw [← path_inj h]
  exact isLat_suffix hn hp (by omega)

end

/-! ## Runs over a directory -/

def IsInput (dir : Text) (fs : Files) (name : Text) : Prop := isLat name = true ∧ (fs (path dir name)).isSome

structure Directory (dir : Text) (fs : Files) : Prop where
  four : ∀ name, (fs (path dir name)).isSome → 4 ≤ name.length
  fits : ∀ name, (fs (path dir name)).isSome → (path dir name).length ≤ 127
  sample : ∀ name, IsInput dir fs name → readFromFile fs (path dir name) ≠ []

section
variable (avg : List UInt64 → UInt64) (name : Text) (vec : List UInt64) (interval : UInt64)

theorem outputs_other {file : Text} : ∀ (ps : List Rat) (fs : Files), (∀ p ∈ ps, file ≠ newName name p) →
    outputs avg name vec interval ps fs file = fs file
  | [], _, _ => rfl
  | p :: ps, fs, h => by
    have hps := outputs_other ps (Function.update fs (newName name p) (some (resultText avg vec interval p)))
      (fun q hq => h q (List.mem_cons_of_mem p hq))
    refine Eq.trans hps ?_
    rw [Function.update_of_ne (h p List.mem_cons_self)]

theorem outputs_self {p : Rat} : ∀ (ps : List Rat) (fs : Files), p ∈ ps →
    (∀ q ∈ ps, newName name q = newName name p → q = p) →
    outputs avg name vec interval ps fs (newName name p) = some (resultText avg vec interval p)
  | q :: ps, fs, hp, hinj => by
    have hinj' : ∀ r ∈ ps, newName name r = newName name p → r = p := fun r hr => hinj r (List.mem_cons_of_mem q hr)
    by_cases hmem : p ∈ ps
    · exact outputs_self ps _ hmem hinj'
    · -- the last of the calls that writes the file is this one
      obtain rfl : p = q := by
        rcases List.mem_cons.mp hp with h | h
        · exact h
        · exact absurd h hmem
      refine (outputs_other avg name vec interval ps _ ?_).trans (Function.update_self ..)
      intro r hr he
      rw [hinj' r hr he.symm] at hr
      exact hmem hr

end

theorem scan_snoc {avg : List UInt64 → UInt64} {dir : Text} {interval : UInt64} {name : Text} {fs fs₁ : Files}
    {out₁ : List Line} (he : entry avg dir interval fs name = .ok (fs₁, out₁)) :
    ∀ (seen : List Text) (fs₀ : Files) (out : List Line), scan avg dir interval seen fs₀ = .ok (fs, out) →
      scan avg dir interval (seen ++ [name]) fs₀ = .ok (fs₁, out ++ out₁)
  | [], fs₀, out, hs => by
    cases hs
    refine Lib.bind_eq_ok.mpr ⟨_, he, ?_⟩
    simp [scan, bind, Except.bind]
  | m :: seen, fs₀, out, hs => by
    obtain ⟨⟨fs₂, out₂⟩, hm, hs⟩ := Lib.bind_eq_ok.mp hs
    obtain ⟨⟨fs₃, out₃⟩, hr, hs⟩ := Lib.bind_eq_ok.mp hs
    cases hs
    refine Lib.bind_eq_ok.mpr ⟨_, hm, Lib.bind_eq_ok.mpr ⟨_, scan_snoc he seen fs₂ out₃ hr, ?_⟩⟩
    rw [List.append_assoc]

section
variable (avg : List UInt64 → UInt64) (dir : Text) (interval : UInt64) (fs₀ : Files)

/-- The files after some names have been handled. -/
structure After (seen : List Text) (fs : Files) : Prop where
  written : ∀ name ∈ seen, IsInput dir fs₀ name → ∀ p ∈ percents,
    fs (newName (path dir name) p) = some (resultText avg (readFromFile fs₀ (path dir name)) interval p)
  kept : ∀ file, (∀ name ∈ seen, IsInput dir fs₀ name → ∀ p ∈ percents, file ≠ newName (path dir name) p) →
    fs file = fs₀ file

variable {avg dir interval fs₀}
variable (hdir : Directory dir fs₀) (hshort : ∀ name, IsInput dir fs₀ name → (path dir name).length ≤ 121)
include hshort

theorem After.input {seen : List Text} {fs : Files} (h : After avg dir interval fs₀ seen fs) {name : Text}
    (hlat : isLat name = true) : fs (path dir name) = fs₀ (path dir name) := by
  refine h.kept _ fun m _ hm p hp he => ?_
  have hm' := hshort m hm
  have := newName_not_lat hm.1 (by omega) hp he.symm
  rw [hlat] at this
  cases this

omit hshort in
theorem After.there {seen : List Text} {fs : Files} (h : After avg dir interval fs₀ seen fs) {file : Text}
    (hthere : (fs file).isSome) :
    (∃ m ∈ seen, IsInput dir fs₀ m ∧ ∃ p ∈ percents, file = newName (path dir m) p) ∨ (fs₀ file).isSome := by
  by_cases hout : ∃ m ∈ seen, IsInput dir fs₀ m ∧ ∃ p ∈ percents, file = newName (path dir m) p
  · exact .inl hout
  · right
    rw [← h.kept]
    · exact hthere
    · intro m hm hin p hp he
      exact hout ⟨m, hm, hin, p, hp, he⟩

theorem After.four {seen : List Text} {fs : Files} (h : After avg dir interval fs₀ seen fs)
    (hdir : Directory dir fs₀) {name : Text} (hthere : (fs (path dir name)).isSome) : 4 ≤ name.length := by
  rcases h.there hthere with ⟨m, _, hm, p, hp, he⟩ | hold
  · have := hshort m hm
    rw [newName_path (by omega)] at he
    obtain ⟨t, ht⟩ := isLat_iff.mp hm.1
    rw [path_inj he, ht]
    simp only [List.length_append, List.length_cons, List.length_nil]
    omega
  · exact hdir.four name hold

omit hshort in
theorem After.skip {seen : List Text} {fs : Files} (h : After avg dir interval fs₀ seen fs) {name : Text}
    (hn : ¬ IsInput dir fs₀ name) : After avg dir interval fs₀ (seen ++ [name]) fs := by
  refine ⟨fun m hm hin => ?_, fun file hfile => ?_⟩
  · rcases List.mem_append.mp hm with hm | hm
    · exact h.written m hm hin
    · rw [List.mem_singleton.mp hm] at hin
      exact absurd hin hn
  · exact h.kept file fun m hm => hfile m (List.mem_append_left _ hm)

theorem After.handle {seen : List Text} {fs : Files} (h : After avg dir interval fs₀ seen fs) {name : Text}
    (hn : IsInput dir fs₀ name) : After avg dir interval fs₀ (seen ++ [name])
      (outputs avg (path dir name) (readFromFile fs₀ (path dir name)) interval percents fs) := by
  have hself : ∀ p ∈ percents, outputs avg (path dir name) (readFromFile fs₀ (path dir name)) interval percents fs
      (newName (path dir name) p) = some (resultText avg (readFromFile fs₀ (path dir name)) interval p) := by
    intro p hp
    refine outputs_self avg _ _ interval percents fs hp fun q hq he => ?_
    exact (newName_inj hn.1 hn.1 (hshort name hn) (hshort name hn) hq hp he).2
  refine ⟨fun m hm hin p hp => ?_, fun file hfile => ?_⟩
  · by_cases hmn : m = name
    · rw [hmn]
      exact hself p hp
    · have hm : m ∈ seen := by
        rcases List.mem_append.mp hm with hm | hm
        · exact hm
        · exact absurd (List.mem_singleton.mp hm) hmn
      -- the outputs of other inputs are other files
      rw [outputs_other avg _ _ interval percents fs fun q hq he => hmn ?_]
      · exact h.written m hm hin p hp
      · exact (newName_inj hin.1 hn.1 (hshort m hin) (hshort name hn) hp hq he).1
  · rw [outputs_other avg _ _ interval percents fs fun p hp => hfile name (by simp) hn p hp]
    exact h.kept file fun m hm => hfile m (List.mem_append_left _ hm)

section
variable (hpos : 0 < interval.toNat) (hint : interval.toNat < 2 ^ 31)
include hdir hpos hint

theorem After.entry {seen : List Text} {fs : Files} (h : After avg dir interval fs₀ seen fs) {name : Text}
    (hthere : name = ['.'] ∨ name = ['.', '.'] ∨ (fs (path dir name)).isSome) :
    ∃ fs' out, Detail.entry avg dir interval fs name = .ok (fs', out) ∧
      After avg dir interval fs₀ (seen ++ [name]) fs' := by
  unfold Detail.entry
  by_cases hdot : name = ['.'] ∨ name = ['.', '.']
  · rw [if_pos hdot]
    refine ⟨fs, [], rfl, h.skip fun hin => ?_⟩
    have := hin.1
    rcases hdot with rfl | rfl <;> cases this
  rw [if_neg hdot]
  have hthere : (fs (path dir name)).isSome := by
    rcases hthere with h | h | h
    · exact absurd (.inl h) hdot
    · exact absurd (.inr h) hdot
    · exact h
  by_cases hlat : isLat name = true
  · have hin : IsInput dir fs₀ name := ⟨hlat, (h.input hshort hlat) ▸ hthere⟩
    have hlen := hdir.four name hin.2
    have hfit := hshort name hin
    have hread : readFromFile fs (path dir name) = readFromFile fs₀ (path dir name) := by
      unfold readFromFile
      rw [h.input hshort hlat]
    have hne : readFromFile fs (path dir name) ≠ [] := hread ▸ hdir.sample name hin
    have hint := toInt_of_lt hint
    obtain ⟨lines, hlines, _⟩ := @detailHandler_ok avg fs (path dir name) hne (toInt interval)
      (by rw [hint]; exact toNat_pos_iff.mp hpos)
    rw [if_neg (by omega), if_pos hlat, if_neg (by omega), hlines, hint, hread]
    exact ⟨_, lines, rfl, h.handle hshort hin⟩
  · have hlen := h.four hshort hdir hthere
    rw [if_neg (by omega), if_neg hlat]
    exact ⟨fs, [], rfl, h.skip fun hin => hlat hin.1⟩

theorem After.scan {names : List Text} (hy : Yields avg dir interval fs₀ names) : ∀ (rest seen : List Text)
    (fs : Files) (out : List Line), names = seen ++ rest → Detail.scan avg dir interval seen fs₀ = .ok (fs, out) →
    After avg dir interval fs₀ seen fs →
    ∃ fs' out', Detail.scan avg dir interval rest fs = .ok (fs', out') ∧ After avg dir interval fs₀ names fs'
  | [], seen, fs, out, hn, _, h => by
    rw [List.append_nil] at hn
    exact ⟨fs, [], rfl, hn ▸ h⟩
  | name :: rest, seen, fs, out, hn, hs, h => by
    have hthere : name = ['.'] ∨ name = ['.', '.'] ∨ (fs (path dir name)).isSome := by
      rcases hy.present seen name rest hn with hd | hd | hd
      · exact .inl hd
      · exact .inr (.inl hd)
      · exact .inr (.inr (hd fs out hs))
    obtain ⟨fs₁, out₁, he, h₁⟩ := h.entry hdir hshort hpos hint hthere
    have hs₁ := scan_snoc he seen fs₀ out hs
    obtain ⟨fs', out', hrest, h'⟩ := After.scan hy rest (seen ++ [name]) fs₁ (out ++ out₁) (by simpa using hn) hs₁ h₁
    refine ⟨fs', out₁ ++ out', ?_, h'⟩
    simp only [Detail.scan, he, hrest, bind, Except.bind]

theorem scan_after {names : List Text} (hy : Yields avg dir interval fs₀ names) :
    ∃ fs' out, Detail.scan avg dir interval names fs₀ = .ok (fs', out) ∧ After avg dir interval fs₀ names fs' :=
  After.scan hdir hshort hpos hint hy names [] fs₀ [] rfl rfl ⟨fun _ hm => (nomatch hm), fun _ _ => rfl⟩

end

/-! ## A second run -/

section
variable {names : List Text} {fs : Files} (h : After avg dir interval fs₀ names fs)
include h

theorem After.isInput_iff {name : Text} : IsInput dir fs name ↔ IsInput dir fs₀ name := by
  unfold IsInput
  refine and_congr_right fun hlat => ?_
  rw [h.input hshort hlat]

theorem After.read {name : Text} (hlat : isLat name = true) :
    readFromFile fs (path dir name) = readFromFile fs₀ (path dir name) := by
  unfold readFromFile
  rw [h.input hshort hlat]

include hdir in
theorem After.directory : Directory dir fs := by
  refine ⟨fun name hthere => h.four hshort hdir hthere, fun name hthere => ?_, fun name hin => ?_⟩
  · rcases h.there hthere with ⟨m, _, _, p, _, he⟩ | hold
    · rw [he]
      exact List.length_take_le 127 _
    · exact hdir.fits name hold
  · rw [h.read hshort hin.1]
    exact hdir.sample name ((h.isInput_iff hshort).mp hin)

theorem After.again (hcomplete : ∀ name, (fs₀ (path dir name)).isSome → name ∈ names) {names' : List Text}
    (hcomplete' : ∀ name, (fs (path dir name)).isSome → name ∈ names') {fs' : Files}
    (h' : After avg dir interval fs names' fs') : fs' = fs := by
  funext file
  by_cases hout : ∃ n, IsInput dir fs₀ n ∧ ∃ p ∈ percents, file = newName (path dir n) p
  · obtain ⟨n, hn, p, hp, rfl⟩ := hout
    have hn' := (h.isInput_iff hshort).mpr hn
    rw [h.written n (hcomplete n hn.2) hn p hp, h'.written n (hcomplete' n hn'.2) hn' p hp, h.read hshort hn.1]
  · refine h'.kept file fun n _ hn p hp he => hout ⟨n, (h.isInput_iff hshort).mp hn, p, hp, he⟩

end

end

/-- The analysis of a directory does no harm: no file is the output of two
calls, no output is read, the inputs are kept, and a second run changes
nothing. -/
structure Harmless (avg : List UInt64 → UInt64) (dir : Text) (interval : UInt64) (fs : Files) : Prop where
  apart : ∀ n m, IsInput dir fs n → IsInput dir fs m → ∀ p ∈ percents, ∀ q ∈ percents,
    newName (path dir n) p = newName (path dir m) q → n = m ∧ p = q
  unread : ∀ n, IsInput dir fs n → ∀ p ∈ percents, ∀ m, newName (path dir n) p = path dir m → isLat m = false
  run : ∀ names, Yields avg dir interval fs names → ∃ fs' out, scan avg dir interval names fs = .ok (fs', out) ∧
    (∀ n, IsInput dir fs n → fs' (path dir n) = fs (path dir n) ∧ ∀ p ∈ percents, ∃ tails,
      tailLoop avg p interval 0 [] (readFromFile fs (path dir n)) = .ok tails ∧
        fs' (newName (path dir n) p) = some (resultOutput tails interval)) ∧
    ∀ names', Yields avg dir interval fs' names' → ∃ out', scan avg dir interval names' fs' = .ok (fs', out')

/-- **The analysis keeps its inputs** exactly when each of them leaves room for
six characters of the suffix. -/
theorem harmless_iff (avg : List UInt64 → UInt64) {dir : Text} {interval : UInt64} {fs : Files}
    (hdir : Directory dir fs) (hpos : 0 < interval.toNat) (hint : interval.toNat < 2 ^ 31) :
    Harmless avg dir interval fs ↔ ∀ n, IsInput dir fs n → (path dir n).length ≤ 121 := by
  refine ⟨fun h n hn => ?_, fun hshort => ⟨fun n m hn hm p hp q hq he => ?_, fun n hn p hp m he => ?_, fun names hy => ?_⟩⟩
  · refine Nat.le_of_not_lt fun hlong => ?_
    have hfit := hdir.fits n hn.2
    have hsame : newName (path dir n) (999 / 1000) = newName (path dir n) (9999 / 10000) := by
      rw [newName_eq hfit, newName_eq hfit, suffix_collide (by omega)]
    have := (h.apart n n hn hn (999 / 1000) (by decide +kernel) (9999 / 10000) (by decide +kernel) hsame).2
    exact absurd this (by decide +kernel)
  · exact newName_inj hn.1 hm.1 (hshort n hn) (hshort m hm) hp hq he
  · exact newName_not_lat hn.1 (by have := hshort n hn; omega) hp he
  · obtain ⟨fs', out, hscan, hafter⟩ := scan_after hdir hshort hpos hint hy
    refine ⟨fs', out, hscan, fun n hn => ⟨hafter.input hshort hn.1, fun p hp => ?_⟩, fun names' hy' => ?_⟩
    · obtain ⟨h0, h1⟩ := percents_range p hp
      obtain ⟨tails, htails⟩ := tailLoop_ok avg h0 h1 (toNat_pos_iff.mp hpos) (readFromFile fs (path dir n)) 0 []
      refine ⟨tails, htails, ?_⟩
      rw [hafter.written n (hy.complete n hn.2) hn p hp]
      unfold resultText
      rw [htails]
    · have hshort' : ∀ n, IsInput dir fs' n → (path dir n).length ≤ 121 := fun n hn =>
        hshort n ((hafter.isInput_iff hshort).mp hn)
      obtain ⟨fs'', out', hscan', hafter'⟩ := scan_after (hafter.directory hdir hshort) hshort' hpos hint hy'
      have hsame := hafter.again hshort hy.complete hy'.complete hafter'
      exact ⟨out', hsame ▸ hscan'⟩

/-! ## Directories of one file -/

def single (file content : Text) : Files := Function.update (fun _ => none) file (some content)

theorem single_isSome {dir name content n : Text} (h : (single (path dir name) content (path dir n)).isSome) :
    n = name := by
  by_cases hn : path dir n = path dir name
  · exact path_inj hn
  · rw [single, Function.update_of_ne hn] at h
    cases h

theorem directory_single {dir name content : Text} (hfour : 4 ≤ name.length) (hfits : (path dir name).length ≤ 127)
    (hsample : extractAll content.length content ≠ []) : Directory dir (single (path dir name) content) := by
  refine ⟨fun n hn => ?_, fun n hn => ?_, fun n hn => ?_⟩
  · rw [single_isSome hn]; exact hfour
  · rw [single_isSome hn]; exact hfits
  · rw [single_isSome hn.2]
    unfold readFromFile single
    rw [Function.update_self]
    exact hsample

/-- The mean of a window, for sums that a `double` holds exactly. -/
def mean (vec : List UInt64) : UInt64 := vec.foldl (· + ·) 0 / UInt64.ofNat vec.length

theorem harmless_iff_short_name :
    Harmless mean ['d'] 1 (single (path ['d'] ['a', '.', 'l', 'a', 't']) ['5', '\n']) := by
  refine (harmless_iff _ (directory_single (by decide) (by decide) (by decide)) (by decide) (by decide)).mpr ?_
  intro n hn
  rw [single_isSome hn.2]
  decide

def longName : Text := List.replicate 121 'a' ++ ['.', 'l', 'a', 't']

/-- The outputs of a path of 127 characters are written over the input. -/
theorem input_overwritten : Directory ['d'] (single (path ['d'] longName) ['5', '\n']) ∧
    Yields mean ['d'] 1 (single (path ['d'] longName) ['5', '\n']) [longName] ∧
    ∃ fs' out, scan mean ['d'] 1 [longName] (single (path ['d'] longName) ['5', '\n']) = .ok (fs', out) ∧
      fs' (path ['d'] longName) = some ['0', ' ', '5', '\n'] := by
  refine ⟨directory_single (by decide +kernel) (by decide +kernel) (by decide), ⟨?_, ?_⟩, ?_⟩
  · intro n hn
    rw [single_isSome hn]
    exact List.mem_singleton.mpr rfl
  · intro seen name rest hn
    right; right
    intro fs' out hs
    cases seen with
    | nil =>
      cases hs
      cases hn
      simp [single]
    | cons m seen => simp at hn
  · have heval : (scan mean ['d'] 1 [longName] (single (path ['d'] longName) ['5', '\n'])).toOption.bind
        (fun r => r.1 (path ['d'] longName)) = some ['0', ' ', '5', '\n'] := by decide +kernel
    cases hs : scan mean ['d'] 1 [longName] (single (path ['d'] longName) ['5', '\n']) with
    | error e => simp [hs, Except.toOption] at heval
    | ok r => exact ⟨r.1, r.2, rfl, by simpa [hs, Except.toOption] using heval⟩

end IoTester.Detail

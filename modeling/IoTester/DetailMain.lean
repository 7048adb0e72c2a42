import IoTester.CommandLine
import IoTester.DetailFaults

/-!
# A run of `detail.cc` over the results of a tester

`main` takes a directory and an interval. Over a directory of saved latencies,
in whatever order `readdir` lists it, it prints of each vector what the vector
in memory has, and it keeps the files.
-/

namespace IoTester.Detail

/-- What the system says about a path: `access`, `stat`, `S_ISDIR`, `opendir`. -/
structure Look where
  access : Bool
  stat : Bool
  isDir : Bool
  opens : Bool
  deriving Repr, DecidableEq

inductive Printed where
  | usage
  | error1
  | error2
  | nothing
  | details (out : List Line)
  deriving Repr, DecidableEq

/-- A path past its buffer, `readdir` of a null pointer, a fault of the scan. -/
inductive Stop where
  | buffer
  | nullDir
  | fault (f : Fault)
  deriving Repr, DecidableEq

/-- The files, what is printed and the exit code. `names` is what `readdir`
yields. -/
def main (avg : List UInt64 → UInt64) (look : Text → Look) (names : List Text) (argv : List Text) (fs : Files) :
    Except Stop (Files × Printed × Int) :=
  if argv.length < 3 then .ok (fs, .usage, -1)
  else
    let dir := argv.getD 1 []
    let interval := (atol (argv.getD 2 [])).toUInt64
    if 128 ≤ dir.length then .error .buffer
    else if (look dir).access = false then .ok (fs, .error1, 0)
    else if (look dir).stat = false then .ok (fs, .error2, -1)
    else if (look dir).isDir = false then .ok (fs, .nothing, 0)
    else if (look dir).opens = false then .error .nullDir
    else match scan avg dir interval names fs with
      | .ok (fs, out) => .ok (fs, .details out, 0)
      | .error f => .error (.fault f)

/-! ## The output of one file -/

section
variable {avg : List UInt64 → UInt64} {dir : Text} {interval : UInt64} {fs₀ : Files} {names : List Text}

theorem scan_append_inv : ∀ {seen rest : List Text} {fs fs' : Files} {out : List Line},
    scan avg dir interval (seen ++ rest) fs = .ok (fs', out) → ∃ fs₁ out₁ out₂,
      scan avg dir interval seen fs = .ok (fs₁, out₁) ∧ scan avg dir interval rest fs₁ = .ok (fs', out₂) ∧
        out = out₁ ++ out₂ := by
  intro seen
  induction seen with
  | nil =>
    intro rest fs fs' out h
    exact ⟨fs, [], out, rfl, h, rfl⟩
  | cons name seen ih =>
    intro rest fs fs' out h
    obtain ⟨⟨fs₁, out₁⟩, h₁, h⟩ := Lib.bind_eq_ok.mp h
    obtain ⟨⟨fs₂, out₂⟩, h₂, h⟩ := Lib.bind_eq_ok.mp h
    cases h
    obtain ⟨fs₃, out₃, out₄, h₃, h₄, rfl⟩ := ih h₂
    refine ⟨fs₃, out₁ ++ out₃, out₄, ?_, h₄, ?_⟩
    · exact Lib.bind_eq_ok.mpr ⟨_, h₁, Lib.bind_eq_ok.mpr ⟨_, h₃, rfl⟩⟩
    · rw [List.append_assoc]

variable (hdir : Directory dir fs₀) (hshort : ∀ name, IsInput dir fs₀ name → (path dir name).length ≤ 121)
variable (hpos : 0 < interval.toNat) (hint : interval.toNat < 2 ^ 31) (hy : Yields avg dir interval fs₀ names)
include hdir hshort hpos hint hy

/-- The files in the middle of a scan. -/
theorem after_seen (seen : List Text) : ∀ (rest : List Text) (fs : Files) (out : List Line), names = seen ++ rest →
    scan avg dir interval seen fs₀ = .ok (fs, out) → After avg dir interval fs₀ seen fs := by
  induction seen using List.reverseRecOn with
  | nil =>
    intro rest fs out _ h
    cases h
    exact ⟨fun _ hm => (nomatch hm), fun _ _ => rfl⟩
  | append_singleton seen name ih =>
    intro rest fs out hn h
    obtain ⟨fs₁, out₁, out₂, h₁, h₂, -⟩ := scan_append_inv h
    rw [List.append_assoc] at hn
    have hafter := ih _ fs₁ out₁ hn h₁
    have hthere : name = ['.'] ∨ name = ['.', '.'] ∨ (fs₁ (path dir name)).isSome := by
      rcases hy.present seen name rest hn with hd | hd | hd
      · exact .inl hd
      · exact .inr (.inl hd)
      · exact .inr (.inr (hd fs₁ out₁ h₁))
    obtain ⟨fs', out', he, h'⟩ := hafter.entry hdir hshort hpos hint hthere
    obtain ⟨⟨fs₃, out₃⟩, h₃, h₂⟩ := Lib.bind_eq_ok.mp h₂
    rw [he] at h₃
    cases h₃
    cases h₂
    exact h'

end

/-- What is printed of a vector, after the line with the name of its file. -/
structure Details (v : List UInt64) (lines : List Line) : Prop where
  own : ∀ line ∈ lines, line.reads = none
  tails : ∀ p ∈ reported, ∃ x, Prints v p x ∧ .tail p x (tailIndex p v.length) v.length ∈ lines
  average : ∃ x, getAvgLatency (v.mergeSort (· ≤ ·)) = .ok (.average x) ∧ .average x ∈ lines

theorem detailHandler_details {avg : List UInt64 → UInt64} {fs fs' : Files} {name : Text} {interval : Int}
    {out : List Line} (h : detailHandler avg fs name interval = .ok (fs', out)) :
    ∃ lines, out = .reading name (readFromFile fs name).length :: lines ∧ Details (readFromFile fs name) lines := by
  obtain ⟨hne, hi, hreads⟩ := detailHandler_inv h
  obtain ⟨lines, hok, ⟨line, hline, hav⟩, htails⟩ := detailHandler_ok avg hne hi
  rw [h] at hok
  cases hok
  obtain ⟨⟨fs₁, windows⟩, -, h⟩ := Lib.bind_eq_ok.mp h
  obtain ⟨average, -, h⟩ := Lib.bind_eq_ok.mp h
  obtain ⟨tails, -, h⟩ := Lib.bind_eq_ok.mp h
  cases h
  rw [List.cons_append] at hreads hline htails ⊢
  refine ⟨_, rfl, ?_, ?_, ?_⟩
  · have hreading : (Line.reading name (readFromFile fs name).length).reads = some name := rfl
    rw [List.filterMap_cons_some hreading, List.cons_eq_cons] at hreads
    exact List.filterMap_eq_nil_iff.mp hreads.2
  · intro p hp
    obtain ⟨h0, h1⟩ := reported_range p hp
    obtain ⟨x, hx⟩ := exists_prints hne h0 h1
    obtain ⟨line, hline, he⟩ := htails p hp
    rw [hx.detail] at he
    cases he
    refine ⟨x, hx, ?_⟩
    simpa using hline
  · obtain ⟨x, hx⟩ : ∃ x, getAvgLatency ((readFromFile fs name).mergeSort (· ≤ ·)) = .ok (.average x) :=
      ⟨_, if_neg (Lib.mergeSort_ne_nil hne)⟩
    rw [hx] at hav
    cases hav
    exact ⟨x, hx, by simpa using hline⟩

/-- Somewhere in the output the vector of a file is reported. -/
def Shows (out : List Line) (file : Text) (v : List UInt64) : Prop :=
  ∃ before lines after, out = before ++ .reading file v.length :: lines ++ after ∧ Details v lines

/-! ## A directory of results -/

/-- The directory holds the files of some saved vectors, and nothing else. -/
structure Results (dir : Text) (vec : Text → Option (List UInt64)) (fs : Files) : Prop where
  files : ∀ name, fs (path dir name) = (vec name).map decLines
  lat : ∀ name v, vec name = some v → isLat name = true
  fits : ∀ name v, vec name = some v → (path dir name).length ≤ 121
  samples : ∀ name v, vec name = some v → v ≠ []
  lines : ∀ name v, vec name = some v → v.length < 2 ^ 31

namespace Results

variable {dir : Text} {vec : Text → Option (List UInt64)} {fs : Files} (h : Results dir vec fs)
include h

theorem read {name : Text} {v : List UInt64} (hv : vec name = some v) : readFromFile fs (path dir name) = v := by
  have hfile := h.files name
  rw [hv] at hfile
  rw [readFromFile_decLines hfile, List.take_of_length_le (Nat.le_of_lt (h.lines name v hv))]

theorem exists_vec {name : Text} (hn : (fs (path dir name)).isSome) : ∃ v, vec name = some v := by
  rw [h.files, Option.isSome_map] at hn
  exact Option.isSome_iff_exists.mp hn

theorem isInput {name : Text} {v : List UInt64} (hv : vec name = some v) : IsInput dir fs name := by
  refine ⟨h.lat name v hv, ?_⟩
  rw [h.files, hv]
  rfl

theorem short (name : Text) (hn : IsInput dir fs name) : (path dir name).length ≤ 121 := by
  obtain ⟨v, hv⟩ := h.exists_vec hn.2
  exact h.fits name v hv

theorem directory : Directory dir fs := by
  refine ⟨?_, ?_, ?_⟩
  · intro name hn
    obtain ⟨v, hv⟩ := h.exists_vec hn
    obtain ⟨t, rfl⟩ := isLat_iff.mp (h.lat name v hv)
    simp
  · intro name hn
    obtain ⟨v, hv⟩ := h.exists_vec hn
    exact Nat.le_trans (h.fits name v hv) (by decide)
  · intro name hn
    obtain ⟨v, hv⟩ := h.exists_vec hn.2
    rw [h.read hv]
    exact h.samples name v hv

variable {avg : List UInt64 → UInt64} {interval : UInt64} (hpos : 0 < interval.toNat) (hint : interval.toNat < 2 ^ 31)
variable {names : List Text} (hy : Yields avg dir interval fs names)
include hpos hint hy

theorem shows {fs' : Files} {out : List Line} (hs : scan avg dir interval names fs = .ok (fs', out)) {name : Text}
    {v : List UInt64} (hv : vec name = some v) : Shows out (path dir name) v := by
  have hin := h.isInput hv
  obtain ⟨seen, rest, hn⟩ := List.append_of_mem (hy.complete name hin.2)
  rw [hn] at hs
  obtain ⟨fs₁, out₁, out₂, h₁, h₂, rfl⟩ := scan_append_inv hs
  have hafter := after_seen h.directory h.short hpos hint hy seen _ fs₁ out₁ hn h₁
  obtain ⟨⟨fs₂, lines⟩, he, h₂⟩ := Lib.bind_eq_ok.mp h₂
  obtain ⟨⟨fs₃, out₃⟩, -, h₂⟩ := Lib.bind_eq_ok.mp h₂
  cases h₂
  -- the file is still what it was when the scan began
  have hread : readFromFile fs₁ (path dir name) = v := (hafter.read h.short hin.1).trans (h.read hv)
  have hfour := h.directory.four name hin.2
  have hfit := h.fits name v hv
  unfold entry at he
  rw [if_neg, if_neg (by omega), if_pos hin.1, if_neg (by omega)] at he
  · obtain ⟨lines, rfl, hdetails⟩ := detailHandler_details he
    rw [hread] at hdetails
    refine ⟨out₁, lines, out₃, ?_, hdetails⟩
    rw [hread, List.append_assoc]
  · rintro (rfl | rfl)
    · exact absurd hfour (by decide)
    · exact absurd hfour (by decide)

theorem analysed : ∃ fs' out, scan avg dir interval names fs = .ok (fs', out) ∧
    ∀ name v, vec name = some v → fs' (path dir name) = fs (path dir name) ∧ Shows out (path dir name) v := by
  obtain ⟨fs', out, hs, hafter⟩ := scan_after h.directory h.short hpos hint hy
  refine ⟨fs', out, hs, ?_⟩
  intro name v hv
  exact ⟨hafter.input h.short (h.lat name v hv), h.shows hpos hint hy hs hv⟩

end Results

/-- A scan keeps the inputs, whatever it lists. -/
theorem scan_keeps {avg : List UInt64 → UInt64} {dir : Text} {interval : UInt64} {m : Text} (hm : isLat m = true) :
    ∀ {names : List Text} {fs fs' : Files} {out : List Line},
      (∀ name ∈ names, isLat name = true → (path dir name).length ≤ 121) →
      scan avg dir interval names fs = .ok (fs', out) → fs' (path dir m) = fs (path dir m) := by
  intro names
  induction names with
  | nil =>
    intro fs fs' out _ h
    cases h
    rfl
  | cons name names ih =>
    intro fs fs' out hshort h
    obtain ⟨⟨fs₁, out₁⟩, h₁, h⟩ := Lib.bind_eq_ok.mp h
    obtain ⟨⟨fs₂, out₂⟩, h₂, h⟩ := Lib.bind_eq_ok.mp h
    cases h
    rw [ih (fun n hn => hshort n (List.mem_cons_of_mem name hn)) h₂, (entry_inv h₁).2.files]
    by_cases hlat : isLat name = true
    · rw [if_pos hlat]
      apply outputs_other
      intro p hp he
      have hlen := hshort name List.mem_cons_self hlat
      rw [newName_not_lat hlat (by omega) hp he.symm] at hm
      cases hm
    · rw [if_neg hlat]

/-- Any listing of just these files is one that `readdir` may yield. -/
theorem Results.yields {dir : Text} {vec : Text → Option (List UInt64)} {fs : Files} (h : Results dir vec fs)
    {names : List Text} (hnames : ∀ name, name ∈ names ↔ (vec name).isSome) (avg : List UInt64 → UInt64)
    (interval : UInt64) : Yields avg dir interval fs names := by
  refine ⟨?_, ?_⟩
  · intro name hn
    obtain ⟨v, hv⟩ := h.exists_vec hn
    rw [hnames, hv]
    rfl
  · intro seen name rest hn
    right; right
    intro fs' out hs
    obtain ⟨v, hv⟩ := Option.isSome_iff_exists.mp ((hnames name).mp (by simp [hn]))
    rw [scan_keeps (h.lat name v hv) _ hs]
    · exact (h.isInput hv).2
    · intro n hmem hlat
      obtain ⟨w, hw⟩ := Option.isSome_iff_exists.mp ((hnames n).mp (by simp [hn, hmem]))
      exact h.fits n w hw

theorem toNat_toUInt64 {i : Int64} (h : 0 ≤ i.toInt) : (i.toUInt64.toNat : Int) = i.toInt := by
  have hi : i.toInt = if 2 * i.toUInt64.toNat < 2 ^ 64 then (i.toUInt64.toNat : Int)
      else (i.toUInt64.toNat : Int) - 2 ^ 64 := i.toBitVec.toInt_eq_toNat_cond
  have hlt : i.toUInt64.toNat < 2 ^ 64 := i.toUInt64.toNat_lt
  rw [hi] at h ⊢
  split at h
  · rw [if_pos (by assumption)]
  · omega

theorem Results.main {dir : Text} {vec : Text → Option (List UInt64)} {fs : Files} (h : Results dir vec fs)
    (hdir : dir.length < 128) {look : Text → Look} (hlook : look dir = ⟨true, true, true, true⟩) {dist : Text}
    (hpos : 0 < (atol dist).toInt) (hint : (atol dist).toInt < 2 ^ 31) {avg : List UInt64 → UInt64} {names : List Text}
    (hy : Yields avg dir (atol dist).toUInt64 fs names) (program : Text) :
    ∃ fs' out, Detail.main avg look names [program, dir, dist] fs = .ok (fs', .details out, 0) ∧
      ∀ name v, vec name = some v → fs' (path dir name) = fs (path dir name) ∧ Shows out (path dir name) v := by
  have hnat := toNat_toUInt64 (Int.le_of_lt hpos)
  obtain ⟨fs', out, hscan, hall⟩ := h.analysed (by omega) (by omega) hy
  refine ⟨fs', out, ?_, hall⟩
  simp [Detail.main, Nat.not_le.mpr hdir, hlook, hscan]

end IoTester.Detail

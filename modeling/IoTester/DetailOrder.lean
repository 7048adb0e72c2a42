import IoTester.DetailMain

/-!
# The order of a directory

`readdir` lists the files of a directory in no particular order, and it may or
may not list files that are created meanwhile, such as the outputs of the
analysis. The files that a run leaves do not depend on any of this, and what it
prints depends on it only in the order of the inputs.
-/

namespace IoTester.Detail

section
variable {avg : List UInt64 → UInt64}

/-! ## What is printed of one input -/

theorem tailLatencyHandlers_congr {name : Text} {vec : List UInt64} {interval : UInt64} (gs : Files) :
    ∀ {ps : List Rat} {fs fs' : Files} {lines : List Line},
      tailLatencyHandlers avg name vec interval ps fs = .ok (fs', lines) →
      ∃ gs', tailLatencyHandlers avg name vec interval ps gs = .ok (gs', lines) := by
  intro ps
  induction ps generalizing gs with
  | nil =>
    intro fs fs' lines h
    cases h
    exact ⟨gs, rfl⟩
  | cons p ps ih =>
    intro fs fs' lines h
    obtain ⟨⟨fs₁, line⟩, h₁, h⟩ := Lib.bind_eq_ok.mp h
    obtain ⟨⟨fs₂, lines₂⟩, h₂, h⟩ := Lib.bind_eq_ok.mp h
    obtain ⟨tails, htails, h₁⟩ := Lib.bind_eq_ok.mp h₁
    cases h
    cases h₁
    obtain ⟨gs', hgs⟩ := ih (Function.update gs (newName name p) (some (resultOutput tails interval))) h₂
    refine ⟨gs', Lib.bind_eq_ok.mpr ⟨_, Lib.bind_eq_ok.mpr ⟨tails, htails, rfl⟩, ?_⟩⟩
    exact Lib.bind_eq_ok.mpr ⟨_, hgs, rfl⟩

/-- The lines depend on the contents of the input, not on the other files. -/
theorem detailHandler_congr {fs fs' gs : Files} {name : Text} {interval : Int} {lines : List Line}
    (h : detailHandler avg fs name interval = .ok (fs', lines)) (hread : readFromFile gs name = readFromFile fs name) :
    ∃ gs', detailHandler avg gs name interval = .ok (gs', lines) := by
  obtain ⟨⟨fs₁, windows⟩, hwindows, h⟩ := Lib.bind_eq_ok.mp h
  obtain ⟨gs', hgs⟩ := tailLatencyHandlers_congr gs hwindows
  obtain ⟨average, haverage, h⟩ := Lib.bind_eq_ok.mp h
  obtain ⟨tails, htails, h⟩ := Lib.bind_eq_ok.mp h
  cases h
  refine ⟨gs', ?_⟩
  rw [detailHandler_def, hread]
  exact Lib.bind_eq_ok.mpr ⟨_, hgs, Lib.bind_eq_ok.mpr ⟨_, haverage, Lib.bind_eq_ok.mpr ⟨_, htails, rfl⟩⟩⟩

/-- What is printed of an input. -/
def inputLines (avg : List UInt64 → UInt64) (dir : Text) (interval : UInt64) (fs : Files) (name : Text) : List Line :=
  match detailHandler avg fs (path dir name) (toInt interval) with
  | .ok (_, lines) => lines
  | .error _ => []

/-! ## What is printed in all -/

variable {dir : Text} {interval : UInt64} {fs₀ : Files}

theorem entry_lines {fs fs' : Files} {name : Text} {out : List Line}
    (h : entry avg dir interval fs name = .ok (fs', out))
    (hread : readFromFile fs (path dir name) = readFromFile fs₀ (path dir name)) :
    out = if isLat name then inputLines avg dir interval fs₀ name else [] := by
  unfold entry at h
  by_cases hdot : name = ['.'] ∨ name = ['.', '.']
  · rw [if_pos hdot] at h
    cases h
    have hlat : isLat name = false := by rcases hdot with rfl | rfl <;> decide
    simp [hlat]
  rw [if_neg hdot] at h
  by_cases hlen : name.length < 4
  · rw [if_pos hlen] at h
    cases h
  rw [if_neg hlen] at h
  by_cases hlat : isLat name = true
  · rw [if_pos hlat] at h ⊢
    by_cases hfit : 128 ≤ (path dir name).length
    · rw [if_pos hfit] at h
      cases h
    rw [if_neg hfit] at h
    obtain ⟨gs, hgs⟩ := detailHandler_congr h hread.symm
    simp [inputLines, hgs]
  · rw [if_neg hlat] at h ⊢
    cases h
    rfl

section
variable {names : List Text} (hdir : Directory dir fs₀)
variable (hshort : ∀ name, IsInput dir fs₀ name → (path dir name).length ≤ 121)
variable (hpos : 0 < interval.toNat) (hint : interval.toNat < 2 ^ 31) (hy : Yields avg dir interval fs₀ names)
include hdir hshort hpos hint hy

theorem scan_lines (seen : List Text) : ∀ (rest : List Text) (fs : Files) (out : List Line), names = seen ++ rest →
    scan avg dir interval seen fs₀ = .ok (fs, out) →
    out = (seen.filter isLat).flatMap (inputLines avg dir interval fs₀) := by
  induction seen using List.reverseRecOn with
  | nil =>
    intro rest fs out _ h
    cases h
    rfl
  | append_singleton seen name ih =>
    intro rest fs out hn h
    obtain ⟨fs₁, out₁, out₂, h₁, h₂, rfl⟩ := scan_append_inv h
    rw [List.append_assoc] at hn
    have hafter := after_seen hdir hshort hpos hint hy seen _ fs₁ out₁ hn h₁
    obtain ⟨⟨fs₃, out₃⟩, h₃, h₂⟩ := Lib.bind_eq_ok.mp h₂
    cases h₂
    rw [ih _ fs₁ out₁ hn h₁, List.filter_append, List.flatMap_append, List.append_nil]
    congr 1
    by_cases hlat : isLat name = true
    · rw [entry_lines h₃ (hafter.read hshort hlat), if_pos hlat]
      simp [hlat]
    · have hread : readFromFile fs₁ (path dir name) = readFromFile fs₁ (path dir name) := rfl
      rw [entry_lines h₃ hread]
      simp [hlat]

theorem mem_inputs {name : Text} (hlat : isLat name = true) (hmem : name ∈ names) : IsInput dir fs₀ name := by
  obtain ⟨seen, rest, hn⟩ := List.append_of_mem hmem
  obtain ⟨fs', out, hs, -⟩ := scan_after hdir hshort hpos hint hy
  rw [hn] at hs
  obtain ⟨fs₁, out₁, out₂, h₁, -, -⟩ := scan_append_inv hs
  have hafter := after_seen hdir hshort hpos hint hy seen _ fs₁ out₁ hn h₁
  rcases hy.present seen name rest hn with rfl | rfl | hthere
  · cases hlat
  · cases hlat
  · have := hthere fs₁ out₁ h₁
    rw [hafter.input hshort hlat] at this
    exact ⟨hlat, this⟩

end

theorem After.unique {names names' : List Text} {fs fs' : Files} (h : After avg dir interval fs₀ names fs)
    (h' : After avg dir interval fs₀ names' fs')
    (hall : ∀ name, IsInput dir fs₀ name → name ∈ names ∧ name ∈ names') : fs = fs' := by
  funext file
  by_cases hout : ∃ n, IsInput dir fs₀ n ∧ ∃ p ∈ percents, file = newName (path dir n) p
  · obtain ⟨n, hn, p, hp, rfl⟩ := hout
    rw [h.written n (hall n hn).1 hn p hp, h'.written n (hall n hn).2 hn p hp]
  · have hnone : ∀ n, IsInput dir fs₀ n → ∀ p ∈ percents, file ≠ newName (path dir n) p := by
      intro n hn p hp he
      exact hout ⟨n, hn, p, hp, he⟩
    rw [h.kept file fun n _ hn p hp => hnone n hn p hp, h'.kept file fun n _ hn p hp => hnone n hn p hp]

end

/-- **The order does not matter.** Two runs over one directory, with the entries
in any two orders, leave the same files; and they print the same for each input,
in the order in which they come to them. -/
theorem order_irrelevant (avg : List UInt64 → UInt64) {dir : Text} {interval : UInt64} {fs : Files}
    (hdir : Directory dir fs) (hshort : ∀ name, IsInput dir fs name → (path dir name).length ≤ 121)
    (hpos : 0 < interval.toNat) (hint : interval.toNat < 2 ^ 31) {names names' : List Text}
    (hy : Yields avg dir interval fs names) (hy' : Yields avg dir interval fs names') (hnodup : names.Nodup)
    (hnodup' : names'.Nodup) :
    ∃ fs' out out', scan avg dir interval names fs = .ok (fs', out) ∧
      scan avg dir interval names' fs = .ok (fs', out') ∧ (names.filter isLat).Perm (names'.filter isLat) ∧
      out = (names.filter isLat).flatMap (inputLines avg dir interval fs) ∧
      out' = (names'.filter isLat).flatMap (inputLines avg dir interval fs) := by
  obtain ⟨fs₁, out, hs, hafter⟩ := scan_after hdir hshort hpos hint hy
  obtain ⟨fs₂, out', hs', hafter'⟩ := scan_after hdir hshort hpos hint hy'
  obtain rfl := hafter.unique hafter' fun name hn => ⟨hy.complete name hn.2, hy'.complete name hn.2⟩
  refine ⟨fs₁, out, out', hs, hs', ?_, ?_, ?_⟩
  · apply (List.perm_ext_iff_of_nodup (hnodup.filter _) (hnodup'.filter _)).mpr
    intro name
    simp only [List.mem_filter]
    constructor
    · intro hmem
      exact ⟨hy'.complete name (mem_inputs hdir hshort hpos hint hy hmem.2 hmem.1).2, hmem.2⟩
    · intro hmem
      exact ⟨hy.complete name (mem_inputs hdir hshort hpos hint hy' hmem.2 hmem.1).2, hmem.2⟩
  · exact scan_lines hdir hshort hpos hint hy names [] fs₁ out (List.append_nil _).symm hs
  · exact scan_lines hdir hshort hpos hint hy' names' [] fs₁ out' (List.append_nil _).symm hs'

def twoVectors (name : Text) : Option (List UInt64) :=
  if name = ['a', '.', 'l', 'a', 't'] then some [5]
  else if name = ['b', '.', 'l', 'a', 't'] then some [7, 3]
  else none

def twoFiles : Files
  | 'd' :: '/' :: name => (twoVectors name).map decLines
  | _ => none

theorem results_twoFiles : Results ['d'] twoVectors twoFiles := by
  have hcases : ∀ name v, twoVectors name = some v →
      (name = ['a', '.', 'l', 'a', 't'] ∧ v = [5]) ∨ (name = ['b', '.', 'l', 'a', 't'] ∧ v = [7, 3]) := by
    intro name v hv
    unfold twoVectors at hv
    split at hv
    · exact .inl ⟨by assumption, (Option.some.inj hv).symm⟩
    · split at hv
      · exact .inr ⟨by assumption, (Option.some.inj hv).symm⟩
      · cases hv
  refine ⟨fun _ => rfl, ?_, ?_, ?_, ?_⟩ <;>
  · intro name v hv
    rcases hcases name v hv with ⟨rfl, rfl⟩ | ⟨rfl, rfl⟩ <;> decide

theorem order_irrelevant_two_files : ∃ fs' out out',
    scan mean ['d'] 1 [['a', '.', 'l', 'a', 't'], ['b', '.', 'l', 'a', 't']] twoFiles = .ok (fs', out) ∧
      scan mean ['d'] 1 [['b', '.', 'l', 'a', 't'], ['a', '.', 'l', 'a', 't']] twoFiles = .ok (fs', out') := by
  have hy : ∀ names, (∀ name, name ∈ names ↔ (twoVectors name).isSome) → Yields mean ['d'] 1 twoFiles names :=
    fun names h => results_twoFiles.yields h ..
  have hmem : ∀ name, (name = ['a', '.', 'l', 'a', 't'] ∨ name = ['b', '.', 'l', 'a', 't']) ↔
      (twoVectors name).isSome := by
    intro name
    unfold twoVectors
    split
    · simp [*]
    · split <;> simp [*]
  obtain ⟨fs', out, out', hs, hs', -⟩ := order_irrelevant mean results_twoFiles.directory results_twoFiles.short
    (by decide) (by decide) (hy [['a', '.', 'l', 'a', 't'], ['b', '.', 'l', 'a', 't']] (by simpa using hmem))
    (hy [['b', '.', 'l', 'a', 't'], ['a', '.', 'l', 'a', 't']] (by simpa [or_comm] using hmem)) (by decide) (by decide)
  exact ⟨fs', out, out', hs, hs'⟩

end IoTester.Detail

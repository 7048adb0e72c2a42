import IoTester.Decimal
import IoTester.Percentiles

/-!
# The `.lat` format

The testers save a vector of latencies as decimal numbers, one a line;
`detail.cc` reads the numbers back. What it then computes from the file is
what the tester printed for the vector in memory.
-/

namespace IoTester

namespace Detail

theorem extract_newline (t : Text) : extract ('\n' :: t) = extract t := by
  simp [extract, isSpace]

theorem extract_digit {c : Char} (hc : c.isDigit = true) (t : Text) :
    extract (c :: t) =
      if 2 ^ 64 ≤ digitsValue ((c :: t).takeWhile Char.isDigit) then none
      else some (UInt64.ofNat (digitsValue ((c :: t).takeWhile Char.isDigit)), (c :: t).dropWhile Char.isDigit) := by
  obtain ⟨hspace, hminus, hplus⟩ := isDigit_start hc
  have hdrop : (c :: t).dropWhile isSpace = c :: t := by simp [hspace]
  have hne : (c :: t).takeWhile Char.isDigit ≠ [] := by simp [hc]
  unfold extract
  simp only [hdrop]
  split
  · simp_all
  · simp_all
  · simp [hne]

theorem extract_decN {n : Nat} (h : n < 2 ^ 64) {c : Char} (hc : c.isDigit = false) (t : Text) :
    extract (decN n ++ c :: t) = some (UInt64.ofNat n, c :: t) := by
  have hdigits : ∀ d ∈ decN n, d.isDigit = true := fun d hd => isDigit_of_mem_decN hd
  have htake : (decN n ++ c :: t).takeWhile Char.isDigit = decN n := by
    rw [List.takeWhile_append_of_pos hdigits]
    simp [hc]
  have hdrop : (decN n ++ c :: t).dropWhile Char.isDigit = c :: t := by
    rw [List.dropWhile_append_of_pos hdigits]
    simp [hc]
  have hvalue := digitsValue_decN n
  cases hcd : decN n with
  | nil => exact absurd hcd Nat.toDigits_ne_nil
  | cons d ds =>
    rw [hcd] at htake hdrop hvalue
    rw [List.cons_append] at htake hdrop ⊢
    rw [extract_digit (hdigits d (by simp [hcd])), htake, hdrop, hvalue, if_neg (Nat.not_le.mpr h)]

theorem extractAll_lines : ∀ (v : List UInt64) (n : Nat), v.length ≤ n →
    extractAll n ('\n' :: v.flatMap fun v => decN v.toNat ++ ['\n']) = v
  | [], 0, _ => rfl
  | [], n + 1, _ => by
    rw [extractAll, extract_newline]
    rfl
  | v :: vs, n + 1, h => by
    rw [extractAll, extract_newline, List.flatMap_cons, List.append_assoc, List.singleton_append,
      extract_decN v.toNat_lt (by decide), UInt64.ofNat_toNat]
    simp only [extractAll_lines vs n (by simpa using h)]

theorem extractAll_newline (n : Nat) (t : Text) : extractAll n ('\n' :: t) = extractAll n t := by
  cases n with
  | zero => rfl
  | succ n => rw [extractAll, extractAll, extract_newline]

/-- **Reading back.** The numbers of a file of a tester, in order. -/
theorem readFromFile_decLines {fs : Files} {name : Text} {v : List UInt64} (h : fs name = some (decLines v)) :
    readFromFile fs name = v.take (2 ^ 31) := by
  have hlen : (v.take (2 ^ 31)).length ≤ (decLines v).length := by
    unfold decLines
    generalize v.take (2 ^ 31) = w
    induction w with
    | nil => simp
    | cons a w ih =>
      simp only [List.flatMap_cons, List.length_append, List.length_cons, List.length_nil]
      omega
  unfold readFromFile
  rw [h]
  simp only
  rw [← extractAll_newline]
  exact extractAll_lines _ _ hlen

end Detail

/-! ## Percentiles of the file and of the vector -/

/-- **Round trip.** `detail.cc` reads from the file of a tester the vector that
was saved; the percentiles it prints are those that the testers print. -/
theorem lat_round_trip {v : List UInt64} (hlen : v.length < 2 ^ 31) {fs : Detail.Files} {name : Text}
    (hfile : fs name = some (TailPosix.resultOutput v) ∨ fs name = some (TailSpdk.resultOutput v)) :
    Detail.readFromFile fs name = v ∧
      (v ≠ [] → ∀ p, p = 99 / 100 ∨ p = 999 / 1000 → ∃ x, Prints v p x ∧
        Detail.getTailLatency ((Detail.readFromFile fs name).mergeSort (· ≤ ·)) p =
          .ok (.tail p x (Detail.tailIndex p v.length) v.length) ∧
        ∀ (avg : List UInt64 → UInt64) (interval : Int), UInt64.ofInt interval ≠ 0 →
          ∃ fs' out, Detail.detailHandler avg fs name interval = .ok (fs', out) ∧
            .tail p x (Detail.tailIndex p v.length) v.length ∈ out) := by
  have hread : Detail.readFromFile fs name = v := by
    have hsaved : fs name = some (decLines v) := hfile.elim id id
    rw [Detail.readFromFile_decLines hsaved, List.take_of_length_le (Nat.le_of_lt hlen)]
  refine ⟨hread, fun hne p hp => ?_⟩
  have hmem : p ∈ Detail.reported := by rcases hp with rfl | rfl <;> simp [Detail.reported]
  obtain ⟨h0, h1⟩ := Detail.reported_range p hmem
  obtain ⟨x, hx⟩ := exists_prints hne h0 h1
  rw [hread]
  refine ⟨x, hx, hx.detail, fun avg interval hi => ?_⟩
  obtain ⟨lines, hlines, _, htails⟩ := Detail.detailHandler_ok avg (by rw [hread]; exact hne) hi
  obtain ⟨line, hline, he⟩ := htails p hmem
  rw [hread, hx.detail] at he
  cases he
  exact ⟨_, lines, hlines, hline⟩

theorem lat_round_trip_extremes :
    Detail.readFromFile (Detail.single ['a'] (TailPosix.resultOutput [18446744073709551615, 0])) ['a'] =
      [18446744073709551615, 0] :=
  (@lat_round_trip [18446744073709551615, 0] (by decide) _ ['a'] (.inl (Function.update_self ..))).1

end IoTester

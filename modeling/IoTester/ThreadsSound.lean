import IoTester.Threads
import Mathlib.Algebra.Ring.Nat
import Mathlib.Data.Nat.Choose.Basic

/-!
# The threads share the array

The flags and `turn` are a lock for two (`Lib.Lock`): every step of a thread
is a step of the lock or leaves it alone. Behind the lock the non-atomic
`arr_ind++` loses no update, and the two threads together write each number
once.
-/

namespace IoTester.Threads

open Lib (Side Stage Lock)

def idx : Side → Nat
  | .left => 0
  | .right => 1

/-! ## What a step can do -/

def Pc.stage : Pc → Stage
  | .setFlag | .ret => .idle
  | .setTurn => .raised
  | .ldFlag | .ldTurn => .waiting
  | .ldIdx | .stData | .ldInc | .stInc | .clrFlag => .holding

inductive Moves (max : Nat) (t : Side) (s : State) : State → Prop
  | setFlag : (s.loc t).pc = .setFlag →
      Moves max t s ({ s with flag := Function.update s.flag t true }.goto t { s.loc t with pc := .setTurn })
  | setTurn : (s.loc t).pc = .setTurn →
      Moves max t s ({ s with turn := idx t.other }.goto t { s.loc t with pc := .ldFlag })
  | wait (pc : Pc) : (s.loc t).pc.stage = .waiting → pc = .ldFlag ∨ pc = .ldTurn →
      Moves max t s (s.goto t { s.loc t with pc := pc })
  | pass : (s.loc t).pc.stage = .waiting → s.flag t.other = false ∨ s.turn ≠ idx t.other →
      Moves max t s (s.goto t { s.loc t with pc := .ldIdx, j := 0 })
  | ldIdx : (s.loc t).pc = .ldIdx → Moves max t s (s.goto t { s.loc t with pc := .stData, reg := s.arrInd })
  | stData : (s.loc t).pc = .stData →
      Moves max t s ({ s with data := s.data.set (s.loc t).reg ((s.loc t).i + idx t) }.goto t
        { s.loc t with pc := .ldInc })
  | ldInc : (s.loc t).pc = .ldInc → Moves max t s (s.goto t { s.loc t with pc := .stInc, reg := s.arrInd })
  | stInc : (s.loc t).pc = .stInc →
      Moves max t s ({ s with arrInd := (s.loc t).reg + 1 }.goto t
        { s.loc t with
          pc := if (s.loc t).j + 1 < 100 then .ldIdx else .clrFlag
          i := (s.loc t).i + 2
          j := (s.loc t).j + 1 })
  | clrFlag : (s.loc t).pc = .clrFlag →
      Moves max t s ({ s with flag := Function.update s.flag t false }.goto t
        { s.loc t with pc := if (s.loc t).i < max then .setFlag else .ret })

theorem step_eq (max : Nat) (s : State) (t : Side) : step max s t = thread max t (idx t.other) (idx t) s := by
  cases t <;> rfl

theorem step_moves {max : Nat} {s s' : State} {t : Side} (h : step max s t = some s') : Moves max t s s' := by
  rw [step_eq] at h
  unfold thread at h
  cases hpc : (s.loc t).pc with
  | setFlag => simp only [hpc] at h; cases h; exact .setFlag hpc
  | setTurn => simp only [hpc] at h; cases h; exact .setTurn hpc
  | ldFlag =>
    have hw : (s.loc t).pc.stage = .waiting := by rw [hpc]; rfl
    simp only [hpc] at h
    split at h
    · cases h; exact .wait .ldTurn hw (.inr rfl)
    · rename_i hf
      cases h; exact .pass hw (.inl (Bool.eq_false_iff.mpr hf))
  | ldTurn =>
    have hw : (s.loc t).pc.stage = .waiting := by rw [hpc]; rfl
    simp only [hpc] at h
    split at h
    · cases h; exact .wait .ldFlag hw (.inl rfl)
    · rename_i hne
      cases h; exact .pass hw (.inr hne)
  | ldIdx => simp only [hpc] at h; cases h; exact .ldIdx hpc
  | stData => simp only [hpc] at h; cases h; exact .stData hpc
  | ldInc => simp only [hpc] at h; cases h; exact .ldInc hpc
  | stInc => simp only [hpc] at h; cases h; exact .stInc hpc
  | clrFlag => simp only [hpc] at h; cases h; exact .clrFlag hpc
  | ret => simp only [hpc] at h; cases h

/-! ## The lock behind the flags -/

def State.lock (s : State) : Lock where
  stage := (fun l : Local => l.pc.stage) ∘ s.loc
  turn := if s.turn = 0 then .left else .right

structure Flags (s : State) : Prop where
  flag : ∀ t, s.flag t = true ↔ s.lock.stage t ≠ .idle
  turn : s.turn = idx s.lock.turn

theorem lock_goto (s : State) (t : Side) (l : Local) :
    (s.goto t l).lock = { s.lock with stage := Function.update s.lock.stage t l.pc.stage } :=
  congrArg (Lock.mk · s.lock.turn) (Function.comp_update ..)

theorem lock_goto_same {s : State} {t : Side} {l : Local} (h : l.pc.stage = (s.loc t).pc.stage) :
    (s.goto t l).lock = s.lock := by
  rw [lock_goto, Function.update_eq_self_iff.mpr h]

@[simp] theorem lock_flag (s : State) (f : Side → Bool) : ({ s with flag := f } : State).lock = s.lock := rfl

theorem lock_turn (s : State) (t : Side) : ({ s with turn := idx t } : State).lock = ⟨s.lock.stage, t⟩ := by
  cases t <;> rfl

section
variable {max : Nat} {s s' : State} {t : Side}

theorem Flags.pass_iff (hf : Flags s) : s.lock.stage t.other = .idle ∨ s.lock.turn = t ↔
    s.flag t.other = false ∨ s.turn ≠ idx t.other := by
  have hflag : s.lock.stage t.other = .idle ↔ s.flag t.other = false := by
    have := hf.flag t.other
    by_cases h : s.lock.stage t.other = .idle <;> simp_all
  have hturn : s.lock.turn = t ↔ s.turn ≠ idx t.other := by
    rw [hf.turn]
    cases s.lock.turn <;> cases t <;> simp [idx, Side.other]
  rw [hflag, hturn]

/-- **Refinement.** A step of a thread is a step of the lock, or none. -/
theorem lock_step (hf : Flags s) (h : Moves max t s s') : s'.lock = s.lock ∨ Lock.Step t s.lock s'.lock := by
  have hstage : ∀ {pc : Pc}, (s.loc t).pc = pc → s.lock.stage t = pc.stage := fun hpc => congrArg Pc.stage hpc
  cases h with
  | setFlag hpc =>
    rw [lock_goto]
    exact .inr (.raise (hstage hpc))
  | setTurn hpc =>
    rw [lock_goto, lock_turn]
    exact .inr (.giveWay (hstage hpc))
  | wait pc hw hpc =>
    refine .inl (lock_goto_same ?_)
    rw [hw]
    rcases hpc with rfl | rfl <;> rfl
  | pass hw hpass =>
    rw [lock_goto]
    exact .inr (.pass hw (hf.pass_iff.mpr hpass))
  | ldIdx hpc => exact .inl (lock_goto_same (by rw [hpc]; rfl))
  | stData hpc => exact .inl (lock_goto_same (s := { s with data := _ }) (by rw [hpc]; rfl))
  | ldInc hpc => exact .inl (lock_goto_same (by rw [hpc]; rfl))
  | stInc hpc =>
    refine .inl (lock_goto_same (s := { s with arrInd := _ }) ?_)
    rw [hpc]
    dsimp only
    split <;> rfl
  | clrFlag hpc =>
    rw [lock_goto]
    have hidle : (if (s.loc t).i < max then Pc.setFlag else Pc.ret).stage = .idle := by split <;> rfl
    simp only [hidle]
    exact .inr (.release (hstage hpc))

theorem Flags.goto (hf : Flags s) {l : Local} {b : Bool} (hb : b = true ↔ l.pc.stage ≠ .idle) :
    Flags ({ s with flag := Function.update s.flag t b }.goto t l) := by
  refine ⟨fun u => ?_, hf.turn⟩
  rw [lock_goto]
  rcases Side.eq_or_eq_other u t with rfl | rfl
  · simpa [State.goto] using hb
  · simpa [State.goto] using hf.flag t.other

theorem Flags.goto_same (hf : Flags s) {l : Local} (h : (s.loc t).pc.stage ≠ .idle) (hl : l.pc.stage ≠ .idle) :
    Flags (s.goto t l) := by
  have hb : s.flag t = true ↔ l.pc.stage ≠ .idle := ⟨fun _ => hl, fun _ => (hf.flag t).mpr h⟩
  have := @Flags.goto s t hf l _ hb
  rw [Function.update_eq_self] at this
  exact this

theorem flags_step (hf : Flags s) (h : Moves max t s s') : Flags s' := by
  cases h with
  | setFlag hpc => exact hf.goto (by simp [Pc.stage])
  | setTurn hpc =>
    refine Flags.goto_same (s := { s with turn := idx t.other }) ?_ ?_ ?_
    · refine ⟨fun u => ?_, ?_⟩
      · rw [lock_turn]
        exact hf.flag u
      · rw [lock_turn]
    · simp [hpc, Pc.stage]
    · simp [Pc.stage]
  | wait pc hw hpc =>
    refine hf.goto_same (by simp [hw]) ?_
    rcases hpc with rfl | rfl <;> simp [Pc.stage]
  | pass hw _ => exact hf.goto_same (by simp [hw]) (by simp [Pc.stage])
  | ldIdx hpc => exact hf.goto_same (by simp [hpc, Pc.stage]) (by simp [Pc.stage])
  | stData hpc =>
    refine Flags.goto_same (s := { s with data := _ }) ?_ ?_ ?_
    · exact { hf with }
    · simp [hpc, Pc.stage]
    · simp [Pc.stage]
  | ldInc hpc => exact hf.goto_same (by simp [hpc, Pc.stage]) (by simp [Pc.stage])
  | stInc hpc =>
    refine Flags.goto_same (s := { s with arrInd := _ }) ?_ ?_ ?_
    · exact { hf with }
    · simp [hpc, Pc.stage]
    · dsimp only
      split <;> simp [Pc.stage]
  | clrFlag hpc =>
    refine hf.goto ?_
    dsimp only
    split <;> simp [Pc.stage]

end

/-! ## The array -/

def Pc.InLoop (pc : Pc) : Prop := pc = .ldIdx ∨ pc = .stData ∨ pc = .ldInc ∨ pc = .stInc

/-- The loop counters: a thread has done whole batches, and in its loop `j` passes of the next one. -/
def Pc.Counts (max i j : Nat) : Pc → Prop
  | .ldIdx | .stData | .ldInc | .stInc => ∃ a, i = 200 * a + 2 * j ∧ j < 100 ∧ 200 * a < max
  | .clrFlag => ∃ a, i = 200 * a + 200 ∧ 200 * a < max
  | .ret => i = max
  | .setFlag | .setTurn | .ldFlag | .ldTurn => ∃ a, i = 200 * a ∧ i < max

def Local.Counts (max : Nat) (l : Local) : Prop := l.pc.Counts max l.i l.j

theorem Pc.counts_waiting {max i j : Nat} {pc : Pc} (h : pc.stage = .waiting) (hc : pc.Counts max i j) :
    ∃ a, i = 200 * a ∧ i < max := by
  cases pc with
  | ldFlag => exact hc
  | ldTurn => exact hc
  | _ => cases h

def numbers (t : Side) (i : Nat) : List Nat := (List.range (i / 2)).map fun k => 2 * k + idx t

structure Filled (max : Nat) (s : State) : Prop where
  counts : ∀ t, (s.loc t).Counts max
  size : s.data.length = max
  index : ∀ t, s.arrInd = (s.loc t).i / 2 + (s.loc t.other).i / 2
  reg : ∀ t, (s.loc t).pc = .stData ∨ (s.loc t).pc = .stInc → (s.loc t).reg = s.arrInd
  stored : ∀ t, (s.loc t).pc = .ldInc ∨ (s.loc t).pc = .stInc → s.data[s.arrInd]? = some ((s.loc t).i + idx t)
  written : ∀ t, (s.data.take s.arrInd).Perm
    (numbers t (s.loc t).i ++ numbers t.other (s.loc t.other).i)

theorem numbers_add_two {t : Side} {i : Nat} (h : 2 ∣ i) : numbers t (i + 2) = numbers t i ++ [i + idx t] := by
  unfold numbers
  rw [show (i + 2) / 2 = i / 2 + 1 by omega, List.range_succ, List.map_append]
  simp only [List.map_cons, List.map_nil]
  rw [show 2 * (i / 2) = i by omega]

section
variable {max : Nat} (hmax : 200 ∣ max)
include hmax

theorem Local.Counts.even {l : Local} (h : l.Counts max) : 2 ∣ l.i := by
  unfold Local.Counts at h
  cases hpc : l.pc <;> simp only [hpc, Pc.Counts] at h <;> omega

theorem Local.Counts.le {l : Local} (h : l.Counts max) : l.i ≤ max := by
  unfold Local.Counts at h
  cases hpc : l.pc <;> simp only [hpc, Pc.Counts] at h <;> omega

theorem Local.Counts.lt {l : Local} (h : l.Counts max) (hl : l.pc.InLoop) : l.i < max := by
  unfold Local.Counts at h
  rcases hl with hl | hl | hl | hl <;> simp only [hl, Pc.Counts] at h <;> omega

theorem Filled.lt {s : State} (h : Filled max s) {t : Side} (hl : (s.loc t).pc.InLoop) : s.arrInd < max := by
  have h₁ := (h.counts t).lt hmax hl
  have h₂ := (h.counts t).even hmax
  have h₃ := (h.counts t.other).le hmax
  have h₄ := h.index t
  omega

end

section
variable {max : Nat} {s : State} {t : Side} (h : Filled max s)
include h

theorem Filled.goto {l : Local} (hi : l.i = (s.loc t).i) (hc : l.Counts max)
    (hreg : l.pc = .stData ∨ l.pc = .stInc → l.reg = s.arrInd)
    (hst : l.pc = .ldInc ∨ l.pc = .stInc → s.data[s.arrInd]? = some (l.i + idx t)) : Filled max (s.goto t l) := by
  have hsame : ∀ u, ((s.goto t l).loc u).i = (s.loc u).i := by
    intro u
    rcases Side.eq_or_eq_other u t with rfl | rfl
    · simpa [State.goto] using hi
    · simp [State.goto]
  refine ⟨fun u => ?_, h.size, fun u => ?_, fun u => ?_, fun u => ?_, fun u => ?_⟩
  · rcases Side.eq_or_eq_other u t with rfl | rfl
    · simpa [State.goto] using hc
    · simpa [State.goto] using h.counts t.other
  · rw [hsame, hsame]
    exact h.index u
  · rcases Side.eq_or_eq_other u t with rfl | rfl
    · simpa [State.goto] using hreg
    · simpa [State.goto] using h.reg t.other
  · rcases Side.eq_or_eq_other u t with rfl | rfl
    · simpa [State.goto] using hst
    · simpa [State.goto] using h.stored t.other
  · rw [hsame, hsame]
    exact h.written u

theorem Filled.written_stInc (hmax : 200 ∣ max) (hpc : (s.loc t).pc = .stInc) :
    (s.data.take (s.arrInd + 1)).Perm (numbers t ((s.loc t).i + 2) ++ numbers t.other (s.loc t.other).i) := by
  have htake : s.data.take (s.arrInd + 1) = s.data.take s.arrInd ++ [(s.loc t).i + idx t] := by
    rw [List.take_add_one, h.stored t (.inr hpc)]; rfl
  rw [htake, numbers_add_two ((h.counts t).even hmax), List.append_assoc]
  refine ((h.written t).append_right _).trans ?_
  rw [List.append_assoc]
  exact List.perm_append_comm.append_left _

section
variable (hmax : 200 ∣ max) (hother : (s.loc t.other).pc.stage ≠ .holding)
include hmax hother

theorem Filled.stData (hpc : (s.loc t).pc = .stData) :
    Filled max ({ s with data := s.data.set (s.loc t).reg ((s.loc t).i + idx t) }.goto t
      { s.loc t with pc := .ldInc }) := by
  have hreg := h.reg t (.inl hpc)
  have hlt := h.lt hmax (.inr (.inl hpc))
  have hc := h.counts t
  unfold Local.Counts at hc
  rw [hpc] at hc
  rw [hreg]
  refine Filled.goto (s := { s with data := s.data.set s.arrInd ((s.loc t).i + idx t) }) ?_ rfl hc (by simp) ?_
  · refine ⟨h.counts, by simpa using h.size, h.index, h.reg, fun u hu => ?_, fun u => ?_⟩
    · -- neither thread is past the store that is happening
      exfalso
      rcases Side.eq_or_eq_other u t with rfl | rfl
      · simp [hpc] at hu
      · apply hother
        rcases hu with hu | hu <;> rw [hu] <;> rfl
    · dsimp only
      rw [List.take_set_of_le (Nat.le_refl _)]
      exact h.written u
  · intro _
    exact List.getElem?_set_self (h.size ▸ hlt)

theorem Filled.stInc (hpc : (s.loc t).pc = .stInc) :
    Filled max ({ s with arrInd := (s.loc t).reg + 1 }.goto t
      { s.loc t with
        pc := if (s.loc t).j + 1 < 100 then .ldIdx else .clrFlag
        i := (s.loc t).i + 2
        j := (s.loc t).j + 1 }) := by
  have hreg := h.reg t (.inr hpc)
  have heven := (h.counts t).even hmax
  have hidx := h.index t
  have hperm := h.written_stInc hmax hpc
  have hc := h.counts t
  unfold Local.Counts at hc
  rw [hpc] at hc
  obtain ⟨a, hi, hj, ha⟩ := hc
  rw [hreg]
  have hvacuous : ∀ {pc : Pc}, (s.loc t.other).pc = pc → pc.stage ≠ .holding := fun e => e ▸ hother
  refine ⟨Side.forall_of t ?_ ?_, h.size, Side.forall_of t ?_ ?_, Side.forall_of t ?_ ?_, Side.forall_of t ?_ ?_,
    Side.forall_of t ?_ ?_⟩
  · simp only [State.goto, Function.update_self, Local.Counts]
    by_cases hlast : (s.loc t).j + 1 < 100
    · rw [if_pos hlast]
      exact ⟨a, by omega, hlast, ha⟩
    · rw [if_neg hlast]
      exact ⟨a, by omega, ha⟩
  · simpa [State.goto] using h.counts t.other
  · simp [State.goto]
    omega
  · simp [State.goto]
    omega
  · simp only [State.goto, Function.update_self]
    split <;> simp
  · simp only [State.goto, ne_eq, Side.other_ne, not_false_eq_true, Function.update_of_ne]
    rintro (hp | hp)
    · exact absurd rfl (hvacuous hp)
    · exact absurd rfl (hvacuous hp)
  · simp only [State.goto, Function.update_self]
    split <;> simp
  · simp only [State.goto, ne_eq, Side.other_ne, not_false_eq_true, Function.update_of_ne]
    rintro (hp | hp)
    · exact absurd rfl (hvacuous hp)
    · exact absurd rfl (hvacuous hp)
  · simpa [State.goto] using hperm
  · simpa [State.goto] using hperm.trans List.perm_append_comm

end

theorem Filled.step (hmax : 200 ∣ max)
    (hother : (s.loc t).pc.stage = .holding → (s.loc t.other).pc.stage ≠ .holding) {s' : State}
    (hs : Moves max t s s') : Filled max s' := by
  have hc := h.counts t
  unfold Local.Counts at hc
  cases hs with
  | setFlag hpc =>
    rw [hpc] at hc
    exact Filled.goto (s := { s with flag := Function.update s.flag t true }) { h with } rfl hc (by simp) (by simp)
  | setTurn hpc =>
    rw [hpc] at hc
    exact Filled.goto (s := { s with turn := idx t.other }) { h with } rfl hc (by simp) (by simp)
  | wait pc hw hpc =>
    have hc := Pc.counts_waiting hw hc
    rcases hpc with rfl | rfl
    · exact h.goto rfl hc (by simp) (by simp)
    · exact h.goto rfl hc (by simp) (by simp)
  | pass hw hpass =>
    obtain ⟨a, hi, ha⟩ := Pc.counts_waiting hw hc
    refine h.goto rfl ⟨a, hi, by simp, ?_⟩ (by simp) (by simp)
    omega
  | ldIdx hpc =>
    rw [hpc] at hc
    exact h.goto rfl hc (by simp) (by simp)
  | stData hpc => exact h.stData hmax (hother (by rw [hpc]; rfl)) hpc
  | ldInc hpc =>
    rw [hpc] at hc
    exact h.goto rfl hc (by simp) (fun _ => h.stored t (.inl hpc))
  | stInc hpc => exact h.stInc hmax (hother (by rw [hpc]; rfl)) hpc
  | clrFlag hpc =>
    rw [hpc] at hc
    obtain ⟨a, hi, ha⟩ := hc
    refine Filled.goto (s := { s with flag := Function.update s.flag t false }) { h with } rfl ?_ ?_ ?_
    · show Pc.Counts max (s.loc t).i (s.loc t).j (if (s.loc t).i < max then .setFlag else .ret)
      by_cases hlt : (s.loc t).i < max
      · rw [if_pos hlt]
        exact ⟨a + 1, by omega, hlt⟩
      · rw [if_neg hlt]
        show (s.loc t).i = max
        omega
    · by_cases hlt : (s.loc t).i < max <;> simp [hlt]
    · by_cases hlt : (s.loc t).i < max <;> simp [hlt]

end

/-! ## Runs -/

structure Safe (max : Nat) (s : State) : Prop where
  flags : Flags s
  ordered : s.lock.Ordered
  filled : Filled max s

theorem safe_init (max : Nat) : Safe max (init max) := by
  have hpc : ∀ t, ((init max).loc t).pc = .setFlag ∨ ((init max).loc t).pc = .ret := by
    intro t
    by_cases h : 0 < max <;> simp [init, h]
  have hidle : ∀ t, (init max).lock.stage t = .idle := by
    intro t
    rcases hpc t with h | h <;> exact congrArg Pc.stage h
  refine ⟨⟨fun t => ?_, rfl⟩, fun t ht => ?_, ⟨fun t => ?_, List.length_replicate, fun t => ?_, fun t ht => ?_,
    fun t ht => ?_, fun t => ?_⟩⟩
  · rw [hidle]
    simp [init]
  · rw [hidle] at ht
    cases ht
  · by_cases h : 0 < max
    · simp only [Local.Counts, init, h, if_true]
      exact ⟨0, rfl, h⟩
    · simp only [Local.Counts, init, h, if_false]
      exact (Nat.eq_zero_of_not_pos h).symm
  · simp [init]
  · rcases hpc t with h | h <;> simp [h] at ht
  · rcases hpc t with h | h <;> simp [h] at ht
  · simp [init, numbers]

section
variable {max : Nat} (hmax : 200 ∣ max)
include hmax

theorem safe_step {s s' : State} {t : Side} (hs : step max s t = some s') (h : Safe max s) : Safe max s' := by
  have hmove := step_moves hs
  refine ⟨flags_step h.flags hmove, ?_, h.filled.step hmax h.ordered.exclusive hmove⟩
  rcases lock_step h.flags hmove with he | hl
  · rw [he]
    exact h.ordered
  · exact h.ordered.step hl

theorem safe_reach {s : State} (h : Lib.Reach (step max) (fun _ => True) (init max) s) : Safe max s :=
  h.invariant (safe_init max) (fun _ hs => safe_step hmax hs)

end

/-! ## When both threads have returned -/

theorem numbers_perm_range : ∀ m, (numbers .left (2 * m) ++ numbers .right (2 * m)).Perm (List.range (2 * m))
  | 0 => List.Perm.refl _
  | m + 1 => by
    rw [show 2 * (m + 1) = 2 * m + 2 by omega, numbers_add_two ⟨m, rfl⟩, numbers_add_two ⟨m, rfl⟩,
      List.range_succ, List.range_succ]
    have ih := numbers_perm_range m
    generalize numbers .left (2 * m) = evens, numbers .right (2 * m) = odds at ih ⊢
    have hswap : ([2 * m] ++ odds).Perm (odds ++ [2 * m]) := List.perm_append_comm
    have hmove := ((hswap.append_left evens).append_right [2 * m + 1])
    rw [← List.append_assoc evens odds] at hmove
    refine List.Perm.trans ?_ (hmove.trans ((ih.append_right [2 * m]).append_right [2 * m + 1]))
    simp [idx]

theorem sum_range (n : Nat) : (List.range n).sum = n * (n - 1) / 2 := by
  induction n with
  | zero => rfl
  | succ n ih => rw [List.range_succ, List.sum_append, ih, Nat.triangle_succ]; simp

theorem foldl_ofNat_add : ∀ (l : List Nat) (acc : UInt64),
    l.foldl (fun sum d => sum + UInt64.ofNat d) acc = acc + UInt64.ofNat l.sum
  | [], acc => by simp
  | d :: l, acc => by
    rw [List.foldl_cons, foldl_ofNat_add l, List.sum_cons, UInt64.ofNat_add, UInt64.add_assoc]

section
variable {max : Nat} (hmax : 200 ∣ max) {s : State} (h : Safe max s)
include h

theorem returned_i (hret : ∀ t, (s.loc t).pc = .ret) : ∀ t, (s.loc t).i = max := by
  intro t
  have hc := h.filled.counts t
  unfold Local.Counts at hc
  rw [hret t] at hc
  exact hc

include hmax

theorem returned_data (hret : ∀ t, (s.loc t).pc = .ret) : s.arrInd = max ∧ s.data.Perm (List.range max) := by
  have hi := returned_i h hret
  have hidx : s.arrInd = max := by
    rw [h.filled.index .left, hi, hi]
    omega
  refine ⟨hidx, ?_⟩
  obtain ⟨m, rfl⟩ : ∃ m, max = 2 * m := ⟨max / 2, by omega⟩
  have hw := h.filled.written .left
  rw [hidx, List.take_of_length_le (Nat.le_of_eq h.filled.size), hi, hi] at hw
  exact hw.trans (numbers_perm_range m)

end

theorem sum_of_perm {s : State} {n : Nat} (h : s.data.Perm (List.range n)) :
    s.sum = UInt64.ofNat (n * (n - 1) / 2) := by
  unfold State.sum
  rw [foldl_ofNat_add, h.sum_nat, sum_range]
  exact UInt64.zero_add _

/-- **The threads fill the array.** In every interleaving the loops exclude
each other and stay in the array; when both threads have returned, the array
holds each number once and `main` prints their sum. -/
theorem threads_fill (max : Nat) (hmax : 200 ∣ max) {s : State}
    (h : Lib.Reach (step max) (fun _ => True) (init max) s) :
    (∀ t, (s.loc t).pc.InLoop → ¬ (s.loc t.other).pc.InLoop) ∧
      (∀ t, (s.loc t).pc = .stData → (s.loc t).reg < s.data.length ∧ s.data.length = max) ∧
      ((∀ t, (s.loc t).pc = .ret) →
        s.arrInd = max ∧ s.data.Perm (List.range max) ∧ s.sum = UInt64.ofNat (max * (max - 1) / 2) ∧
          (max < 2 ^ 31 → s.sum.toNat = max * (max - 1) / 2)) := by
  have hsafe := safe_reach hmax h
  refine ⟨fun t ht ho => ?_, fun t hpc => ?_, fun hret => ?_⟩
  · have hold : ∀ {u : Side}, (s.loc u).pc.InLoop → s.lock.stage u = .holding := by
      rintro u (hu | hu | hu | hu) <;> exact congrArg Pc.stage hu
    exact hsafe.ordered.exclusive (hold ht) (hold ho)
  · rw [hsafe.filled.reg t (.inl hpc), hsafe.filled.size]
    exact ⟨hsafe.filled.lt hmax (.inr (.inl hpc)), rfl⟩
  · obtain ⟨hidx, hperm⟩ := returned_data hmax hsafe hret
    have hsum := sum_of_perm hperm
    refine ⟨hidx, hperm, hsum, fun hlt => ?_⟩
    have hbound : max * (max - 1) ≤ 2 ^ 31 * 2 ^ 31 := Nat.mul_le_mul (by omega) (by omega)
    rw [hsum]
    exact UInt64.toNat_ofNat_of_lt' (show max * (max - 1) / 2 < 2 ^ 64 by omega)

theorem threads_fill_first_store : ∃ s, Lib.Reach (step 200) (fun _ => True) (init 200) s ∧
    (s.loc .left).pc = .stData ∧ (s.loc .left).reg < s.data.length ∧ ¬ (s.loc .right).pc.InLoop := by
  obtain ⟨s, hrun, hs⟩ : ∃ s, Lib.Reach (step 200) (fun _ => True) (init 200) s ∧
      decide ((s.loc .left).pc = .stData) = true :=
    Lib.Reach.of_check [.left, .right, .left, .right, .left, .right, .left, .left, .right]
      (fun _ _ => trivial) (by decide +kernel)
  have hpc := of_decide_eq_true hs
  obtain ⟨hexcl, hbound, _⟩ := threads_fill 200 (by decide) hrun
  exact ⟨s, hrun, hpc, (hbound .left hpc).1, hexcl .left (.inr (.inl hpc))⟩

end IoTester.Threads

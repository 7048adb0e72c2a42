import IoTester.Lib.Machine
import Mathlib.Algebra.Order.BigOperators.Group.Finset
import Mathlib.Logic.Function.Basic

/-!
# Machines side by side

The parts of a process are machines that share no state. A part that crashes
takes the process down with it, so no part goes on after that. Whatever the
interleaving, each part does what it does alone. Parts that can come to an end
alone can do so one after the other, and the steps they have left add up.
-/

namespace Lib

/-- A process: its parts, and whether it is down. -/
structure Process (ι σ : Type) where
  part : ι → σ
  down : Bool := false

section
variable {ι σ ℓ : Type} [DecidableEq ι] (move : ι → σ → ℓ → Option σ) (crashed : σ → Bool)

def Process.step (s : Process ι σ) (l : ι × ℓ) : Option (Process ι σ) :=
  if s.down then none
  else (move l.1 (s.part l.1) l.2).map fun p => ⟨Function.update s.part l.1 p, crashed p⟩

variable {move crashed} {ok : ι × ℓ → Prop} {s u : Process ι σ}

theorem Process.step_eq_some {l : ι × ℓ} (h : Process.step move crashed s l = some u) :
    s.down = false ∧ ∃ p, move l.1 (s.part l.1) l.2 = some p ∧ u = ⟨Function.update s.part l.1 p, crashed p⟩ := by
  unfold Process.step at h
  by_cases hd : s.down = true
  · rw [if_pos hd] at h
    cases h
  · rw [if_neg hd] at h
    obtain ⟨p, hp, rfl⟩ := Option.map_eq_some_iff.mp h
    exact ⟨by simpa using hd, p, hp, rfl⟩

theorem Process.step_part {i : ι} {l : ℓ} {p : σ} (hs : s.down = false) (h : move i (s.part i) l = some p) :
    Process.step move crashed s (i, l) = some ⟨Function.update s.part i p, crashed p⟩ := by
  simp [Process.step, hs, h]

/-- **Each part alone.** -/
theorem Process.reach_part (h : Reach (Process.step move crashed) ok s u) (i : ι) :
    Reach (move i) (fun l => ok (i, l)) (s.part i) (u.part i) := by
  induction h with
  | refl => exact .refl
  | @next a b l _ hl hs ih =>
    obtain ⟨-, p, hp, rfl⟩ := Process.step_eq_some hs
    by_cases hi : i = l.1
    · subst hi
      simpa using ih.next hl hp
    · simpa [hi] using ih

theorem forall_update {Inv : ι → σ → Prop} (h : ∀ i, Inv i (s.part i)) {i : ι} {p : σ} (hp : Inv i p) (j : ι) :
    Inv j (Function.update s.part i p j) := by
  by_cases hj : j = i
  · subst hj
    simpa using hp
  · simpa [hj] using h j

/-- **The length of runs.** Every step of a part lowers what it has left. -/
theorem Process.length_le [Fintype ι] {Inv : ι → σ → Prop} (left : ι → σ → Nat)
    (hmove : ∀ {i p l q}, move i p l = some q → Inv i p → Inv i q ∧ left i q < left i p)
    {m : Nat} (hs : ∀ i, Inv i (s.part i) ∧ left i (s.part i) ≤ m) {ls : List (ι × ℓ)}
    (h : runs (Process.step move crashed) s ls = some u) : ls.length ≤ Fintype.card ι * m := by
  have hstep : ∀ {a b : Process ι σ} {l : ι × ℓ}, True → Process.step move crashed a l = some b →
      (∀ i, Inv i (a.part i)) →
      (∀ i, Inv i (b.part i)) ∧ ∑ i, left i (b.part i) + 1 ≤ ∑ i, left i (a.part i) := by
    intro a b l _ hst ha
    obtain ⟨-, p, hp, rfl⟩ := Process.step_eq_some hst
    obtain ⟨hinv, hlt⟩ := hmove hp (ha l.1)
    refine ⟨forall_update ha hinv, Nat.succ_le_of_lt (Finset.sum_lt_sum (fun i _ => ?_) ⟨l.1, Finset.mem_univ _, ?_⟩)⟩
    · by_cases hi : i = l.1
      · subst hi
        simpa using Nat.le_of_lt hlt
      · simp [hi]
    · simpa using hlt
  have hcost := runs_cost (fun _ => 1) (fun s => ∑ i, left i (s.part i)) hstep ls s (fun _ _ => trivial)
    (fun i => (hs i).1) h
  rw [List.map_const', List.sum_replicate_nat, Nat.mul_one] at hcost
  calc ls.length ≤ ∑ i, left i (s.part i) := Nat.le_trans (Nat.le_add_right _ _) hcost
    _ ≤ ∑ _i : ι, m := Finset.sum_le_sum fun i _ => (hs i).2
    _ = Fintype.card ι * m := Finset.sum_const_nat fun _ _ => rfl

section
variable {Inv : ι → σ → Prop} (hkeep : ∀ ⦃i p l q⦄, ok (i, l) → move i p l = some q → Inv i p → Inv i q)
  (hsafe : ∀ ⦃i p⦄, Inv i p → crashed p = false)
include hkeep hsafe

/-- Parts that keep out of a crash keep the process up. -/
theorem Process.keeps (h : Reach (Process.step move crashed) ok s u) (hs : s.down = false ∧ ∀ i, Inv i (s.part i)) :
    u.down = false ∧ ∀ i, Inv i (u.part i) := by
  refine h.invariant (P := fun s => s.down = false ∧ ∀ i, Inv i (s.part i)) hs ?_
  intro a b l hl hst ha
  obtain ⟨-, p, hp, rfl⟩ := Process.step_eq_some hst
  have hinv := hkeep hl hp (ha.2 l.1)
  exact ⟨hsafe hinv, forall_update ha.2 hinv⟩

/-- A part runs while the others stand still. -/
theorem Process.reach_update (hs : s.down = false) {i : ι} (hi : Inv i (s.part i)) {p : σ}
    (h : Reach (move i) (fun l => ok (i, l)) (s.part i) p) :
    Reach (Process.step move crashed) ok s ⟨Function.update s.part i p, false⟩ ∧ Inv i p := by
  induction h with
  | refl =>
    rw [Function.update_eq_self, ← hs]
    exact ⟨.refl, hi⟩
  | @next a b l _ hl hst ih =>
    have hb := hkeep hl hst ih.2
    refine ⟨ih.1.next (l := (i, l)) hl ?_, hb⟩
    simp [Process.step, hst, hsafe hb]

/-- **All parts come to an end** if none of them is stuck before its end and each
step leaves it less to do. -/
theorem Process.exists_end (left : ι → σ → Nat) (Done : ι → σ → Prop)
    (hmove : ∀ i p, Inv i p → ¬ Done i p → ∃ l q, ok (i, l) ∧ move i p l = some q ∧ left i q < left i p)
    (hs : s.down = false ∧ ∀ i, Inv i (s.part i)) :
    ∀ is : List ι, ∃ v, Reach (Process.step move crashed) ok s v ∧ ∀ i ∈ is, Done i (v.part i)
  | [] => ⟨s, .refl, by simp⟩
  | i :: is => by
    obtain ⟨v, hsv, hv⟩ := Process.exists_end left Done hmove hs is
    obtain ⟨hup, hinv⟩ := Process.keeps hkeep hsafe hsv hs
    have hlower : ∀ p, Inv i p → ¬ Done i p →
        ∃ q, Reach (move i) (fun l => ok (i, l)) p q ∧ left i q < left i p := by
      intro p hp hd
      obtain ⟨l, q, hl, hq, hlt⟩ := hmove i p hp hd
      exact ⟨q, .next .refl hl hq, hlt⟩
    obtain ⟨q, hq, hdone⟩ := Reach.exists_done (left i) (fun hl hst hp => hkeep hl hst hp) hlower (hinv i)
    refine ⟨_, hsv.trans (Process.reach_update hkeep hsafe hup (hinv i) hq).1, fun j hj => ?_⟩
    by_cases hji : j = i
    · subst hji
      simpa using hdone
    · simpa [hji] using hv j (List.mem_of_ne_of_mem hji hj)

end

end

end Lib

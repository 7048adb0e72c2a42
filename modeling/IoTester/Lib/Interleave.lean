/-!
# Interleavings

The events of some threads, each a list in the order of its thread, in the
order of a run. A run may stop at any time.
-/

namespace Lib

inductive Interleaves {α : Type} : List (List α) → List α → Prop
  | stop (threads : List (List α)) : Interleaves threads []
  | step {before after : List (List α)} {thread log : List α} (x : α) :
      Interleaves (before ++ thread :: after) log → Interleaves (before ++ (x :: thread) :: after) (x :: log)

section
variable {α : Type}

theorem Interleaves.perm {threads : List (List α)} {log : List α} (h : Interleaves threads log) :
    ∃ rest, (log ++ rest).Perm threads.flatten := by
  induction h with
  | stop threads => exact ⟨threads.flatten, List.Perm.refl _⟩
  | @step before after thread log x _ ih =>
    obtain ⟨rest, hrest⟩ := ih
    refine ⟨rest, (hrest.cons x).trans ?_⟩
    simp only [List.flatten_append, List.flatten_cons, List.cons_append]
    exact List.perm_middle.symm

theorem Interleaves.idle {threads : List (List α)} {log : List α} (h : Interleaves threads log) :
    Interleaves ([] :: threads) log := by
  induction h with
  | stop threads => exact .stop _
  | @step before after thread log x _ ih => exact @Interleaves.step α ([] :: before) after thread log x ih

/-- One thread after the other. -/
theorem interleaves_flatten : ∀ threads : List (List α), Interleaves threads threads.flatten
  | [] => .stop []
  | thread :: threads => by
    induction thread with
    | nil => exact (interleaves_flatten threads).idle
    | cons x thread ih => exact @Interleaves.step α [] threads thread _ x ih

/-- A symmetric relation between all events of all threads holds along every
interleaving of their batches. -/
theorem Interleaves.pairwise {threads : List (List (List α))} {log : List (List α)} (h : Interleaves threads log)
    {R : α → α → Prop} (hsymm : ∀ {a b}, R a b → R b a) (hR : (threads.map List.flatten).flatten.Pairwise R) :
    log.flatten.Pairwise R := by
  obtain ⟨rest, hrest⟩ := h.perm
  have hflat := hrest.flatten
  rw [List.flatten_append, List.flatten_flatten] at hflat
  exact (List.pairwise_append.mp ((hflat.pairwise_iff hsymm).mpr hR)).1

theorem countP_le_one_iff {p : α → Bool} : ∀ {l : List α},
    l.countP p ≤ 1 ↔ l.Pairwise fun a b => ¬ (p a = true ∧ p b = true)
  | [] => by simp
  | a :: l => by
    rw [List.pairwise_cons, ← countP_le_one_iff, List.countP_cons]
    by_cases ha : p a = true
    · simp only [ha, if_true, true_and]
      constructor
      · intro h
        have hzero : l.countP p = 0 := by omega
        exact ⟨fun b hb => List.countP_eq_zero.mp hzero b hb, by omega⟩
      · rintro ⟨h, _⟩
        have hzero : l.countP p = 0 := List.countP_eq_zero.mpr h
        omega
    · simp [ha]

end

end Lib

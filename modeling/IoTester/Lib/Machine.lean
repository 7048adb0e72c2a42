import Mathlib.Algebra.Ring.Nat

/-!
# Labelled machines

A machine is a partial function from a state and a label to the next state.
`Reach` collects the states that labels of one kind lead to; an invariant is
shown once for the start and once for a step, a measure that pays for each
step bounds whole runs, and a state from which some run can always lower a
measure leads to one that is done.
-/

namespace Lib

section
variable {σ ℓ : Type} (step : σ → ℓ → Option σ)

def runs : σ → List ℓ → Option σ
  | s, [] => some s
  | s, l :: ls => (step s l).bind fun t => runs t ls

inductive Reach (ok : ℓ → Prop) (s : σ) : σ → Prop
  | refl : Reach ok s s
  | next {t u : σ} {l : ℓ} : Reach ok s t → ok l → step t l = some u → Reach ok s u

variable {step} {ok : ℓ → Prop}

theorem Reach.trans {s t u : σ} (h₁ : Reach step ok s t) (h₂ : Reach step ok t u) : Reach step ok s u := by
  induction h₂ with
  | refl => exact h₁
  | next _ hl hs ih => exact .next ih hl hs

theorem Reach.mono {ok' : ℓ → Prop} (himp : ∀ l, ok l → ok' l) {s t : σ} (h : Reach step ok s t) :
    Reach step ok' s t := by
  induction h with
  | refl => exact .refl
  | next _ hl hs ih => exact .next ih (himp _ hl) hs

theorem Reach.of_runs {t : σ} :
    ∀ (ls : List ℓ) (s : σ), (∀ l ∈ ls, ok l) → runs step s ls = some t → Reach step ok s t
  | [], s, _, h => by
    cases h
    exact .refl
  | l :: ls, s, hok, h => by
    obtain ⟨u, hu, ht⟩ := Option.bind_eq_some_iff.mp h
    refine (Reach.next .refl (hok l List.mem_cons_self) hu).trans ?_
    exact of_runs ls u (fun a ha => hok a (List.mem_cons_of_mem l ha)) ht

theorem Reach.of_check {p : σ → Bool} {s : σ} (ls : List ℓ) (hok : ∀ l ∈ ls, ok l)
    (h : (runs step s ls).any p = true) : ∃ t, Reach step ok s t ∧ p t = true := by
  obtain ⟨t, ht, hp⟩ := (Option.any_eq_true ..).mp h
  exact ⟨t, .of_runs ls s hok ht, hp⟩

theorem Reach.invariant {P : σ → Prop} {s t : σ} (h : Reach step ok s t) (h₀ : P s)
    (hstep : ∀ {a b : σ} {l : ℓ}, ok l → step a l = some b → P a → P b) : P t := by
  induction h with
  | refl => exact h₀
  | next _ hl hs ih => exact hstep hl hs ih

/-- An invariant of the state and of the labels that led to it. -/
theorem runs_invariant {P : List ℓ → σ → Prop}
    (hstep : ∀ {ls : List ℓ} {a b : σ} {l : ℓ}, ok l → step a l = some b → P ls a → P (ls ++ [l]) b) {t : σ} :
    ∀ (ls before : List ℓ) (s : σ), (∀ l ∈ ls, ok l) → P before s → runs step s ls = some t → P (before ++ ls) t
  | [], before, s, _, hs, h => by
    cases h
    rwa [List.append_nil]
  | l :: ls, before, s, hok, hs, h => by
    obtain ⟨u, hu, ht⟩ := Option.bind_eq_some_iff.mp h
    rw [List.append_cons]
    exact runs_invariant hstep ls _ u (fun a ha => hok a (List.mem_cons_of_mem l ha))
      (hstep (hok l List.mem_cons_self) hu hs) ht

/-- A measure that pays for every step bounds the cost of a run. -/
theorem runs_cost {Inv : σ → Prop} (cost : ℓ → Nat) (measure : σ → Nat)
    (hstep : ∀ {a b : σ} {l : ℓ}, ok l → step a l = some b → Inv a → Inv b ∧ measure b + cost l ≤ measure a) {t : σ} :
    ∀ (ls : List ℓ) (s : σ), (∀ l ∈ ls, ok l) → Inv s → runs step s ls = some t →
      (ls.map cost).sum + measure t ≤ measure s
  | [], s, _, _, h => by
    cases h
    simp
  | l :: ls, s, hok, hs, h => by
    obtain ⟨u, hu, ht⟩ := Option.bind_eq_some_iff.mp h
    obtain ⟨hinv, hle⟩ := hstep (hok l List.mem_cons_self) hu hs
    have ih := runs_cost cost measure hstep ls u (fun a ha => hok a (List.mem_cons_of_mem l ha)) hinv ht
    rw [List.map_cons, List.sum_cons]
    omega

/-- **Progress.** If from every state that keeps the invariant and is not done
some run lowers a measure, every such state leads to one that is done. -/
theorem Reach.exists_done {Inv Done : σ → Prop} (measure : σ → Nat)
    (hstep : ∀ {a b : σ} {l : ℓ}, ok l → step a l = some b → Inv a → Inv b)
    (hprogress : ∀ s, Inv s → ¬ Done s → ∃ t, Reach step ok s t ∧ measure t < measure s) {s : σ} (h : Inv s) :
    ∃ t, Reach step ok s t ∧ Done t := by
  -- on a bound for the measure, from any state
  suffices H : ∀ n s, measure s < n → Inv s → ∃ t, Reach step ok s t ∧ Done t from
    H _ s (Nat.lt_succ_self _) h
  intro n
  induction n with
  | zero => intro s hn; omega
  | succ n ih =>
    intro s hn h
    by_cases hd : Done s
    · exact ⟨s, .refl, hd⟩
    · obtain ⟨t, hst, hlt⟩ := hprogress s h hd
      obtain ⟨u, htu, hu⟩ := ih t (by omega) (hst.invariant h hstep)
      exact ⟨u, hst.trans htu, hu⟩

end

end Lib

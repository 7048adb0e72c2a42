import Mathlib.Logic.Function.Basic

/-!
# A lock for two

Two sides contend for a lock. A side raises its flag, gives way to the other
side, and passes once the other side is idle or has given way in turn. Between
passing and lowering its flag it holds the lock. Nothing is said about what a
side does while it holds the lock, nor how it looks at the two conditions.
-/

namespace Lib

inductive Side where
  | left
  | right
  deriving Repr, DecidableEq

namespace Side

def other : Side → Side
  | .left => .right
  | .right => .left

@[simp] theorem other_other (t : Side) : t.other.other = t := by cases t <;> rfl

@[simp] theorem other_ne (t : Side) : t.other ≠ t := by cases t <;> simp [other]

@[simp] theorem ne_other (t : Side) : t ≠ t.other := (other_ne t).symm

theorem eq_or_eq_other (t u : Side) : t = u ∨ t = u.other := by cases t <;> cases u <;> simp [other]

theorem forall_of {P : Side → Prop} (t : Side) (h : P t) (h' : P t.other) (u : Side) : P u := by
  rcases eq_or_eq_other u t with rfl | rfl
  · exact h
  · exact h'

end Side

inductive Stage where
  | idle
  | raised
  | waiting
  | holding
  deriving Repr, DecidableEq

structure Lock where
  stage : Side → Stage
  turn : Side

namespace Lock

inductive Step (t : Side) (a : Lock) : Lock → Prop
  | raise : a.stage t = .idle → Step t a { a with stage := Function.update a.stage t .raised }
  | giveWay : a.stage t = .raised → Step t a ⟨Function.update a.stage t .waiting, t.other⟩
  | pass : a.stage t = .waiting → a.stage t.other = .idle ∨ a.turn = t →
      Step t a { a with stage := Function.update a.stage t .holding }
  | release : a.stage t = .holding → Step t a { a with stage := Function.update a.stage t .idle }

/-- A side that holds the lock against one that waits for it was given way. -/
def Ordered (a : Lock) : Prop :=
  ∀ t, a.stage t = .holding → a.stage t.other = .waiting ∨ a.stage t.other = .holding → a.turn = t

section
variable {a b : Lock} {t : Side}

theorem Ordered.step (h : a.Ordered) (hs : Step t a b) : b.Ordered := by
  intro u hu hc
  cases hs with
  | raise _ =>
    rcases Side.eq_or_eq_other u t with rfl | rfl
    · simp at hu
    · simp at hc
  | giveWay _ =>
    rcases Side.eq_or_eq_other u t with rfl | rfl
    · simp at hu
    · rfl
  | pass hw hpass =>
    rcases Side.eq_or_eq_other u t with rfl | rfl
    · rcases hpass with hidle | hturn
      · simp [hidle] at hc
      · exact hturn
    · -- the other side already holds the lock, and had to be given way
      simp only [Function.update_of_ne (Side.other_ne t)] at hu
      exact h t.other hu (by rw [Side.other_other]; exact .inl hw)
  | release _ =>
    rcases Side.eq_or_eq_other u t with rfl | rfl
    · simp at hu
    · simp at hc

/-- **Mutual exclusion.** -/
theorem Ordered.exclusive (h : a.Ordered) (ht : a.stage t = .holding) : a.stage t.other ≠ .holding := by
  intro ho
  have h₁ := h t ht (.inr ho)
  have h₂ := h t.other ho (by rw [Side.other_other]; exact .inr ht)
  exact Side.ne_other t (h₁.symm.trans h₂)

end

/-! ## Deadlock -/

/-- **No deadlock.** A side may pass, or the other one has raised its flag and
is not kept from passing. -/
theorem pass_or_other (a : Lock) (t : Side) :
    (a.stage t.other = .idle ∨ a.turn = t) ∨ a.stage t.other ≠ .idle ∧ a.turn = t.other := by
  by_cases hidle : a.stage t.other = .idle
  · exact .inl (.inl hidle)
  · rcases Side.eq_or_eq_other a.turn t with h | h
    · exact .inl (.inr h)
    · exact .inr ⟨hidle, h⟩

/-! ## Overtaking -/

/-- Has a side stopped waiting in a step? -/
def passed (a b : Lock) (t : Side) : Nat := if a.stage t = .waiting ∧ b.stage t ≠ .waiting then 1 else 0

/-- How often the other side may still pass while `t` waits: once, if it waits
too and was given way. -/
def mayPass (a : Lock) (t : Side) : Nat := if a.stage t.other = .waiting ∧ a.turn = t.other then 1 else 0

section
variable {a b : Lock} {t u : Side}

theorem mayPass_le_one (a : Lock) (t : Side) : a.mayPass t ≤ 1 := by
  unfold mayPass
  split <;> simp

/-- **Overtaking.** A step that leaves `t` waiting uses up what it lets the
other side pass. -/
theorem Step.passed_le (hs : Step u a b) (ha : a.stage t = .waiting) (hb : b.stage t = .waiting) :
    passed a b t.other + b.mayPass t ≤ a.mayPass t := by
  rcases Side.eq_or_eq_other u t with rfl | rfl
  · -- a side that waits can only pass
    exfalso
    cases hs with
    | raise h => simp [h] at ha
    | giveWay h => simp [h] at ha
    | pass _ _ => simp at hb
    | release h => simp [h] at ha
  · cases hs with
    | raise h => simp [passed, mayPass, h]
    | giveWay h => simp [passed, mayPass, h]
    | pass hw hpass =>
      have hturn : a.turn = t.other := by
        rcases hpass with hidle | hturn
        · simp [ha] at hidle
        · exact hturn
      simp [passed, mayPass, hw, hturn]
    | release h => simp [passed, mayPass, h]

end

end Lock

end Lib

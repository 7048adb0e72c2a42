/-!
# Lists that know their positions

`Indexed f l`: the value of `f` at each element of `l` is the position of the
element, as for commands numbered in the order they are sent.
-/

namespace Lib

section
variable {α : Type} {f : α → Nat} {l : List α}

def Indexed (f : α → Nat) (l : List α) : Prop := ∀ (i : Nat) (a : α), l[i]? = some a → f a = i

theorem Indexed.nil : Indexed f [] := by
  intro i a h
  cases h

theorem Indexed.snoc (h : Indexed f l) {a : α} (ha : f a = l.length) : Indexed f (l ++ [a]) := by
  intro i b hb
  rw [List.getElem?_append] at hb
  split at hb
  · exact h i b hb
  · obtain ⟨hi, rfl⟩ := List.getElem?_eq_some_iff.mp hb
    simp only [List.length_singleton] at hi
    rw [List.getElem_singleton, ha]
    omega

theorem Indexed.lt (h : Indexed f l) {a : α} (ha : a ∈ l) : f a < l.length := by
  obtain ⟨i, hi, rfl⟩ := List.getElem_of_mem ha
  rw [h i _ (List.getElem?_eq_getElem hi)]
  exact hi

theorem Indexed.inj (h : Indexed f l) {a b : α} (ha : a ∈ l) (hb : b ∈ l) (e : f a = f b) : a = b := by
  obtain ⟨i, hi⟩ := List.getElem?_of_mem ha
  obtain ⟨j, hj⟩ := List.getElem?_of_mem hb
  rw [h i a hi, h j b hj] at e
  rw [e, hj] at hi
  exact (Option.some.inj hi).symm

end

end Lib

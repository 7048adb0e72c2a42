import Mathlib.Logic.Function.Basic
import Mathlib.Data.List.Perm.Basic

/-!
# Owned resources

Some holders have entries, and each entry has a resource. `Owned` says that a
resource is live exactly when an entry has it, and that no two entries have
the same one: so every live resource can be given back once, and none is lost.
-/

namespace Lib

section
variable {ι α : Type} {key : α → Nat} {live live' : Nat → Prop} {held : ι → List α}

structure Owned (key : α → Nat) (live : Nat → Prop) (held : ι → List α) : Prop where
  live_iff : ∀ k, live k ↔ ∃ i, ∃ a ∈ held i, key a = k
  inj : ∀ {i j a b}, a ∈ held i → b ∈ held j → key a = key b → i = j ∧ a = b
  nodup : ∀ i, (held i).Nodup

namespace Owned

theorem live_key (h : Owned key live held) {i : ι} {a : α} (ha : a ∈ held i) : live (key a) :=
  (h.live_iff _).mpr ⟨i, a, ha, rfl⟩

theorem congr (h : Owned key live held) (hl : ∀ k, live k ↔ live' k) : Owned key live' held :=
  ⟨fun k => (hl k).symm.trans (h.live_iff k), h.inj, h.nodup⟩

variable [DecidableEq ι]

/-- The entries of one holder in another order. -/
theorem perm (h : Owned key live held) {i : ι} {l : List α} (hl : l.Perm (held i)) :
    Owned key live (Function.update held i l) := by
  have hmem : ∀ j a, a ∈ Function.update held i l j ↔ a ∈ held j := by
    intro j a
    by_cases hj : j = i
    · subst hj
      simpa using hl.mem_iff
    · simp [hj]
  refine ⟨fun k => ?_, fun ha hb hk => h.inj ((hmem _ _).mp ha) ((hmem _ _).mp hb) hk, fun j => ?_⟩
  · simpa only [hmem] using h.live_iff k
  · by_cases hj : j = i
    · subst hj
      simpa using hl.nodup_iff.mpr (h.nodup j)
    · simpa [hj] using h.nodup j

/-- A new resource. -/
theorem take (h : Owned key live held) {i : ι} {a : α} {l : List α} (ha : ¬ live (key a)) (hl : l.Perm (a :: held i)) :
    Owned key (fun k => k = key a ∨ live k) (Function.update held i l) := by
  have hnew : ∀ {j b}, b ∈ held j → key b ≠ key a := fun hb e => ha (e ▸ h.live_key hb)
  have hmem : ∀ j b, b ∈ Function.update held i l j ↔ j = i ∧ b = a ∨ b ∈ held j := by
    intro j b
    by_cases hj : j = i
    · subst hj
      simpa using hl.mem_iff
    · simp [hj]
  refine ⟨fun k => ?_, fun {j j' b b'} hb hb' hk => ?_, fun j => ?_⟩
  · simp only [hmem, h.live_iff]
    constructor
    · rintro (rfl | ⟨j, b, hb, hk⟩)
      · exact ⟨i, a, .inl ⟨rfl, rfl⟩, rfl⟩
      · exact ⟨j, b, .inr hb, hk⟩
    · rintro ⟨j, b, ⟨rfl, rfl⟩ | hb, hk⟩
      · exact .inl hk.symm
      · exact .inr ⟨j, b, hb, hk⟩
  · rcases (hmem _ _).mp hb with ⟨hj, hba⟩ | hold <;> rcases (hmem _ _).mp hb' with ⟨hj', hba'⟩ | hold'
    · exact ⟨hj.trans hj'.symm, hba.trans hba'.symm⟩
    · exact absurd (hba ▸ hk.symm) (hnew hold')
    · exact absurd (hba' ▸ hk) (hnew hold)
    · exact h.inj hold hold' hk
  · by_cases hj : j = i
    · subst hj
      rw [Function.update_self, hl.nodup_iff, List.nodup_cons]
      exact ⟨fun hm => hnew hm rfl, h.nodup j⟩
    · simpa [hj] using h.nodup j

/-- A resource given back. -/
theorem give (h : Owned key live held) {i : ι} {a : α} {l : List α} (hl : (held i).Perm (a :: l)) :
    Owned key (fun k => k ≠ key a ∧ live k) (Function.update held i l) := by
  have ha : a ∈ held i := hl.mem_iff.mpr List.mem_cons_self
  have hnodup := List.nodup_cons.mp (hl.nodup_iff.mp (h.nodup i))
  have hmem : ∀ j b, b ∈ Function.update held i l j ↔ b ∈ held j ∧ key b ≠ key a := by
    intro j b
    by_cases hj : j = i
    · subst hj
      rw [Function.update_self, hl.mem_iff, List.mem_cons]
      constructor
      · intro hb
        refine ⟨.inr hb, fun e => hnodup.1 ?_⟩
        rwa [← (h.inj (hl.mem_iff.mpr (List.mem_cons_of_mem a hb)) ha e).2]
      · rintro ⟨rfl | hb, hne⟩
        · exact absurd rfl hne
        · exact hb
    · rw [Function.update_of_ne hj]
      exact ⟨fun hb => ⟨hb, fun e => hj (h.inj hb ha e).1⟩, And.left⟩
  refine ⟨fun k => ?_, fun hb hb' hk => h.inj ((hmem _ _).mp hb).1 ((hmem _ _).mp hb').1 hk, fun j => ?_⟩
  · simp only [hmem, h.live_iff]
    constructor
    · rintro ⟨hk, j, b, hb, rfl⟩
      exact ⟨j, b, ⟨hb, hk⟩, rfl⟩
    · rintro ⟨j, b, ⟨hb, hne⟩, rfl⟩
      exact ⟨hne, j, b, hb, rfl⟩
  · by_cases hj : j = i
    · subst hj
      simpa using hnodup.2
    · simpa [hj] using h.nodup j

end Owned

end

end Lib

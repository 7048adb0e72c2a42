/-!
# Computations that may fail
-/

namespace Lib

section
variable {ε α β : Type} {f : α → Except ε β}

theorem bind_eq_ok {x : Except ε α} {b : β} : x >>= f = .ok b ↔ ∃ a, x = .ok a ∧ f a = .ok b := by
  cases x with
  | error e => simp [bind, Except.bind]
  | ok a => simp [bind, Except.bind]

/-- A pass over a list goes through when each of its elements does. -/
theorem mapM_eq_ok : ∀ {l : List α} {bs : List β}, l.mapM f = .ok bs ↔ l.map f = bs.map .ok
  | [], bs => by
    cases bs with
    | nil => exact iff_of_true rfl rfl
    | cons b bs => exact iff_of_false (fun h => by cases h) (fun h => by cases h)
  | a :: l, bs => by
    rw [List.mapM_cons, bind_eq_ok, List.map_cons]
    constructor
    · rintro ⟨b, hb, h⟩
      obtain ⟨cs, hcs, h⟩ := bind_eq_ok.mp h
      cases h
      rw [List.map_cons, hb, mapM_eq_ok.mp hcs]
    · intro h
      obtain ⟨b, cs, rfl, hb, hcs⟩ := List.map_eq_cons_iff.mp h.symm
      exact ⟨b, hb.symm, bind_eq_ok.mpr ⟨cs, mapM_eq_ok.mpr hcs.symm, rfl⟩⟩

theorem mapM_ok {g : α → β} {l : List α} (h : ∀ a ∈ l, f a = .ok (g a)) : l.mapM f = .ok (l.map g) := by
  rw [mapM_eq_ok, List.map_map]
  exact List.map_congr_left h

theorem mapM_congr {g : α → Except ε β} : ∀ {l : List α}, (∀ a ∈ l, f a = g a) → l.mapM f = l.mapM g
  | [], _ => rfl
  | a :: l, h => by
    rw [List.mapM_cons, List.mapM_cons, h a List.mem_cons_self,
      mapM_congr fun a' ha => h a' (List.mem_cons_of_mem a ha)]

theorem mapM_mapM_ok {γ : Type} {g : β → Except ε γ} {h : α → γ} : ∀ {l : List α},
    (∀ a ∈ l, f a >>= g = .ok (h a)) → (l.mapM f >>= fun bs => bs.mapM g) = .ok (l.map h)
  | [], _ => rfl
  | a :: l, hl => by
    obtain ⟨b, hb, hg⟩ := bind_eq_ok.mp (hl a List.mem_cons_self)
    obtain ⟨bs, hbs, hgs⟩ := bind_eq_ok.mp (mapM_mapM_ok fun a' ha' => hl a' (List.mem_cons_of_mem a ha'))
    refine bind_eq_ok.mpr ⟨b :: bs, ?_, ?_⟩
    · rw [List.mapM_cons, hb, hbs]
      rfl
    · rw [List.mapM_cons, hg, hgs]
      rfl

theorem exists_mapM_ok : ∀ {l : List α}, (∀ a ∈ l, ∃ b, f a = .ok b) → ∃ bs, l.mapM f = .ok bs
  | [], _ => ⟨[], rfl⟩
  | a :: l, h => by
    obtain ⟨b, hb⟩ := h a List.mem_cons_self
    obtain ⟨bs, hbs⟩ := exists_mapM_ok fun a' ha' => h a' (List.mem_cons_of_mem a ha')
    refine ⟨b :: bs, ?_⟩
    rw [List.mapM_cons, hb, hbs]
    rfl

theorem ok_of_mapM {l : List α} {bs : List β} (h : l.mapM f = .ok bs) {a : α} (ha : a ∈ l) :
    ∃ b ∈ bs, f a = .ok b := by
  have hmem : f a ∈ l.map f := List.mem_map_of_mem ha
  rw [mapM_eq_ok.mp h] at hmem
  obtain ⟨b, hb, he⟩ := List.mem_map.mp hmem
  exact ⟨b, hb, he.symm⟩

theorem mem_of_mapM {l : List α} {bs : List β} (h : l.mapM f = .ok bs) {b : β} (hb : b ∈ bs) :
    ∃ a ∈ l, f a = .ok b := by
  rw [← List.mem_map, mapM_eq_ok.mp h]
  exact List.mem_map_of_mem hb

end

end Lib

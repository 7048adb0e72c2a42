import IoTester.Lib.Spans

/-!
# Stores addressed by position

A store is a list; writing past its end first pads it with a default value.
Writes of one constant value commute, so what a series of them does to a store
depends only on the addresses they cover.
-/

namespace Lib

section
variable {α : Type _} (z : α)

/-- `d` at position `off`, with `z` in the gap past the end of the store. -/
def writeAt (f : List α) (off : Nat) (d : List α) : List α :=
  if d.isEmpty then f else f.take off ++ List.replicate (off - f.length) z ++ d ++ f.drop (off + d.length)

def readAt (f : List α) (off len : Nat) : List α := (f.drop off).take len

theorem readAt_replicate (v : α) {off len n : Nat} (h : off + len ≤ n) :
    readAt (List.replicate n v) off len = List.replicate len v := by
  simp only [readAt, List.drop_replicate, List.take_replicate]
  rw [Nat.min_eq_left (by omega)]

theorem getElem?_writeAt {d : List α} (hd : d ≠ []) (f : List α) (off x : Nat) :
    (writeAt z f off d)[x]? =
      if off ≤ x ∧ x < off + d.length then d[x - off]?
      else if x < off ∧ f.length ≤ x then some z else f[x]? := by
  have hne : d.isEmpty = false := by simpa using hd
  have hlen : (f.take off ++ List.replicate (off - f.length) z).length = off := by simp; omega
  simp only [writeAt, hne, Bool.false_eq_true, ite_false, List.append_assoc]
  rw [← List.append_assoc (f.take off)]
  rcases Nat.lt_or_ge x off with hx | hx
  · rw [List.getElem?_append_left (by omega), if_neg (by omega)]
    rcases Nat.lt_or_ge x f.length with hf | hf
    · rw [List.getElem?_append_left (by simp; omega), List.getElem?_take_of_lt hx, if_neg (by omega)]
    · rw [List.getElem?_append_right (by simp; omega), if_pos ⟨hx, hf⟩, List.getElem?_replicate, if_pos]
      simp; omega
  · rw [List.getElem?_append_right (by omega), hlen]
    rcases Nat.lt_or_ge x (off + d.length) with hd' | hd'
    · rw [List.getElem?_append_left (by omega), if_pos ⟨hx, hd'⟩]
    · rw [List.getElem?_append_right (by omega), List.getElem?_drop, if_neg (by omega), if_neg (by omega)]
      congr 1; omega

theorem readAt_append_left {f : List α} {off len : Nat} (h : off + len ≤ f.length) (g : List α) :
    readAt (f ++ g) off len = readAt f off len := by
  simp only [readAt]
  rw [List.drop_append_of_le_length (by omega), List.take_append_of_le_length (by simp; omega)]

/-! ## Constant writes -/

def fill (v : α) (f : List α) (s : Span) : List α := writeAt z f s.start (List.replicate s.len v)

theorem fill_covered (v : α) (f : List α) {s : Span} {x : Nat} (h : s.Covers x) :
    (fill z v f s)[x]? = some v := by
  obtain ⟨h1, h2⟩ := h
  have hne : List.replicate s.len v ≠ [] := by simp; omega
  rw [fill, getElem?_writeAt z hne, if_pos ⟨h1, by simpa using h2⟩, List.getElem?_replicate, if_pos (by omega)]

theorem fill_other (v : α) {f : List α} {s : Span} (hs : s.start + s.len ≤ f.length) {x : Nat} (h : ¬ s.Covers x) :
    (fill z v f s)[x]? = f[x]? := by
  by_cases hl : s.len = 0
  · simp [fill, writeAt, hl]
  · rw [fill, getElem?_writeAt z (by simpa using hl), if_neg (by simpa [Span.Covers] using h), if_neg (by omega)]

theorem length_fill (v : α) {f : List α} {s : Span} (hs : s.start + s.len ≤ f.length) :
    (fill z v f s).length = f.length := by
  by_cases hl : s.len = 0
  · simp [fill, writeAt, hl]
  · simp [fill, writeAt, hl]
    omega

theorem fill_keeps (v : α) {f : List α} (s : Span) {x : Nat} (h : f[x]? = some v) :
    (fill z v f s)[x]? = some v := by
  by_cases hc : s.Covers x
  · exact fill_covered z v f hc
  · by_cases hs : s.len = 0
    · simpa [fill, writeAt, hs] using h
    · have hlt : x < f.length := (List.getElem?_eq_some_iff.mp h).1
      rw [fill, getElem?_writeAt z (by simpa using hs), if_neg (by simpa [Span.Covers] using hc), if_neg (by omega)]
      exact h

theorem fill_eq_self (v : α) {f : List α} {s : Span} (h : ∀ x, s.Covers x → f[x]? = some v) :
    fill z v f s = f := by
  by_cases hs : s.len = 0
  · simp [fill, writeAt, hs]
  -- the last address of the span is inside the store, so there is no gap to pad
  have hlast := h (s.start + s.len - 1) ⟨by omega, by omega⟩
  have hlen := (List.getElem?_eq_some_iff.mp hlast).1
  apply List.ext_getElem?
  intro x
  rw [fill, getElem?_writeAt z (by simpa using hs)]
  split
  · rename_i hc
    rw [List.length_replicate] at hc
    rw [h x hc, List.getElem?_replicate, if_pos (by omega)]
  · rw [if_neg (by omega)]

theorem getElem?_replicate_drop (v : α) (g : List α) (n x : Nat) :
    (List.replicate n v ++ g.drop n)[x]? = if x < n then some v else g[x]? := by
  by_cases hx : x < n
  · rw [List.getElem?_append_left (by simpa using hx), List.getElem?_replicate, if_pos hx, if_pos hx]
  · rw [List.getElem?_append_right (by simpa using hx), List.length_replicate, List.getElem?_drop, if_neg hx]
    congr 1
    omega

/-- A write that starts in the filled part of a store makes that part longer. -/
theorem fill_front (v : α) (g : List α) {m : Nat} {s : Span} (h : s.start ≤ m) :
    fill z v (List.replicate m v ++ g.drop m) s =
      List.replicate (max m (s.start + s.len)) v ++ g.drop (max m (s.start + s.len)) := by
  have hpart := getElem?_replicate_drop v g
  apply List.ext_getElem?
  intro x
  rw [hpart]
  by_cases hc : s.Covers x
  · rw [fill_covered z v _ hc, if_pos]
    unfold Span.Covers at hc
    omega
  · by_cases hlen : s.len = 0
    · have hself : fill z v (List.replicate m v ++ g.drop m) s = List.replicate m v ++ g.drop m := by
        simp [fill, writeAt, hlen]
      rw [hself, hpart, hlen, Nat.add_zero, Nat.max_eq_left h]
    · rw [fill, getElem?_writeAt z (by simpa using hlen), if_neg (by simpa [Span.Covers] using hc), if_neg, hpart]
      · unfold Span.Covers at hc
        by_cases hx : x < m
        · rw [if_pos hx, if_pos (by omega)]
        · rw [if_neg hx, if_neg (by omega)]
      · simp only [List.length_append, List.length_replicate]
        omega

theorem foldl_fill_keeps (v : α) {x : Nat} :
    ∀ (l : List Span) {f : List α}, f[x]? = some v → (l.foldl (fill z v) f)[x]? = some v
  | [], _, h => h
  | s :: l, _, h => foldl_fill_keeps v l (fill_keeps z v s h)

theorem foldl_fill_covered (v : α) {x : Nat} :
    ∀ (l : List Span) (f : List α) {s : Span}, s ∈ l → s.Covers x → (l.foldl (fill z v) f)[x]? = some v
  | t :: l, f, s, hm, hc => by
    rcases List.mem_cons.mp hm with rfl | hm
    · exact foldl_fill_keeps z v l (fill_covered z v f hc)
    · exact foldl_fill_covered v l _ hm hc

/-- Where no write starts past the end, the store has no gaps. -/
theorem getElem?_fill (v : α) {f : List α} {s : Span} (h : s.start ≤ f.length) (x : Nat) :
    (fill z v f s)[x]? = if s.Covers x then some v else f[x]? := by
  by_cases hc : s.Covers x
  · rw [if_pos hc, fill_covered z v f hc]
  · rw [if_neg hc]
    by_cases hlen : s.len = 0
    · simp [fill, writeAt, hlen]
    · unfold Span.Covers at hc
      rw [fill, getElem?_writeAt z (by simpa using hlen), if_neg (by simpa using hc), if_neg (by omega)]

theorem length_le_fill (v : α) (f : List α) (s : Span) : f.length ≤ (fill z v f s).length := by
  by_cases hlen : s.len = 0
  · simp [fill, writeAt, hlen]
  · simp [fill, writeAt, hlen]
    omega

theorem getElem?_foldl_fill (v : α) {x : Nat} : ∀ (l : List Span) (f : List α), (∀ s ∈ l, s.start ≤ f.length) →
    (l.foldl (fill z v) f)[x]? = if ∃ s ∈ l, s.Covers x then some v else f[x]?
  | [], f, _ => by simp
  | s :: l, f, h => by
    have hs := h s List.mem_cons_self
    have hl : ∀ t ∈ l, t.start ≤ (fill z v f s).length := fun t ht =>
      Nat.le_trans (h t (List.mem_cons_of_mem s ht)) (length_le_fill z v f s)
    rw [List.foldl_cons, getElem?_foldl_fill v l _ hl, getElem?_fill z v hs]
    by_cases hc : s.Covers x
    · simp [hc]
    · simp [hc]

theorem fill_beyond (v : α) (f : List α) {s : Span} {x : Nat} (h : s.start + s.len ≤ x) :
    (fill z v f s)[x]? = f[x]? := by
  by_cases hlen : s.len = 0
  · simp [fill, writeAt, hlen]
  · rw [fill, getElem?_writeAt z (by simpa using hlen), if_neg, if_neg (by omega)]
    rw [List.length_replicate]
    omega

theorem foldl_fill_beyond (v : α) {m x : Nat} (hx : m ≤ x) :
    ∀ (l : List Span) (f : List α), (∀ s ∈ l, s.start + s.len ≤ m) → (l.foldl (fill z v) f)[x]? = f[x]?
  | [], _, _ => rfl
  | s :: l, f, h => by
    rw [List.foldl_cons, foldl_fill_beyond v hx l _ fun t ht => h t (List.mem_cons_of_mem s ht)]
    exact fill_beyond z v f (Nat.le_trans (h s List.mem_cons_self) hx)

/-- Writes in any order that together cover the first `m` positions. -/
theorem foldl_fill_front (v : α) {m : Nat} {l : List Span} (g : List α) (hend : ∀ s ∈ l, s.start + s.len ≤ m)
    (hcover : ∀ x < m, ∃ s ∈ l, s.Covers x) : l.foldl (fill z v) g = List.replicate m v ++ g.drop m := by
  apply List.ext_getElem?
  intro x
  rw [getElem?_replicate_drop]
  by_cases hx : x < m
  · obtain ⟨s, hs, hc⟩ := hcover x hx
    rw [if_pos hx, foldl_fill_covered z v l g hs hc]
  · rw [if_neg hx, foldl_fill_beyond z v (Nat.le_of_not_lt hx) l g hend]

/-- **Constant writes.** A series of writes of one value leaves the store as it
was exactly when the store already held that value wherever they write. -/
theorem foldl_fill_eq_iff (v : α) (l : List Span) (f : List α) :
    l.foldl (fill z v) f = f ↔ ∀ s ∈ l, ∀ x, s.Covers x → f[x]? = some v := by
  constructor
  · intro h s hs x hx
    rw [← h]; exact foldl_fill_covered z v l f hs hx
  · intro h
    induction l with
    | nil => rfl
    | cons s l ih =>
      rw [List.foldl_cons, fill_eq_self z v (h s (List.mem_cons_self ..))]
      exact ih fun t ht => h t (List.mem_cons_of_mem _ ht)

end

end Lib

/-!
# Spans and tilings

Half-open ranges of addresses. A list of spans tiles `[0, n)` when it meets
every address below `n` once and no other address; `chain len n` is the run of
`n` adjacent spans of one length from `0`, and `batched` cuts such a run into
batches of one size.
-/

namespace Lib

structure Span where
  start : Nat
  len : Nat
  deriving Repr, DecidableEq

namespace Span

def Covers (s : Span) (x : Nat) : Prop := s.start ≤ x ∧ x < s.start + s.len

instance (s : Span) (x : Nat) : Decidable (s.Covers x) := inferInstanceAs (Decidable (_ ∧ _))

def Disjoint (s t : Span) : Prop := s.start + s.len ≤ t.start ∨ t.start + t.len ≤ s.start

end Span

def hits (l : List Span) (x : Nat) : Nat := l.countP fun s => s.Covers x

def Tiles (n : Nat) (l : List Span) : Prop := ∀ x, hits l x = if x < n then 1 else 0

def chain (len n : Nat) : List Span := (List.range n).map fun k => ⟨k * len, len⟩

def chainFrom (len n first : Nat) : List Span := (List.range n).map fun k => ⟨(first + k) * len, len⟩

def batched (len depth : Nat) : Nat → Nat → List (List Span)
  | 0, _ => []
  | n + 1, first => chainFrom len depth first :: batched len depth n (first + depth)

theorem hits_append (l₁ l₂ : List Span) (x : Nat) : hits (l₁ ++ l₂) x = hits l₁ x + hits l₂ x :=
  List.countP_append

theorem hits_pos_iff {l : List Span} {x : Nat} : 0 < hits l x ↔ ∃ s ∈ l, s.Covers x := by
  unfold hits; simp [List.countP_pos_iff]

section
variable {n : Nat} {l : List Span} (h : Tiles n l)
include h

theorem Tiles.exists_covers {x : Nat} (hx : x < n) : ∃ s ∈ l, s.Covers x := by
  rw [← hits_pos_iff, h x, if_pos hx]; exact Nat.one_pos

theorem Tiles.lt_of_covers {s : Span} (hs : s ∈ l) {x : Nat} (hx : s.Covers x) : x < n := by
  refine Decidable.byContradiction fun hn => ?_
  have := hits_pos_iff.mpr ⟨s, hs, hx⟩
  rw [h x, if_neg hn] at this
  exact absurd this (Nat.lt_irrefl 0)

theorem Tiles.end_le {s : Span} (hs : s ∈ l) (hl : 0 < s.len) : s.start + s.len ≤ n := by
  have := h.lt_of_covers hs (x := s.start + s.len - 1) ⟨by omega, by omega⟩
  omega

theorem Tiles.unique {m : Nat} (h' : Tiles m l) : m = n := by
  have hm := h m
  have hn := h' n
  rw [h' m, if_neg (Nat.lt_irrefl m)] at hm
  rw [h n, if_neg (Nat.lt_irrefl n)] at hn
  split at hm
  · cases hm
  · split at hn
    · cases hn
    · omega

end

/-! ## Chains -/

theorem chain_succ (len n : Nat) : chain len (n + 1) = chain len n ++ [⟨n * len, len⟩] := by
  simp [chain, List.range_succ]

theorem length_chain (len n : Nat) : (chain len n).length = n := by simp [chain]

theorem chainFrom_zero (len n : Nat) : chainFrom len n 0 = chain len n := by simp [chainFrom, chain]

theorem chainFrom_add (len m n first : Nat) :
    chainFrom len (m + n) first = chainFrom len m first ++ chainFrom len n (first + m) := by
  simp [chainFrom, List.range_add, Nat.add_assoc, Function.comp_def]

theorem take_chainFrom (len n first m : Nat) : (chainFrom len n first).take m = chainFrom len (min m n) first := by
  rw [chainFrom, ← List.map_take, List.take_range]
  rfl

theorem batched_eq_map (len depth : Nat) : ∀ n first,
    batched len depth n first = (List.range n).map fun t => chainFrom len depth (first + t * depth)
  | 0, _ => rfl
  | n + 1, first => by
    rw [batched, batched_eq_map len depth n, List.range_succ_eq_map, List.map_cons, List.map_map]
    simp only [Nat.zero_mul, Nat.add_zero]
    refine congrArg (_ :: ·) (List.map_congr_left fun t _ => ?_)
    simp only [Function.comp, Nat.succ_eq_add_one, Nat.add_mul, Nat.one_mul]
    congr 1; omega

theorem flatten_batched (len depth : Nat) :
    ∀ n first, (batched len depth n first).flatten = chainFrom len (n * depth) first
  | 0, first => by simp [batched, chainFrom]
  | n + 1, first => by
    rw [batched, List.flatten_cons, flatten_batched len depth n, Nat.add_mul, Nat.one_mul,
      Nat.add_comm (n * depth), chainFrom_add]

theorem tiles_chain (len n : Nat) : Tiles (n * len) (chain len n) := by
  induction n with
  | zero => intro x; simp [chain, hits]
  | succ n ih =>
    intro x
    have hone : hits [⟨n * len, len⟩] x = if n * len ≤ x ∧ x < n * len + len then 1 else 0 := by
      by_cases hc : n * len ≤ x ∧ x < n * len + len <;> simp [hits, Span.Covers, hc]
    rw [chain_succ, hits_append, ih x, hone, Nat.add_mul, Nat.one_mul]
    split <;> split <;> split <;> omega

theorem chain_covers_iff {len n x : Nat} : (∃ s ∈ chain len n, s.Covers x) ↔ x < n * len := by
  rw [← hits_pos_iff, tiles_chain len n x]
  split <;> simp_all

theorem chain_contiguous {len n k : Nat} {s t : Span} (hs : (chain len n)[k]? = some s)
    (ht : (chain len n)[k + 1]? = some t) : t.start = s.start + s.len := by
  simp only [chain, List.getElem?_map, Option.map_eq_some_iff, List.getElem?_eq_some_iff, List.getElem_range] at hs ht
  obtain ⟨_, ⟨_, rfl⟩, rfl⟩ := hs
  obtain ⟨_, ⟨_, rfl⟩, rfl⟩ := ht
  simp [Nat.add_mul]

theorem chain_pairwise (len n : Nat) : (chain len n).Pairwise Span.Disjoint := by
  unfold chain
  rw [List.pairwise_map]
  refine List.Pairwise.imp ?_ (List.pairwise_lt_range (n := n))
  intro a b hab
  left
  have := Nat.mul_le_mul_right len (show a + 1 ≤ b from hab)
  rw [Nat.add_mul, Nat.one_mul] at this
  exact this

end Lib

import IoTester.IoSpdkEvents
import IoTester.WrittenOnce
import IoTester.Lib.Owned

/-!
# Buffers, batches and the device

Every buffer belongs to one command in flight, of one thread, and is freed by
the completion of that command. A thread is in step with the batches of
`doSeqwrite`. All threads write `0xff` to the same sectors, so what the device
holds at the end does not depend on the order of anything.
-/

namespace IoTester.IoSpdk

open Lib

/-! ## What a step can do -/

/-- A call that does not fail returns the number of commands whose callbacks it has
run, as the header has it: the driver splits no command. -/
def Label.Counts : Label → Prop
  | .poll _ done num => 0 ≤ num → num = done.length
  | _ => True

/-- Neither the library nor the controller fails, and calls count commands. -/
def Label.Sound : Label → Prop
  | .start _ qpair => qpair = true
  | .submit _ buff rc => buff = true ∧ rc = 0
  | .execute _ _ ok => ok = true
  | .poll _ done num => num = done.length

theorem Label.Sound.counts {l : Label} (h : l.Sound) : l.Counts := by
  cases l with
  | poll t done num => exact fun _ => h
  | _ => trivial

/-- With or without an error, nothing is counted that was not completed. -/
theorem Label.Counts.le {t : Nat} {done : List Queued} {num : Int} (h : Label.Counts (.poll t done num)) :
    num ≤ done.length := by
  by_cases hnum : 0 ≤ num
  · exact Int.le_of_eq (h hnum)
  · omega

/-- The worker gets past its `assert` and its divisions. -/
def Params.Good (p : Params) : Prop := p.blockSize % 512 = 0 ∧ p.blockSize ≠ 0 ∧ UInt64.ofInt p.ioDepth ≠ 0

inductive Moves (p : Params) (s : State) : Label → State → Prop
  | crash (l : Label) (c : Crash) : c ≠ .badAccess → (p.Good → ¬ l.Sound) → Moves p s l (s.crashed c)
  | start (t : Nat) : (s.worker t).pc = .idle → Moves p s (.start t true) (s.goto t ((s.worker t).enter p))
  | submit (t : Nat) : (s.worker t).pc = .submit → Moves p s (.submit t true 0) (s.submitted p t)
  | execute (t : Nat) (q : Queued) (ok : Bool) (u : State) : q ∈ (s.worker t).sq → execute s t q ok = some u →
      Moves p s (.execute t q ok) u
  | overflow (t : Nat) (done : List Queued) (num : Int) (u : State) : (s.worker t).pc = .poll →
      completeAll t s done = some u → ¬ (-2 ^ 31 ≤ (s.worker t).c + num ∧ (s.worker t).c + num < 2 ^ 31) →
      Moves p s (.poll t done num) (u.crashed .overflow)
  | poll (t : Nat) (done : List Queued) (num : Int) (u : State) : (s.worker t).pc = .poll →
      completeAll t s done = some u → Moves p s (.poll t done num) (u.counted p t num)

theorem step_moves {p : Params} {s u : State} {l : Label} (h : step p s l = some u) :
    s.crash = none ∧ l.thread < p.numThread ∧ Moves p s l u := by
  unfold step at h
  split at h
  · cases h
  · rename_i hlive
    obtain ⟨hcrash, ht⟩ := not_or.mp hlive
    refine ⟨Decidable.not_not.mp hcrash, Nat.lt_of_not_le ht, ?_⟩
    split at h
    case h_1 t qpair hpc =>
      split at h
      · cases h; rename_i hmod
        exact .crash _ _ (by simp) fun hg => absurd hg.1 hmod
      · split at h
        · cases h; rename_i hzero
          refine .crash _ _ (by simp) fun hg => ?_
          rcases hzero with hz | hz
          · exact absurd hz hg.2.1
          · exact absurd hz hg.2.2
        · cases qpair with
          | true => cases h; exact .start t hpc
          | false => cases h; exact .crash _ _ (by simp) fun _ => by simp [Label.Sound]
    case h_2 t buff rc hpc =>
      split at h
      · cases h; rename_i hbuff
        exact .crash _ _ (by simp) fun _ => by simp [Label.Sound, hbuff]
      · rename_i hbuff
        split at h
        · cases h; rename_i hrc
          exact .crash _ _ (by simp) fun _ => by simp [Label.Sound, hrc]
        · rename_i hrc
          cases h
          rw [Bool.not_eq_false] at hbuff
          rw [hbuff, Decidable.not_not.mp hrc]
          exact .submit t hpc
    case h_3 t done num hpc =>
      obtain ⟨v, hv, rfl⟩ := Option.map_eq_some_iff.mp h
      by_cases hint : -2 ^ 31 ≤ (s.worker t).c + num ∧ (s.worker t).c + num < 2 ^ 31
      · rw [if_pos hint]
        exact .poll t done num v hpc hv
      · rw [if_neg hint]
        exact .overflow t done num v hpc hv hint
    case h_4 t q ok =>
      split at h
      · rename_i hq
        exact .execute t q ok u hq h
      · cases h
    case h_5 => cases h

/-! ## Buffers -/

def Worker.held (w : Worker) : List Queued := w.sq ++ w.cq

/-- The allocated buffers are those of the commands in flight, one for each,
and hold what `memset` put there. -/
structure Buffers (p : Params) (s : State) : Prop where
  owned : Owned Queued.buff (fun b => s.heap b ≠ none) (Worker.held ∘ s.worker)
  content : ∀ {b : Nat} {bytes : List UInt8}, s.heap b = some bytes → bytes = List.replicate p.blockSize.toNat 0xff
  fresh : ∀ b, s.buffs ≤ b → s.heap b = none
  safe : s.crash ≠ some .badAccess

theorem held_goto (s : State) (t : Nat) (w : Worker) :
    Worker.held ∘ (s.goto t w).worker = Function.update (Worker.held ∘ s.worker) t w.held :=
  Function.comp_update ..

@[simp] theorem held_enter (p : Params) (w : Worker) : (w.enter p).held = w.held := by
  unfold Worker.enter
  split <;> rfl

@[simp] theorem held_counted (p : Params) (w : Worker) (num : Int) : (w.counted p num).held = w.held := by
  unfold Worker.counted
  dsimp only
  split
  · exact held_enter ..
  · rfl

theorem span_len_le {p : Params} {k : UInt64} : (⟨k, p.nLba.toUInt32⟩ : Cmd).span.len ≤ p.blockSize.toNat := by
  simp only [Cmd.span, Params.nLba, UInt64.toNat_toUInt32, UInt64.toNat_div]
  show p.blockSize.toNat / 512 % 2 ^ 32 * 512 ≤ p.blockSize.toNat
  have := Nat.mod_le (p.blockSize.toNat / 512) (2 ^ 32)
  omega

theorem posted_perm {w : Worker} {q : Queued} (hq : q ∈ w.sq) : (w.sq.erase q ++ (w.cq ++ [q])).Perm w.held := by
  have hmove : (w.sq.erase q ++ (q :: w.cq)).Perm w.held :=
    List.perm_middle.trans ((List.perm_cons_erase hq).symm.append_right _)
  exact ((List.perm_append_singleton ..).append_left _).trans hmove

namespace Buffers

section
variable {p : Params} {s u : State} {t : Nat} (h : Buffers p s)
include h

theorem alloc {q : Queued} (hq : q ∈ (s.worker t).held) :
    s.heap q.buff = some (List.replicate p.blockSize.toNat 0xff) := by
  have hlive : s.heap q.buff ≠ none := h.owned.live_key (i := t) hq
  obtain ⟨bytes, hb⟩ := Option.ne_none_iff_exists'.mp hlive
  rw [hb, h.content hb]

theorem goto {w : Worker} (hw : w.held.Perm (s.worker t).held) : Buffers p (s.goto t w) := by
  refine ⟨?_, h.content, h.fresh, h.safe⟩
  rw [held_goto]
  exact h.owned.perm hw

theorem submitted : Buffers p (s.submitted p t) := by
  have hnew := h.fresh s.buffs (Nat.le_refl _)
  have htake := h.owned.take (i := t) (a := ⟨⟨(s.worker t).k, p.nLba.toUInt32⟩, s.buffs⟩)
    (l := ((s.worker t).sq ++ [_]) ++ (s.worker t).cq) (by simpa using hnew)
    (by
      rw [List.append_assoc]
      exact List.perm_middle)
  refine ⟨?_, fun {b bytes} hb => ?_, fun b hb => ?_, h.safe⟩
  · unfold State.submitted
    dsimp only
    rw [held_goto]
    refine htake.congr fun b => ?_
    by_cases hb : b = s.buffs <;> simp [State.goto, hb]
  · by_cases hbn : b = s.buffs
    · simpa [State.submitted, State.goto, hbn, eq_comm] using hb
    · exact h.content (by simpa [State.submitted, State.goto, hbn] using hb)
  · have hb : s.buffs + 1 ≤ b := hb
    have hne : b ≠ s.buffs := by omega
    simpa [State.submitted, State.goto, hne] using h.fresh b (by omega)

/-- The controller finds every buffer that it reads. -/
theorem executed {q : Queued} {ok : Bool} (hq : q ∈ (s.worker t).sq)
    (hlen : q.cmd.span.len ≤ p.blockSize.toNat) (hs : execute s t q ok = some u) :
    u = s.posted t q ∧ ok = false ∨ ok = true ∧ q.cmd.span.start + q.cmd.span.len ≤ s.device.length ∧
      u = { s.posted t q with device := fill 0 0xff s.device q.cmd.span, written := s.written ++ [q.cmd] } := by
  have hheap := h.alloc (t := t) (List.mem_append_left _ hq)
  unfold execute at hs
  rw [hheap] at hs
  dsimp only at hs
  rw [List.length_replicate, if_neg (Nat.not_lt.mpr hlen)] at hs
  cases ok with
  | false =>
    cases hs
    exact .inl ⟨rfl, rfl⟩
  | true =>
    rw [if_neg (by decide)] at hs
    split at hs
    · rename_i hin
      rw [readAt_replicate 0xff (by omega)] at hs
      cases hs
      exact .inr ⟨rfl, hin, rfl⟩
    · cases hs

theorem completed {q : Queued} (hs : complete t s q = some u) :
    Buffers p u ∧ (s.worker t).held.Perm (q :: (u.worker t).held) ∧
      ∃ cq, u = { s.goto t { s.worker t with cq := cq } with heap := u.heap } := by
  unfold complete at hs
  split at hs
  · rename_i hq
    have hin : q ∈ (s.worker t).held := List.mem_append_right _ hq
    have hheap := h.alloc hin
    cases hs
    have hperm : (s.worker t).held.Perm (q :: ((s.worker t).sq ++ (s.worker t).cq.erase q)) :=
      ((List.perm_cons_erase hq).append_left _).trans List.perm_middle
    refine ⟨⟨?_, fun {b bytes} hb => ?_, fun b hb => ?_, ?_⟩, ?_, ?_⟩
    · dsimp only
      rw [held_goto]
      refine (h.owned.give hperm).congr fun b => ?_
      by_cases hb : b = q.buff <;> simp [hb]
    · by_cases hbq : b = q.buff
      · simp [hbq] at hb
      · exact h.content (by simpa [hbq] using hb)
    · by_cases hbq : b = q.buff
      · simp [hbq]
      · simpa [hbq] using h.fresh b hb
    · simpa [hheap] using h.safe
    · simp only [State.goto, Function.update_self]
      exact hperm
    · exact ⟨(s.worker t).cq.erase q, by simp [hheap, State.goto]⟩
  · cases hs

end

theorem completedAll {p : Params} {t : Nat} : ∀ {done : List Queued} {s u : State}, Buffers p s →
    completeAll t s done = some u →
    Buffers p u ∧ (s.worker t).held.Perm (done ++ (u.worker t).held) ∧
      ∃ cq, u = { s.goto t { s.worker t with cq := cq } with heap := u.heap }
  | [], s, u, h, hs => by
    cases hs
    exact ⟨h, by simp, (s.worker t).cq, by simp [State.goto]⟩
  | q :: done, s, u, h, hs => by
    obtain ⟨v, hv, hu⟩ := Option.bind_eq_some_iff.mp hs
    obtain ⟨hbuf, hperm, cq, hframe⟩ := h.completed hv
    obtain ⟨hbuf', hperm', cq', hframe'⟩ := completedAll hbuf hu
    refine ⟨hbuf', hperm.trans (hperm'.cons q), cq', ?_⟩
    rw [hframe', hframe]
    simp [State.goto]

end Buffers

/-! ## Loops -/

theorem waits_snoc {d x : Int} : ∀ {l : List Int} {c : Int}, waits d l c = false →
    waits d (l ++ [x]) c = decide (c + l.sum + x = d)
  | [], c, _ => by
    by_cases hx : c + x = d <;> simp [waits, hx]
  | y :: l, c, h => by
    unfold waits at h
    split at h
    · cases h
    · rename_i hne
      rw [List.cons_append, waits, if_neg hne, waits_snoc h, List.sum_cons, Int.add_assoc c y]

theorem sectors_snoc (n : UInt64) (d : Nat) :
    sectors n (d + 1) 0 = sectors n d 0 ++ [⟨UInt64.ofNat (d * n.toNat), n.toUInt32⟩] := by
  simp [sectors, List.range_succ]

def Params.depth (p : Params) : Nat := p.ioDepth.toNat

/-- Where the loops of a thread stand: `j` commands of batch `i` are sent. -/
def Worker.At (p : Params) (w : Worker) : Pc → Prop
  | .idle => w.i = 0 ∧ w.j = 0 ∧ w.polled w.i = []
  | .submit => w.i < p.count ∧ w.j < p.depth ∧ w.c = 0 ∧ w.polled w.i = []
  | .poll => w.i < p.count ∧ w.j = p.depth ∧ waits p.ioDepth (w.polled w.i) 0 = false ∧ (w.polled w.i).sum = w.c
  | .returned => w.i = p.count ∧ w.j = 0

structure Loop (p : Params) (w : Worker) : Prop where
  sent : w.sent = sectors p.nLba (w.i * p.depth + w.j) 0
  k : w.k = UInt64.ofNat ((w.i * p.depth + w.j) * p.nLba.toNat)
  shape : ∀ q ∈ w.held, q.cmd.lbaCount = p.nLba.toUInt32
  waited : ∀ b < w.i, waits p.ioDepth (w.polled b) 0 = true
  later : ∀ b, w.i < b → w.polled b = []
  place : w.At p w.pc

theorem Loop.start (p : Params) : Loop p {} := by
  refine ⟨?_, ?_, ?_, ?_, fun _ _ => rfl, rfl, rfl, rfl⟩ <;> simp [sectors, Worker.held]

section
variable {p : Params} {w : Worker} (hdepth : 1 ≤ p.ioDepth)
include hdepth

theorem Loop.enter (hi : w.i ≤ p.count) (hsent : w.sent = sectors p.nLba (w.i * p.depth) 0)
    (hk : w.k = UInt64.ofNat (w.i * p.depth * p.nLba.toNat))
    (hshape : ∀ q ∈ w.held, q.cmd.lbaCount = p.nLba.toUInt32)
    (hwaited : ∀ b < w.i, waits p.ioDepth (w.polled b) 0 = true) (hlater : ∀ b, w.i ≤ b → w.polled b = []) :
    Loop p (w.enter p) := by
  have hpos : 0 < p.depth := by unfold Params.depth; omega
  unfold Worker.enter
  by_cases hlt : w.i < p.count
  · rw [if_pos hlt, if_pos (by omega)]
    exact ⟨hsent, hk, hshape, hwaited, fun b hb => hlater b (Nat.le_of_lt hb), hlt, hpos, rfl,
      hlater w.i (Nat.le_refl _)⟩
  · rw [if_neg hlt]
    exact ⟨hsent, hk, hshape, hwaited, fun b hb => hlater b (Nat.le_of_lt hb),
      Nat.le_antisymm hi (Nat.le_of_not_lt hlt), rfl⟩

theorem Loop.begin (h : Loop p w) (hpc : w.pc = .idle) : Loop p (w.enter p) := by
  obtain ⟨hi, hj, hpolled⟩ := (hpc ▸ h.place : w.At p .idle)
  have hsent := h.sent
  have hk := h.k
  rw [hj, Nat.add_zero] at hsent hk
  refine Loop.enter hdepth (by omega) hsent hk h.shape h.waited fun b hb => ?_
  rcases Nat.eq_or_lt_of_le hb with rfl | hlt
  · exact hpolled
  · exact h.later b hlt

/-- Whatever a call returns goes into the count and into the record of the batch. -/
theorem Loop.counted (h : Loop p w) (hpc : w.pc = .poll) (num : Int) : Loop p (w.counted p num) := by
  obtain ⟨hi, hj, hwait, hsum⟩ := (hpc ▸ h.place : w.At p .poll)
  have hwait' := waits_snoc (x := num) hwait
  rw [hsum, Int.zero_add] at hwait'
  have hother : ∀ b, b ≠ w.i → Function.update w.polled w.i (w.polled w.i ++ [num]) b = w.polled b :=
    fun b hb => Function.update_of_ne hb ..
  unfold Worker.counted
  dsimp only
  by_cases hlast : w.c + num = p.ioDepth
  · have hnext : (w.i + 1) * p.depth = w.i * p.depth + w.j := by rw [Nat.add_mul, Nat.one_mul, hj]
    rw [if_pos hlast]
    refine Loop.enter hdepth hi ?_ ?_ h.shape (fun b hb => ?_) fun b hb => ?_
    · rw [hnext]
      exact h.sent
    · rw [hnext]
      exact h.k
    · rcases Nat.eq_or_lt_of_le (Nat.le_of_lt_succ hb) with rfl | hlt
      · simpa [hlast] using hwait'
      · dsimp only
        rw [hother b (Nat.ne_of_lt hlt)]
        exact h.waited b hlt
    · dsimp only
      rw [hother b (Nat.ne_of_gt hb)]
      exact h.later b hb
  · rw [if_neg hlast]
    refine ⟨h.sent, h.k, h.shape, fun b hb => ?_, fun b hb => ?_, ?_⟩
    · dsimp only
      rw [hother b (Nat.ne_of_lt hb)]
      exact h.waited b hb
    · dsimp only
      rw [hother b (Nat.ne_of_gt hb)]
      exact h.later b hb
    · dsimp only
      rw [hpc]
      refine ⟨hi, hj, ?_, ?_⟩
      · simpa [hlast] using hwait'
      · simp [hsum]

omit hdepth in
theorem Loop.sent_one (h : Loop p w) (hpc : w.pc = .submit) (b : Nat) : Loop p
    { w with
      pc := if (w.j + 1 : Nat) < p.ioDepth then .submit else .poll
      j := w.j + 1
      k := w.k + p.nLba
      sq := w.sq ++ [⟨⟨w.k, p.nLba.toUInt32⟩, b⟩]
      sent := w.sent ++ [⟨w.k, p.nLba.toUInt32⟩] } := by
  obtain ⟨hi, hj, hc, hpolled⟩ := (hpc ▸ h.place : w.At p .submit)
  refine ⟨?_, ?_, fun q hq => ?_, h.waited, h.later, ?_⟩
  · dsimp only
    rw [← Nat.add_assoc, sectors_snoc, h.sent, h.k]
  · dsimp only
    rw [h.k, ← Nat.add_assoc, Nat.add_mul (w.i * p.depth + w.j), Nat.one_mul, UInt64.ofNat_add, UInt64.ofNat_toNat]
  · simp only [Worker.held, List.append_assoc, List.cons_append, List.nil_append, List.mem_append, List.mem_cons] at hq
    rcases hq with hq | rfl | hq
    · exact h.shape q (List.mem_append_left _ hq)
    · rfl
    · exact h.shape q (List.mem_append_right _ hq)
  · unfold Params.depth at hj
    dsimp only
    by_cases hmore : (w.j + 1 : Nat) < p.ioDepth
    · rw [if_pos hmore]
      exact ⟨hi, by unfold Params.depth; dsimp only; omega, hc, hpolled⟩
    · rw [if_neg hmore]
      refine ⟨hi, ?_, ?_, ?_⟩
      · unfold Params.depth
        dsimp only
        omega
      · simp [hpolled, waits]
      · simp [hpolled, hc]

omit hdepth in
/-- The loops do not look at the queues. -/
theorem Loop.moved (h : Loop p w) {sq cq : List Queued} (hsub : sq ++ cq ⊆ w.held) :
    Loop p { w with sq := sq, cq := cq } := by
  refine ⟨h.sent, h.k, fun q hq => h.shape q (hsub hq), h.waited, h.later, ?_⟩
  have hsame : ∀ pc, w.At p pc → Worker.At p { w with sq := sq, cq := cq } pc := by
    intro pc hpc
    cases pc <;> exact hpc
  exact hsame w.pc h.place

end

/-! ## Runs -/

/-- Whatever the calls return. -/
structure Inv (p : Params) (s : State) : Prop where
  buffers : Buffers p s
  loops : ∀ t, Loop p (s.worker t)
  unused : ∀ t, p.numThread ≤ t → (s.worker t).pc = .idle

theorem inv_init (p : Params) (device : List UInt8) : Inv p (init device) := by
  refine ⟨⟨⟨fun b => ?_, fun {i j a b} ha => ?_, fun t => ?_⟩, fun hb => ?_, fun _ _ => rfl, ?_⟩, fun t => ?_,
    fun _ _ => rfl⟩
  · simp [init, Worker.held]
  · simp [init, Worker.held] at ha
  · simp [init, Worker.held]
  · simp [init] at hb
  · simp [init]
  · exact Loop.start p

theorem forall_goto {s : State} {t : Nat} {w : Worker} {P : Nat → Worker → Prop} (hw : P t w)
    (h : ∀ u, P u (s.worker u)) : ∀ u, P u ((s.goto t w).worker u) := by
  intro u
  by_cases hu : u = t
  · subst hu
    simpa [State.goto] using hw
  · simpa [State.goto, hu] using h u

section
variable {p : Params} {s u : State} {l : Label}

theorem Inv.span_le {t : Nat} {q : Queued} (h : Inv p s) (hq : q ∈ (s.worker t).sq) :
    q.cmd.span.len ≤ p.blockSize.toNat := by
  have hlen := @span_len_le p q.cmd.lba
  rwa [← (h.loops t).shape q (List.mem_append_left _ hq)] at hlen

theorem Inv.goto {t : Nat} {w : Worker} (h : Inv p s) (ht : t < p.numThread) (hheld : w.held.Perm (s.worker t).held)
    (hloop : Loop p w) : Inv p (s.goto t w) := by
  refine ⟨h.buffers.goto hheld, forall_goto (P := fun _ w => Loop p w) hloop h.loops, ?_⟩
  exact forall_goto (P := fun v w => p.numThread ≤ v → w.pc = .idle) (fun hv => by omega) h.unused

/-- After the callbacks of a call, and before it is counted. -/
theorem Inv.completed {t : Nat} {done : List Queued} (h : Inv p s) (ht : t < p.numThread)
    (hs : completeAll t s done = some u) : Inv p u ∧ (u.worker t).pc = (s.worker t).pc := by
  obtain ⟨hbuf, hperm, cq, hframe⟩ := h.buffers.completedAll hs
  have hworker : u.worker = Function.update s.worker t { s.worker t with cq := cq } := by
    rw [hframe]
    rfl
  have hsame : (u.worker t) = { s.worker t with cq := cq } := by rw [hworker, Function.update_self]
  have hloop : Loop p { s.worker t with cq := cq } := by
    refine (h.loops t).moved fun q hq => hperm.symm.subset (List.mem_append_right _ ?_)
    rw [hsame]
    exact hq
  refine ⟨⟨hbuf, ?_, ?_⟩, by rw [hsame]⟩
  · rw [hworker]
    exact forall_goto (P := fun _ w => Loop p w) hloop h.loops
  · rw [hworker]
    exact forall_goto (P := fun v w => p.numThread ≤ v → w.pc = .idle) (fun hv => by omega) h.unused

theorem Inv.crashed (h : Inv p s) {c : Crash} (hc : c ≠ .badAccess) : Inv p (s.crashed c) :=
  ⟨{ h.buffers with safe := by simpa [State.crashed] using hc }, h.loops, h.unused⟩

theorem Inv.counted {t : Nat} (hdepth : 1 ≤ p.ioDepth) (h : Inv p s) (ht : t < p.numThread)
    (hpc : (s.worker t).pc = .poll) (num : Int) : Inv p (s.counted p t num) :=
  h.goto ht (by rw [held_counted]) ((h.loops t).counted hdepth hpc num)

theorem Inv.step (hdepth : 1 ≤ p.ioDepth) (hs : step p s l = some u) (h : Inv p s) : Inv p u := by
  obtain ⟨-, ht, hmove⟩ := step_moves hs
  cases hmove with
  | crash l c hc _ => exact h.crashed hc
  | start t hpc => exact h.goto ht (by rw [held_enter]) ((h.loops t).begin hdepth hpc)
  | submit t hpc =>
    have hloop := (h.loops t).sent_one hpc s.buffs
    refine ⟨h.buffers.submitted, forall_goto (P := fun _ w => Loop p w) hloop h.loops, ?_⟩
    exact forall_goto (P := fun v w => p.numThread ≤ v → w.pc = .idle)
      (fun hv => absurd ht (Nat.not_lt.mpr hv)) h.unused
  | execute t q ok u hq he =>
    have hposted : Inv p (s.posted t q) := h.goto ht (posted_perm hq) ((h.loops t).moved (posted_perm hq).subset)
    rcases h.buffers.executed hq (h.span_le hq) he with ⟨rfl, _⟩ | ⟨_, _, rfl⟩
    · exact hposted
    · exact ⟨{ hposted.buffers with }, hposted.loops, hposted.unused⟩
  | overflow t done num v hpc hv _ => exact (h.completed ht hv).1.crashed (by simp)
  | poll t done num v hpc hv =>
    obtain ⟨hinv, hpc'⟩ := h.completed ht hv
    exact hinv.counted hdepth ht (hpc'.trans hpc) num

theorem Inv.reach (hdepth : 1 ≤ p.ioDepth) {ok : Label → Prop} {device : List UInt8}
    (h : Reach (IoSpdk.step p) ok (init device) s) : Inv p s :=
  h.invariant (inv_init p device) fun _ hs hi => hi.step hdepth hs

end

/-! ## Calls that count commands -/

/-- None is completed before the last one of a batch is sent; of those not yet
counted some may be missing, after an error. -/
def Worker.Tallies (p : Params) (w : Worker) : Pc → Prop
  | .idle | .returned => w.held = []
  | .submit => w.held.length = w.j
  | .poll => w.c + w.held.length ≤ p.ioDepth

def Tally (p : Params) (w : Worker) : Prop := w.Tallies p w.pc

theorem Tally.enter {p : Params} {w : Worker} (hdepth : 1 ≤ p.ioDepth) (h : w.held = []) : Tally p (w.enter p) := by
  unfold Tally
  unfold Worker.enter
  by_cases hlt : w.i < p.count
  · rw [if_pos hlt, if_pos (by omega)]
    exact congrArg List.length h
  · rw [if_neg hlt]
    exact h

theorem Tally.counted {p : Params} {w : Worker} (hdepth : 1 ≤ p.ioDepth) (hpc : w.pc = .poll) {num : Int}
    (h : w.c + num + w.held.length ≤ p.ioDepth) : Tally p (w.counted p num) := by
  unfold Worker.counted
  dsimp only
  by_cases hlast : w.c + num = p.ioDepth
  · -- nothing is in flight: every command of the batch is counted
    rw [if_pos hlast]
    exact Tally.enter hdepth (List.length_eq_zero_iff.mp (by simp only [Worker.held] at h ⊢; omega))
  · rw [if_neg hlast]
    unfold Tally
    rw [hpc]
    exact h

theorem Tally.moved {p : Params} {w : Worker} (h : Tally p w) {sq cq : List Queued} (hperm : (sq ++ cq).Perm w.held) :
    Tally p { w with sq := sq, cq := cq } := by
  unfold Tally at h ⊢
  have hnil : w.held = [] → sq ++ cq = [] := fun e => List.perm_nil.mp (e ▸ hperm)
  have hlen : (sq ++ cq).length = w.held.length := hperm.length_eq
  dsimp only
  cases hpc : w.pc with
  | idle =>
    rw [hpc] at h
    exact hnil h
  | submit =>
    rw [hpc] at h
    exact hlen.trans h
  | poll =>
    rw [hpc] at h
    show w.c + (sq ++ cq).length ≤ p.ioDepth
    rw [hlen]
    exact h
  | returned =>
    rw [hpc] at h
    exact hnil h

theorem Tally.sent_one {p : Params} {w : Worker} (hloop : Loop p w) (h : Tally p w) (hpc : w.pc = .submit) (q : Queued)
    (k : UInt64) (sent : List Cmd) : Tally p
    { w with
      pc := if (w.j + 1 : Nat) < p.ioDepth then .submit else .poll
      j := w.j + 1
      k := k
      sq := w.sq ++ [q]
      sent := sent } := by
  obtain ⟨-, hj, hc, -⟩ := (hpc ▸ hloop.place : w.At p .submit)
  have hheld : w.held.length = w.j := by
    unfold Tally at h
    rw [hpc] at h
    exact h
  have hlen : (w.sq ++ [q] ++ w.cq).length = w.j + 1 := by
    rw [← hheld]
    simp [Worker.held]
    omega
  unfold Params.depth at hj
  unfold Tally
  dsimp only
  by_cases hmore : (w.j + 1 : Nat) < p.ioDepth
  · rw [if_pos hmore]
    exact hlen
  · rw [if_neg hmore]
    show w.c + ((w.sq ++ [q] ++ w.cq).length : Int) ≤ p.ioDepth
    rw [hlen, hc]
    omega

theorem Tally.le {p : Params} {w : Worker} (h : Tally p w) (hpc : w.pc = .poll) :
    w.c + w.held.length ≤ p.ioDepth := by
  unfold Tally at h
  rw [hpc] at h
  exact h

/-- After the callbacks of a call, and before it is counted. -/
theorem Tally.completed {p : Params} {w : Worker} (h : Tally p w) (hpc : w.pc = .poll) {cq done : List Queued}
    (hperm : w.held.Perm (done ++ (w.sq ++ cq))) : Tally p { w with cq := cq } := by
  have hle := h.le hpc
  have hlen := hperm.length_eq
  rw [List.length_append] at hlen
  unfold Tally
  dsimp only
  rw [hpc]
  show w.c + ((w.sq ++ cq).length : Int) ≤ p.ioDepth
  omega

/-- The completions of a call are counted when it returns. -/
theorem Tally.polled {p : Params} {w : Worker} (hdepth : 1 ≤ p.ioDepth) (h : Tally p w) (hpc : w.pc = .poll)
    {cq done : List Queued} (hperm : w.held.Perm (done ++ (w.sq ++ cq))) {num : Int} (hnum : num ≤ done.length) :
    Tally p (Worker.counted p { w with cq := cq } num) := by
  have hle := h.le hpc
  have hlen := hperm.length_eq
  rw [List.length_append] at hlen
  refine Tally.counted (w := { w with cq := cq }) hdepth hpc ?_
  simp only [Worker.held] at hlen hle ⊢
  omega

/-- Calls that count commands keep the tally of every thread. -/
structure Tallied (p : Params) (s : State) : Prop where
  inv : Inv p s
  tally : ∀ t, Tally p (s.worker t)

section
variable {p : Params} {s u : State} {l : Label}

theorem completedAll_worker (hinv : Inv p s) {t : Nat} {done : List Queued} (hs : completeAll t s done = some u) :
    ∃ cq, u.worker = Function.update s.worker t { s.worker t with cq := cq } ∧
      (s.worker t).held.Perm (done ++ ((s.worker t).sq ++ cq)) := by
  obtain ⟨-, hperm, cq, hframe⟩ := hinv.buffers.completedAll hs
  have hworker : u.worker = Function.update s.worker t { s.worker t with cq := cq } := by
    rw [hframe]
    rfl
  rw [hworker, Function.update_self] at hperm
  exact ⟨cq, hworker, hperm⟩

theorem worker_counted {t : Nat} {w : Worker} (hworker : u.worker = Function.update s.worker t w) (num : Int) :
    (u.counted p t num).worker = Function.update s.worker t (w.counted p num) := by
  simp only [State.counted, State.goto, hworker, Function.update_self, Function.update_idem]

theorem Tallied.step (hdepth : 1 ≤ p.ioDepth) (hl : l.Counts) (hs : IoSpdk.step p s l = some u) (h : Tallied p s) :
    Tallied p u := by
  refine ⟨h.inv.step hdepth hs, ?_⟩
  obtain ⟨-, ht, hmove⟩ := step_moves hs
  cases hmove with
  | crash l c hc _ => exact h.tally
  | start t hpc =>
    have hheld : (s.worker t).held = [] := (hpc ▸ h.tally t : (s.worker t).Tallies p .idle)
    exact forall_goto (P := fun _ w => Tally p w) (.enter hdepth hheld) h.tally
  | submit t hpc =>
    exact forall_goto (P := fun _ w => Tally p w) (.sent_one (h.inv.loops t) (h.tally t) hpc _ _ _) h.tally
  | execute t q ok u hq he =>
    have hposted : ∀ v, Tally p ((s.posted t q).worker v) :=
      forall_goto (P := fun _ w => Tally p w) ((h.tally t).moved (posted_perm hq)) h.tally
    rcases h.inv.buffers.executed hq (h.inv.span_le hq) he with ⟨rfl, _⟩ | ⟨_, _, rfl⟩
    · exact hposted
    · exact hposted
  | overflow t done num v hpc hv _ =>
    obtain ⟨cq, hworker, hperm⟩ := completedAll_worker h.inv hv
    show ∀ w, Tally p (v.worker w)
    rw [hworker]
    exact forall_goto (P := fun _ w => Tally p w) ((h.tally t).completed hpc hperm) h.tally
  | poll t done num v hpc hv =>
    obtain ⟨cq, hworker, hperm⟩ := completedAll_worker h.inv hv
    rw [worker_counted hworker]
    exact forall_goto (P := fun _ w => Tally p w) ((h.tally t).polled hdepth hpc hperm hl.le) h.tally

theorem Tallied.reach (hdepth : 1 ≤ p.ioDepth) {ok : Label → Prop} (hok : ∀ l, ok l → l.Counts) {device : List UInt8}
    (h : Reach (IoSpdk.step p) ok (init device) s) : Tallied p s :=
  h.invariant ⟨inv_init p device, fun _ => rfl⟩ fun hl hs hi => hi.step hdepth (hok _ hl) hs

theorem Tallied.held_eq_nil (h : Tallied p s) {t : Nat} (hpc : (s.worker t).pc = .returned ∨ (s.worker t).pc = .idle) :
    (s.worker t).held = [] := by
  have htally := h.tally t
  unfold Tally at htally
  rcases hpc with hpc | hpc
  · rw [hpc] at htally
    exact htally
  · rw [hpc] at htally
    exact htally

end

/-- **Each buffer is freed once, and not while it is in use.** Whatever the
controller does and whatever fails, as long as a call returns the number of the
commands it completes: a command in flight has its buffer, and the buffer holds
what was written to it; an allocated buffer belongs to one command; no memory is
touched after it is freed; and when the threads have returned, none is left. -/
theorem buffers_freed_once (p : Params) (hdepth : 1 ≤ p.ioDepth) (device : List UInt8) {s : State}
    (h : Reach (step p) Label.Counts (init device) s) :
    s.crash ≠ some .badAccess ∧
      (∀ t, ∀ q ∈ (s.worker t).held, s.heap q.buff = some (List.replicate p.blockSize.toNat 0xff)) ∧
      (∀ b, s.heap b ≠ none → ∃! e : Nat × Queued, e.2 ∈ (s.worker e.1).held ∧ e.2.buff = b) ∧
      ((∀ t < p.numThread, (s.worker t).pc = .returned) → ∀ b, s.heap b = none) := by
  have htally := Tallied.reach hdepth (fun _ hl => hl) h
  have hinv := htally.inv
  refine ⟨hinv.buffers.safe, fun t q hq => hinv.buffers.alloc hq, fun b hb => ?_, fun hret b => ?_⟩
  · obtain ⟨t, q, hq, rfl⟩ := (hinv.buffers.owned.live_iff b).mp hb
    refine ⟨(t, q), ⟨hq, rfl⟩, ?_⟩
    rintro ⟨t', q'⟩ ⟨hq', hbuff⟩
    obtain ⟨rfl, rfl⟩ := hinv.buffers.owned.inj hq' hq hbuff
    rfl
  · by_contra hb
    obtain ⟨t, q, hq, -⟩ := (hinv.buffers.owned.live_iff b).mp hb
    have hnil : (s.worker t).held = [] := by
      refine htally.held_eq_nil ?_
      by_cases ht : t < p.numThread
      · exact .inl (hret t ht)
      · exact .inr (hinv.unused t (Nat.le_of_not_lt ht))
    simp only [Function.comp, hnil] at hq
    cases hq

/-- Two threads; the second command of each is executed first. -/
def twoThreads : List Label :=
  [.start 0 true, .start 1 true, .submit 0 true 0, .submit 1 true 0, .submit 0 true 0, .submit 1 true 0,
    .execute 1 ⟨⟨1, 1⟩, 3⟩ true, .execute 0 ⟨⟨1, 1⟩, 2⟩ true, .execute 0 ⟨⟨0, 1⟩, 0⟩ true,
    .poll 0 [⟨⟨1, 1⟩, 2⟩, ⟨⟨0, 1⟩, 0⟩] 2, .poll 1 [⟨⟨1, 1⟩, 3⟩] 1, .execute 1 ⟨⟨0, 1⟩, 1⟩ true,
    .poll 1 [] 0, .poll 1 [⟨⟨0, 1⟩, 1⟩] 1]

theorem buffers_freed_once_two_threads : ∃ s,
    Reach (step ⟨2, 512, 1024, 2⟩) Label.Counts (init (List.replicate 2048 0)) s ∧ ∀ b, s.heap b = none := by
  obtain ⟨s, hrun, hs⟩ : ∃ s, Reach (step ⟨2, 512, 1024, 2⟩) Label.Counts (init (List.replicate 2048 0)) s ∧
      decide ((s.worker 0).pc = .returned ∧ (s.worker 1).pc = .returned) = true :=
    Reach.of_check twoThreads (by simp [twoThreads, Label.Counts]) (by decide +kernel)
  obtain ⟨h0, h1⟩ := of_decide_eq_true hs
  refine ⟨s, hrun, (buffers_freed_once _ (by decide) _ hrun).2.2.2 fun t (ht : t < 2) => ?_⟩
  obtain rfl | rfl : t = 0 ∨ t = 1 := by omega
  · exact h0
  · exact h1

/-! ## Refinement -/

section
variable {ioDepth : Int} {n : UInt64} {dev : Device} (hsends : ∀ i j, dev.sends i j = some 0)
include hsends

theorem submitLoop_returned : ∀ (m i first : Nat), (∀ b < m, waits ioDepth (dev.polls (i + b)) 0 = true) →
    (submitLoop ioDepth n dev m i (UInt64.ofNat (first * n.toNat))).exit = .returned ∧
      (submitLoop ioDepth n dev m i (UInt64.ofNat (first * n.toNat))).batches.flatten =
        sectors n (m * ioDepth.toNat) first
  | 0, _, _, _ => by simp [submitLoop, sectors]
  | m + 1, i, first, h => by
    have hw : waits ioDepth (dev.polls i) 0 = true := h 0 (Nat.succ_pos m)
    have ih := submitLoop_returned m (i + 1) (first + ioDepth.toNat) fun b hb => by
      rw [Nat.add_right_comm]
      exact h (b + 1) (by omega)
    unfold submitLoop
    simp only [sendBatch_eq (hsends i), hw, if_true]
    refine ⟨ih.1, ?_⟩
    rw [List.flatten_cons, ih.2, ← sectors_add, Nat.add_mul, Nat.one_mul, Nat.add_comm (m * _)]

theorem submitLoop_polling : ∀ (m i first k : Nat), k < m → (∀ b < k, waits ioDepth (dev.polls (i + b)) 0 = true) →
    waits ioDepth (dev.polls (i + k)) 0 = false →
    (submitLoop ioDepth n dev m i (UInt64.ofNat (first * n.toNat))).exit = .polling ∧
      (submitLoop ioDepth n dev m i (UInt64.ofNat (first * n.toNat))).batches.flatten =
        sectors n (k * ioDepth.toNat + ioDepth.toNat) first
  | m + 1, i, first, 0, _, _, hk => by
    have hw : waits ioDepth (dev.polls i) 0 = false := hk
    unfold submitLoop
    simp only [sendBatch_eq (hsends i), hw]
    simp
  | m + 1, i, first, k + 1, hlt, h, hk => by
    have hw : waits ioDepth (dev.polls i) 0 = true := h 0 (Nat.succ_pos k)
    have ih := submitLoop_polling m (i + 1) (first + ioDepth.toNat) k (by omega) (fun b hb => by
      rw [Nat.add_right_comm]
      exact h (b + 1) (by omega)) (by rwa [Nat.add_right_comm])
    unfold submitLoop
    simp only [sendBatch_eq (hsends i), hw, if_true]
    refine ⟨ih.1, ?_⟩
    rw [List.flatten_cons, ih.2, ← sectors_add, Nat.add_mul, Nat.one_mul]
    congr 1
    omega

end

/-- **Refinement.** In every run of all threads, whatever the calls return, a thread
that has returned has sent the commands that `doSeqwrite` sends when its polls
return what they did return, and one that is polling has sent those of a run that
ends polling. -/
theorem refines_doSeqwrite (p : Params) (hdepth : 1 ≤ p.ioDepth) (hgood : p.Good) (device : List UInt8) {s : State}
    (h : Reach (step p) (fun _ => True) (init device) s) (t : Nat) :
    let run := doSeqwrite p.ioDepth p.blockSize p.totalSize ⟨fun _ _ => some 0, (s.worker t).polled⟩
    ((s.worker t).pc = .returned → run.exit = .returned ∧ run.batches.flatten = (s.worker t).sent) ∧
      ((s.worker t).pc = .poll → run.exit = .polling ∧ run.batches.flatten = (s.worker t).sent) := by
  have hloop := (Inv.reach hdepth h).loops t
  have hplace := hloop.place
  have hrun : doSeqwrite p.ioDepth p.blockSize p.totalSize ⟨fun _ _ => some 0, (s.worker t).polled⟩ =
      submitLoop p.ioDepth p.nLba ⟨fun _ _ => some 0, (s.worker t).polled⟩ p.count 0
        (UInt64.ofNat (0 * p.nLba.toNat)) := by
    unfold doSeqwrite
    rw [if_neg (by simpa using hgood.1), if_neg (by simpa using hgood.2), Nat.zero_mul]
    rfl
  dsimp only
  rw [hrun]
  refine ⟨fun hpc => ?_, fun hpc => ?_⟩
  · rw [hpc] at hplace
    obtain ⟨hi, hj⟩ := hplace
    have hwaited := hloop.waited
    rw [hloop.sent, hj, Nat.add_zero, hi]
    refine submitLoop_returned (fun _ _ => rfl) p.count 0 0 fun b hb => ?_
    rw [Nat.zero_add]
    exact hwaited b (by omega)
  · rw [hpc] at hplace
    obtain ⟨hi, hj, hwait, -⟩ := hplace
    rw [hloop.sent, hj]
    refine submitLoop_polling (fun _ _ => rfl) p.count 0 0 (s.worker t).i hi (fun b hb => ?_) ?_
    · rw [Nat.zero_add]
      exact hloop.waited b hb
    · rw [Nat.zero_add]
      exact hwait

theorem refines_doSeqwrite_two_threads : ∃ s,
    Reach (step ⟨2, 512, 1024, 2⟩) (fun _ => True) (init (List.replicate 2048 0)) s ∧
      (doSeqwrite 2 512 1024 ⟨fun _ _ => some 0, (s.worker 0).polled⟩).batches.flatten = (s.worker 0).sent ∧
      (s.worker 0).sent = [⟨0, 1⟩, ⟨1, 1⟩] := by
  obtain ⟨s, hrun, hs⟩ : ∃ s, Reach (step ⟨2, 512, 1024, 2⟩) (fun _ => True) (init (List.replicate 2048 0)) s ∧
      decide ((s.worker 0).pc = .returned ∧ (s.worker 0).sent = [⟨0, 1⟩, ⟨1, 1⟩]) = true :=
    Reach.of_check twoThreads (fun _ _ => trivial) (by decide +kernel)
  obtain ⟨hpc, hsent⟩ := of_decide_eq_true hs
  exact ⟨s, hrun, ((refines_doSeqwrite _ (by decide) ⟨by decide, by decide⟩ _ hrun 0).1 hpc).2, hsent⟩

end IoTester.IoSpdk

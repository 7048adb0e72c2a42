import IoTester.TailSpdk
import IoTester.Lib.Indexed

/-!
# Rounds of the SPDK tail latency tester

The wait loop compares one counter with `io_depth`. What it needs to be right
is an account of the round: which commands were sent, which of them are in
flight, and what has happened to the slot and the buffer of each.
-/

namespace IoTester.TailSpdk

/-! ## What a step can do -/

def Phase.Sending : Phase → Prop
  | .reads _ | .writes _ => True
  | _ => False

inductive Moves (o : WorkerOptions) (s : State) : Label → State → Prop
  | overrun (now : Timespec) (buff : Bool) (rc : Int) : s.phase.Sending → 64 ≤ s.c →
      Moves o s (.send now buff rc) { s with phase := .fault }
  | refused (now : Timespec) (buff : Bool) (rc : Int) (p : Phase) : s.phase.Sending → p = .aborted ∨ p = .crashed →
      buff = false ∨ rc ≠ 0 → Moves o s (.send now buff rc) { s with phase := p }
  | read (now : Timespec) (i : Nat) : s.phase = .reads i → s.c < 64 →
      Moves o s (.send now true 0) { s.submit .read s.readPos o.readLba now with
        readPos := advance o.upper s.readPos o.readLba, phase := enter o (.reads (i + 1)) }
  | write (now : Timespec) (i : Nat) : s.phase = .writes i → s.c < 64 →
      Moves o s (.send now true 0) { s.submit .write s.writePos o.writeLba now with
        writePos := advance o.upper s.writePos o.writeLba, phase := enter o (.writes (i + 1)) }
  | poll (done : List (Cmd × Timespec)) (num : Int) (t : State) : s.phase = .waiting →
      completeAll s done = some t → Moves o s (.poll done num) (t.count o num)
  | outside (now : Timespec) : s.phase = .sampling → 64 < o.ioDepth →
      Moves o s (.sample now) { s with phase := .fault }
  | finish (now : Timespec) : s.phase = .sampling → o.ioDepth ≤ 64 →
      Moves o s (.sample now) { s.samples o with runTimer := s.runTimer.Stop now, phase := .finished }
  | again (now : Timespec) : s.phase = .sampling → o.ioDepth ≤ 64 →
      Moves o s (.sample now) (State.nextRound o { s.samples o with runTimer := s.runTimer.Stop now })

theorem step_moves {o : WorkerOptions} {s t : State} {l : Label} (h : step o s l = some t) : Moves o s l t := by
  unfold step at h
  split at h
  case h_1 i now buff rc hp =>
    have hsend : s.phase.Sending := by rw [hp]; trivial
    split at h
    · cases h; rename_i hc
      exact .overrun now buff rc hsend hc
    · rename_i hc
      split at h
      · cases h; rename_i hno
        exact .refused now buff rc _ hsend (.inl rfl) hno
      · rename_i hyes
        obtain ⟨rfl, rfl⟩ : buff = true ∧ rc = 0 := by simpa using hyes
        cases h
        exact .read now i hp (Nat.lt_of_not_le hc)
  case h_2 i now buff rc hp =>
    have hsend : s.phase.Sending := by rw [hp]; trivial
    split at h
    · cases h; rename_i hc
      exact .overrun now buff rc hsend hc
    · rename_i hc
      split at h
      · cases h; rename_i hno
        exact .refused now buff rc _ hsend (.inr rfl) (.inl hno)
      · rename_i hyes
        obtain rfl : buff = true := by simpa using hyes
        split at h
        · cases h; rename_i hno
          exact .refused now true rc _ hsend (.inl rfl) (.inr hno)
        · rename_i hrc
          obtain rfl : rc = 0 := by simpa using hrc
          cases h
          exact .write now i hp (Nat.lt_of_not_le hc)
  case h_3 done num hp =>
    obtain ⟨u, hu, rfl⟩ := Option.map_eq_some_iff.mp h
    exact .poll done num u hp hu
  case h_4 now hp =>
    split at h
    · cases h; rename_i hd
      exact .outside now hp hd
    · rename_i hd
      have hd := Int.not_lt.mp hd
      simp only at h
      split at h
      · cases h; exact .finish now hp hd
      · cases h; exact .again now hp hd
  case h_5 => cases h

theorem completeAll_frame : ∀ {done : List (Cmd × Timespec)} {s t : State}, completeAll s done = some t →
    t = { s with cbs := t.cbs, inflight := t.inflight, log := t.log }
  | [], s, t, h => by
    cases h
    rfl
  | d :: done, s, t, h => by
    obtain ⟨u, hu, ht⟩ := Option.bind_eq_some_iff.mp h
    rw [completeAll_frame ht]
    unfold complete at hu
    split at hu
    · cases hu
      rfl
    · cases hu

/-! ## The account of a round -/

def State.roundCmds (s : State) : List Cmd := s.sent.filter fun c => c.round == s.round

def Event.times (slot : Nat) : Event → Bool
  | .start i _ => i == slot
  | .stop cmd _ => cmd.slot == slot
  | _ => false

def timerEvents (slot : Nat) (log : List Event) : List Event := log.filter (Event.times slot)

def Event.allocated : Event → Option Nat
  | .zmalloc b => some b
  | _ => none

/-- The slot and the buffer of a command: started and held while it is in
flight, stopped once and freed once when it is not. -/
def SlotOk (s : State) (cmd : Cmd) : Prop :=
  ∃ cb, s.cbs[cmd.slot]? = some cb ∧ cb.buff = some cmd.buff ∧
    ((cmd ∈ s.inflight ∧ timerEvents cmd.slot s.log = [.start cmd.slot cb.timer.start] ∧
        s.log.count (.free (some cmd.buff)) = 0) ∨
      (cmd ∉ s.inflight ∧
        timerEvents cmd.slot s.log = [.start cmd.slot cb.timer.start, .stop cmd cb.timer.stop] ∧
        cb.timer.Get = cb.timer.start.elapsedTo cb.timer.stop ∧ s.log.count (.free (some cmd.buff)) = 1))

structure Tracked (s : State) : Prop where
  cap : s.c ≤ 64
  array : s.cbs.length = 64
  count : s.roundCmds.length = s.c
  slot : Lib.Indexed Cmd.slot s.roundCmds
  past : ∀ cmd ∈ s.sent, cmd.round ≤ s.round
  buffs : s.sent.length = s.buffs
  buff : Lib.Indexed Cmd.buff s.sent
  nodup : s.inflight.Nodup
  flight : ∀ cmd ∈ s.inflight, cmd ∈ s.roundCmds
  slots : ∀ cmd ∈ s.roundCmds, SlotOk s cmd
  unused : ∀ i, s.c ≤ i → timerEvents i s.log = []
  unfreed : ∀ b, s.buffs ≤ b → s.log.count (.free (some b)) = 0
  zmallocs : s.log.filterMap Event.allocated = s.roundCmds.map Cmd.buff
  stops : ∀ {cmd : Cmd} {now : Timespec}, .stop cmd now ∈ s.log → cmd ∈ s.roundCmds

/-- The state after the callback of a command whose slot holds its buffer. -/
def State.completed (s : State) (cmd : Cmd) (now : Timespec) : State :=
  { s with
    inflight := s.inflight.erase cmd
    cbs := s.cbs.modify cmd.slot fun cb => { cb with timer := cb.timer.Stop now }
    log := s.log ++ [.stop cmd now, .free (some cmd.buff)] }

theorem timerEvents_append (slot : Nat) (l₁ l₂ : List Event) :
    timerEvents slot (l₁ ++ l₂) = timerEvents slot l₁ ++ timerEvents slot l₂ := List.filter_append ..

theorem SlotOk.frame {s t : State} {cmd : Cmd} (h : SlotOk s cmd) (hcb : t.cbs[cmd.slot]? = s.cbs[cmd.slot]?)
    (hin : cmd ∈ t.inflight ↔ cmd ∈ s.inflight)
    (htimer : timerEvents cmd.slot t.log = timerEvents cmd.slot s.log)
    (hfree : t.log.count (.free (some cmd.buff)) = s.log.count (.free (some cmd.buff))) : SlotOk t cmd := by
  unfold SlotOk
  rw [hcb, hin, htimer, hfree]
  exact h

theorem mem_roundCmds {s : State} {cmd : Cmd} : cmd ∈ s.roundCmds ↔ cmd ∈ s.sent ∧ cmd.round = s.round := by
  simp [State.roundCmds]

theorem roundCmds_submit (s : State) (kind : Kind) (lba lbaCount : UInt32) (now : Timespec) :
    (s.submit kind lba lbaCount now).roundCmds =
      s.roundCmds ++ [⟨kind, s.buffs, lba, lbaCount, s.c, s.round⟩] := by
  simp [State.roundCmds, State.submit]

namespace Tracked

section
variable {s : State} (h : Tracked s)
include h

theorem slot_lt {cmd : Cmd} (hc : cmd ∈ s.roundCmds) : cmd.slot < s.c := h.count ▸ h.slot.lt hc

theorem roundCmds_nextRound (o : WorkerOptions) : (s.nextRound o).roundCmds = [] := by
  refine List.filter_eq_nil_iff.mpr fun cmd hm => ?_
  have := h.past cmd hm
  simp only [State.nextRound, beq_iff_eq]
  omega

theorem buff_lt {cmd : Cmd} (hc : cmd ∈ s.sent) : cmd.buff < s.buffs := h.buffs ▸ h.buff.lt hc

end

section
variable {s : State} (h : Tracked s) (kind : Kind) (lba lbaCount : UInt32) (now : Timespec)
include h

theorem ne_new {cmd : Cmd} (hm : cmd ∈ s.roundCmds) : cmd ≠ ⟨kind, s.buffs, lba, lbaCount, s.c, s.round⟩ := by
  intro e
  have := h.slot_lt hm
  rw [e] at this
  exact Nat.lt_irrefl _ this

theorem slotOk_submit {cmd : Cmd} (hm : cmd ∈ s.roundCmds) : SlotOk (s.submit kind lba lbaCount now) cmd := by
  have hne : s.c ≠ cmd.slot := Nat.ne_of_gt (h.slot_lt hm)
  refine (h.slots cmd hm).frame ?_ ?_ ?_ ?_
  · exact List.getElem?_modify_ne _ _ hne
  · simp [State.submit, h.ne_new kind lba lbaCount hm]
  · simp [State.submit, timerEvents, Event.times, hne]
  · simp [State.submit, List.count_append]

theorem slotOk_new (hc : s.c < 64) :
    SlotOk (s.submit kind lba lbaCount now) ⟨kind, s.buffs, lba, lbaCount, s.c, s.round⟩ := by
  obtain ⟨cb, hcb⟩ : ∃ cb, s.cbs[s.c]? = some cb := by
    rw [List.getElem?_eq_getElem (by rw [h.array]; exact hc)]
    exact ⟨_, rfl⟩
  refine ⟨{ cb with buff := some s.buffs, timer := cb.timer.Start now }, ?_, rfl, .inl ⟨?_, ?_, ?_⟩⟩
  · simp [State.submit, hcb]
  · simp [State.submit]
  · show timerEvents s.c (s.log ++ _) = _
    rw [timerEvents_append, h.unused s.c (Nat.le_refl _)]
    simp [timerEvents, Event.times]
  · show List.count _ (s.log ++ _) = 0
    rw [List.count_append, h.unfreed s.buffs (Nat.le_refl _)]
    rfl

theorem submit (hc : s.c < 64) : Tracked (s.submit kind lba lbaCount now) := by
  have hround := roundCmds_submit s kind lba lbaCount now
  refine
    { cap := hc
      array := by simpa [State.submit] using h.array
      count := by rw [hround]; simpa [State.submit] using h.count
      slot := by rw [hround]; exact h.slot.snoc h.count.symm
      past := ?past
      buffs := by simpa [State.submit] using h.buffs
      buff := h.buff.snoc h.buffs.symm
      nodup := ?nodup
      flight := ?flight
      slots := ?slots
      unused := ?unused
      unfreed := ?unfreed
      zmallocs := ?zmallocs
      stops := ?stops }
  case past =>
    intro cmd hm
    rcases List.mem_append.mp hm with hm | hm
    · exact h.past cmd hm
    · rw [List.mem_singleton.mp hm]; exact Nat.le_refl _
  case nodup =>
    refine List.nodup_append.mpr ⟨h.nodup, List.pairwise_singleton .., ?_⟩
    intro a ha b hb
    rw [List.mem_singleton.mp hb]
    exact h.ne_new kind lba lbaCount (h.flight a ha)
  case flight =>
    intro cmd hm
    rw [hround]
    rcases List.mem_append.mp hm with hm | hm
    · exact List.mem_append_left _ (h.flight cmd hm)
    · exact List.mem_append_right _ hm
  case slots =>
    intro cmd hm
    rw [hround] at hm
    rcases List.mem_append.mp hm with hm | hm
    · exact h.slotOk_submit kind lba lbaCount now hm
    · rw [List.mem_singleton.mp hm]
      exact h.slotOk_new kind lba lbaCount now hc
  case unused =>
    intro i hi
    have hi : s.c + 1 ≤ i := hi
    have hne : s.c ≠ i := by omega
    show timerEvents i (s.log ++ _) = []
    rw [timerEvents_append, h.unused i (by omega)]
    simp [timerEvents, Event.times, hne]
  case unfreed =>
    intro b hb
    have hb : s.buffs + 1 ≤ b := hb
    show List.count _ (s.log ++ _) = 0
    rw [List.count_append, h.unfreed b (by omega)]
    rfl
  case zmallocs =>
    rw [hround, List.map_append, ← h.zmallocs]
    exact List.filterMap_append
  case stops =>
    intro cmd t hm
    rw [hround]
    rcases List.mem_append.mp hm with hm | hm
    · exact List.mem_append_left _ (h.stops hm)
    · simp at hm

end

section
variable {s : State} (h : Tracked s) {cmd : Cmd} (hin : cmd ∈ s.inflight) (now : Timespec)
include h hin

theorem complete_eq : TailSpdk.complete s (cmd, now) = some (s.completed cmd now) := by
  obtain ⟨cb, hcb, hbuff, _⟩ := h.slots cmd (h.flight cmd hin)
  simp [TailSpdk.complete, State.completed, hin, hcb, hbuff]

theorem slotOk_completed : SlotOk (s.completed cmd now) cmd := by
  obtain ⟨cb, hcb, hbuff, hslot⟩ := h.slots cmd (h.flight cmd hin)
  rcases hslot with ⟨_, hev, hfree⟩ | ⟨hout, _⟩
  · refine ⟨{ cb with timer := cb.timer.Stop now }, ?_, hbuff, .inr ⟨?_, ?_, rfl, ?_⟩⟩
    · simp [State.completed, hcb]
    · exact h.nodup.not_mem_erase
    · rw [State.completed, timerEvents_append, hev]
      simp [timerEvents, Event.times, Timer.Stop]
    · rw [State.completed, List.count_append, hfree]
      simp
  · exact absurd hin hout

theorem slotOk_completed_other {a : Cmd} (ha : a ∈ s.roundCmds) (hne : a ≠ cmd) : SlotOk (s.completed cmd now) a := by
  have hmem := h.flight cmd hin
  have hslot : cmd.slot ≠ a.slot := fun e => hne (h.slot.inj ha hmem e.symm)
  have hbuff : cmd.buff ≠ a.buff := fun e =>
    hne (h.buff.inj (mem_roundCmds.mp ha).1 (mem_roundCmds.mp hmem).1 e.symm)
  refine (h.slots a ha).frame ?_ ?_ ?_ ?_
  · exact List.getElem?_modify_ne _ _ hslot
  · exact List.mem_erase_of_ne hne
  · simp [State.completed, timerEvents, Event.times, hslot]
  · simp [State.completed, List.count_append, hbuff]

theorem completed : Tracked (s.completed cmd now) := by
  have hmem := h.flight cmd hin
  refine
    { h with
      array := by simpa [State.completed] using h.array
      nodup := h.nodup.erase cmd
      flight := fun a ha => h.flight a (List.mem_of_mem_erase ha)
      slots := ?slots
      unused := ?unused
      unfreed := ?unfreed
      zmallocs := by rw [State.completed, List.filterMap_append, h.zmallocs]; exact List.append_nil _
      stops := ?stops }
  case slots =>
    intro a ha
    by_cases hac : a = cmd
    · rw [hac]
      exact h.slotOk_completed hin now
    · exact h.slotOk_completed_other hin now ha hac
  case unused =>
    intro i hi
    have hne : cmd.slot ≠ i := Nat.ne_of_lt (Nat.lt_of_lt_of_le (h.slot_lt hmem) hi)
    rw [State.completed, timerEvents_append, h.unused i hi]
    simp [timerEvents, Event.times, hne]
  case unfreed =>
    intro b hb
    have hne : cmd.buff ≠ b := Nat.ne_of_lt (Nat.lt_of_lt_of_le (h.buff_lt (mem_roundCmds.mp hmem).1) hb)
    rw [State.completed, List.count_append, h.unfreed b hb]
    simp [hne]
  case stops =>
    intro a now' ha
    rcases List.mem_append.mp ha with ha | ha
    · exact h.stops ha
    · simp only [List.mem_cons, Event.stop.injEq, reduceCtorEq, List.not_mem_nil, or_false] at ha
      rw [ha.1]
      exact hmem

end

theorem complete {s t : State} {done : Cmd × Timespec} (h : Tracked s) (ht : TailSpdk.complete s done = some t) :
    Tracked t ∧ t.inflight.length + 1 = s.inflight.length := by
  obtain ⟨cmd, now⟩ := done
  by_cases hin : cmd ∈ s.inflight
  · rw [h.complete_eq hin now] at ht
    cases ht
    refine ⟨h.completed hin now, ?_⟩
    have := List.length_pos_of_mem hin
    rw [State.completed, List.length_erase_of_mem hin]
    omega
  · simp [TailSpdk.complete, hin] at ht

theorem completeAll : ∀ {done : List (Cmd × Timespec)} {s t : State}, Tracked s →
    TailSpdk.completeAll s done = some t →
    Tracked t ∧ t.inflight.length + done.length = s.inflight.length
  | [], s, t, h, ht => by
    cases ht
    exact ⟨h, rfl⟩
  | d :: done, s, t, h, ht => by
    obtain ⟨u, hu, ht⟩ := Option.bind_eq_some_iff.mp ht
    obtain ⟨hu, hlen⟩ := h.complete hu
    obtain ⟨ht, hlen'⟩ := hu.completeAll ht
    refine ⟨ht, ?_⟩
    rw [List.length_cons]
    omega

theorem nextRound {s : State} (h : Tracked s) (hin : s.inflight = []) (o : WorkerOptions) :
    Tracked (s.nextRound o) := by
  have hround := h.roundCmds_nextRound o
  exact
    { cap := Nat.zero_le _
      array := List.length_replicate ..
      count := by rw [hround]; rfl
      slot := by rw [hround]; exact .nil
      past := fun cmd hm => Nat.le_succ_of_le (h.past cmd hm)
      buffs := h.buffs
      buff := h.buff
      nodup := h.nodup
      flight := by
        intro cmd hm
        rw [show (s.nextRound o).inflight = [] from hin] at hm
        cases hm
      slots := by
        intro cmd hm
        rw [hround] at hm
        cases hm
      unused := fun _ _ => rfl
      unfreed := fun _ _ => rfl
      zmallocs := by rw [hround]; rfl
      stops := fun hm => nomatch hm }

theorem init (o : WorkerOptions) (now : Timespec) : Tracked (TailSpdk.init o now) :=
  { cap := Nat.zero_le _
    array := List.length_replicate ..
    count := rfl
    slot := .nil
    past := fun _ hm => nomatch hm
    buffs := rfl
    buff := .nil
    nodup := List.nodup_nil
    flight := fun _ hm => nomatch hm
    slots := fun _ hm => nomatch hm
    unused := fun _ _ => rfl
    unfreed := fun _ _ => rfl
    zmallocs := rfl
    stops := fun hm => nomatch hm }

end Tracked

/-! ## The wait loop counts the commands in flight -/

/-- The options for which a round sends `io_depth` commands and has a slot for each. -/
def WorkerOptions.Fits (o : WorkerOptions) : Prop := 0 ≤ o.numRead ∧ o.numRead ≤ o.ioDepth ∧ o.ioDepth ≤ 64

instance (o : WorkerOptions) : Decidable o.Fits := inferInstanceAs (Decidable (_ ∧ _))

def Phase.Expects (o : WorkerOptions) (s : State) : Phase → Prop
  | .reads i => s.c = i ∧ (i : Int) < o.numRead ∧ s.cnt = 0 ∧ s.inflight.length = s.c
  | .writes i => (s.c : Int) = o.numRead + i ∧ (i : Int) < o.numWrite ∧ s.cnt = 0 ∧ s.inflight.length = s.c
  | .waiting => (s.c : Int) = o.ioDepth ∧ s.cnt + s.inflight.length = o.ioDepth
  | .sampling => (s.c : Int) = o.ioDepth ∧ s.cnt = o.ioDepth ∧ s.inflight = []
  | .finished | .aborted | .crashed => True
  | .fault => False

/-- A call returns the number of commands whose callbacks it has run, or it fails
and has run none, as the header has it: the driver splits no command. -/
def Label.Counts : Label → Prop
  | .poll done num => num = done.length ∨ num < 0 ∧ done = []
  | _ => True

def Label.NoError : Label → Prop
  | .poll _ num => 0 ≤ num
  | _ => True

def Label.Regular (l : Label) : Prop := l.Counts ∧ l.NoError

theorem regular_poll_iff {done : List (Cmd × Timespec)} {num : Int} :
    Label.Regular (.poll done num) ↔ num = done.length := by
  simp only [Label.Regular, Label.Counts, Label.NoError]
  omega

structure Accounted (o : WorkerOptions) (s : State) : Prop where
  tracked : Tracked s
  kinds : ∀ {i : Nat} {cmd : Cmd}, s.roundCmds[i]? = some cmd → (cmd.kind = .read ↔ (i : Int) < o.numRead)
  expects : s.phase.Expects o s

theorem expects_enter_writes {o : WorkerOptions} {s : State} {i : Nat} (hc : (s.c : Int) = o.numRead + i)
    (hi : (i : Int) ≤ o.numWrite) (hcnt : s.cnt = 0) (hin : s.inflight.length = s.c) :
    (enter o (.writes i)).Expects o s := by
  by_cases h : (i : Int) < o.numWrite
  · simp only [enter, h, if_true]
    exact ⟨hc, h, hcnt, hin⟩
  · simp only [enter, h, if_false]
    unfold WorkerOptions.numWrite at h hi
    refine ⟨by omega, ?_⟩
    rw [hcnt, hin]
    omega

def State.latency (s : State) (i : Nat) : UInt64 := (s.cbs[i]?.getD {}).timer.Get

theorem foldl_pushSample (o : WorkerOptions) : ∀ (slots : List Nat) (s : State),
    slots.foldl (State.pushSample o) s =
      { s with
        readLatency := s.readLatency ++ (slots.filter fun (i : Nat) => (i : Int) < o.numRead).map s.latency
        writeLatency := s.writeLatency ++ (slots.filter fun (i : Nat) => ¬ (i : Int) < o.numRead).map s.latency }
  | [], s => by simp
  | i :: slots, s => by
    rw [List.foldl_cons, foldl_pushSample o slots]
    by_cases h : (i : Int) < o.numRead
    · simp [State.pushSample, h, State.latency]
    · simp [State.pushSample, h, Int.not_lt.mp h, State.latency]

theorem samples_eq (o : WorkerOptions) (s : State) : ∃ reads writes,
    s.samples o = { s with readLatency := s.readLatency ++ reads, writeLatency := s.writeLatency ++ writes } :=
  ⟨_, _, foldl_pushSample o _ s⟩

theorem kinds_submit {o : WorkerOptions} {s : State} (h : Accounted o s) {kind : Kind}
    (hk : kind = .read ↔ (s.c : Int) < o.numRead) (lba lbaCount : UInt32) (now : Timespec) {i : Nat} {cmd : Cmd}
    (hi : (s.submit kind lba lbaCount now).roundCmds[i]? = some cmd) :
    cmd.kind = .read ↔ (i : Int) < o.numRead := by
  rw [roundCmds_submit, List.getElem?_append] at hi
  split at hi
  · exact h.kinds hi
  · obtain ⟨hlen, rfl⟩ := List.getElem?_eq_some_iff.mp hi
    have hcount := h.tracked.count
    simp only [List.length_singleton] at hlen
    rw [List.getElem_singleton, show i = s.c by omega]
    exact hk

section
variable {o : WorkerOptions} (ho : o.Fits)
include ho

theorem expects_enter_reads {s : State} (hc : (s.c : Int) ≤ o.numRead) (hcnt : s.cnt = 0)
    (hin : s.inflight.length = s.c) : (enter o (.reads s.c)).Expects o s := by
  by_cases h : (s.c : Int) < o.numRead
  · simp only [enter, h, if_true]
    exact ⟨rfl, h, hcnt, hin⟩
  · obtain ⟨h0, hr, _⟩ := ho
    have := @expects_enter_writes o s 0 (by omega) (by unfold WorkerOptions.numWrite; omega) hcnt hin
    simp only [enter, h, if_false] at this ⊢
    exact this

theorem accounted_init (now : Timespec) : Accounted o (init o now) where
  tracked := .init o now
  kinds := fun hi => nomatch hi
  expects := expects_enter_reads ho (s := init o now) (by have := ho.1; simpa [init] using this) rfl rfl

theorem expects_c_lt {s : State} (h : s.phase.Expects o s) (hp : s.phase.Sending) : s.c < 64 := by
  obtain ⟨h0, hr, hd⟩ := ho
  cases hq : s.phase with
  | reads i =>
    rw [hq] at h
    obtain ⟨hc, hi, _⟩ := h
    omega
  | writes i =>
    rw [hq] at h
    obtain ⟨hc, hi, _⟩ := h
    unfold WorkerOptions.numWrite at hi
    omega
  | _ => rw [hq] at hp; exact hp.elim

theorem accounted_step {s t : State} {l : Label} (hl : l.Regular) (hs : step o s l = some t) (h : Accounted o s) :
    Accounted o t := by
  have hexp := h.expects
  cases step_moves hs with
  | overrun now buff rc hp hc => exact absurd (expects_c_lt ho hexp hp) (Nat.not_lt.mpr hc)
  | refused now buff rc p hp hcase hno =>
    refine ⟨{ h.tracked with }, h.kinds, ?_⟩
    rcases hcase with rfl | rfl <;> trivial
  | read now i hp hc =>
    rw [hp] at hexp
    obtain ⟨rfl, hi, hcnt, hin⟩ := hexp
    have hin' : (s.submit .read s.readPos o.readLba now).inflight.length = s.c + 1 := by
      simp [State.submit, hin]
    refine ⟨{ h.tracked.submit .read s.readPos o.readLba now hc with }, ?_, ?_⟩
    · exact kinds_submit h (by simp [hi]) s.readPos o.readLba now
    · exact expects_enter_reads ho (s := { s.submit .read s.readPos o.readLba now with
        readPos := _, phase := enter o (.reads (s.c + 1)) }) hi hcnt hin'
  | write now i hp hc =>
    rw [hp] at hexp
    obtain ⟨hci, hi, hcnt, hin⟩ := hexp
    have hin' : (s.submit .write s.writePos o.writeLba now).inflight.length = s.c + 1 := by
      simp [State.submit, hin]
    refine ⟨{ h.tracked.submit .write s.writePos o.writeLba now hc with }, ?_, ?_⟩
    · refine kinds_submit h ?_ s.writePos o.writeLba now
      simp only [reduceCtorEq, false_iff]
      omega
    · refine expects_enter_writes (i := i + 1) ?_ hi hcnt hin'
      show ((s.c + 1 : Nat) : Int) = _
      omega
  | poll done num u hp hu =>
    obtain rfl := regular_poll_iff.mp hl
    rw [hp] at hexp
    obtain ⟨hci, hcount⟩ := hexp
    have hframe := completeAll_frame hu
    obtain ⟨hu, hlen⟩ := h.tracked.completeAll hu
    have hcmds : u.roundCmds = s.roundCmds := by rw [hframe]; rfl
    have hc : u.c = s.c := by rw [hframe]
    have hcnt : u.cnt = s.cnt := by rw [hframe]
    refine ⟨{ hu with }, ?_, ?_⟩
    · intro i cmd hi
      exact h.kinds (hcmds ▸ hi)
    · unfold State.count
      simp only
      split
      · rename_i hex
        refine ⟨by rw [← hci, ← hc], hex, List.length_eq_zero_iff.mp ?_⟩
        show u.inflight.length = 0
        omega
      · refine ⟨by rw [← hci, ← hc], ?_⟩
        show u.cnt + (done.length : Int) + (u.inflight.length : Int) = o.ioDepth
        omega
  | outside now hp hd => exact absurd ho.2.2 (Int.not_le.mpr hd)
  | finish now hp hd =>
    obtain ⟨reads, writes, hsam⟩ := samples_eq o s
    rw [hsam]
    exact ⟨{ h.tracked with }, h.kinds, trivial⟩
  | again now hp hd =>
    rw [hp] at hexp
    obtain ⟨reads, writes, hsam⟩ := samples_eq o s
    rw [hsam]
    refine ⟨{ h.tracked.nextRound hexp.2.2 o with }, ?_, ?_⟩
    · intro i cmd hi
      have hi : (s.nextRound o).roundCmds[i]? = some cmd := hi
      rw [h.tracked.roundCmds_nextRound o] at hi
      cases hi
    · have hin : (s.nextRound o).inflight.length = 0 := by
        rw [show (s.nextRound o).inflight = [] from hexp.2.2]; rfl
      exact expects_enter_reads (s := s.nextRound o) ho ho.1 rfl hin

theorem accounted_reach {now : Timespec} {s : State} (h : Lib.Reach (step o) Label.Regular (init o now) s) :
    Accounted o s :=
  h.invariant (accounted_init ho now) (accounted_step ho)

end

/-! ## What a round leaves behind -/

/-- The state in which the wait loop of a round is left: slot `i` belongs to
the command sent as number `i`, and `started` and `stopped` are the clock
readings of its timer. -/
structure RoundDone (o : WorkerOptions) (s : State) (started stopped : Nat → Timespec) : Prop where
  drained : s.inflight = []
  sent : (s.roundCmds.length : Int) = o.ioDepth
  slots : ∀ {i : Nat} {cmd : Cmd}, s.roundCmds[i]? = some cmd →
    (cmd.kind = .read ↔ (i : Int) < o.numRead) ∧
      timerEvents i s.log = [.start i (started i), .stop cmd (stopped i)]
  zmallocs : (s.log.filterMap Event.allocated).length = o.ioDepth
  frees : ∀ b ∈ s.log.filterMap Event.allocated, s.log.count (.free (some b)) = 1
  samples : ∀ now, ∃ t, step o s (.sample now) = some t ∧
    t.readLatency = s.readLatency ++
      (List.range o.numRead.toNat).map (fun i => (started i).elapsedTo (stopped i)) ∧
    t.writeLatency = s.writeLatency ++
      (List.range o.numWrite.toNat).map fun i =>
        (started (o.numRead.toNat + i)).elapsedTo (stopped (o.numRead.toNat + i))

theorem samples_split (o : WorkerOptions) (h0 : 0 ≤ o.numRead) (hr : o.numRead ≤ o.ioDepth) (s : State) :
    s.samples o =
      { s with
        readLatency := s.readLatency ++ (List.range o.numRead.toNat).map s.latency
        writeLatency := s.writeLatency ++
          (List.range o.numWrite.toNat).map fun i => s.latency (o.numRead.toNat + i) } := by
  have hsum : o.ioDepth.toNat = o.numRead.toNat + o.numWrite.toNat := by
    unfold WorkerOptions.numWrite; omega
  have hlt : ∀ i : Nat, (i : Int) < o.numRead ↔ i < o.numRead.toNat := by intro i; omega
  unfold State.samples
  rw [foldl_pushSample, hsum, List.range_add, List.filter_append, List.filter_append]
  simp only [hlt]
  generalize o.numRead.toNat = m, o.numWrite.toNat = n
  rw [List.filter_eq_self.mpr, List.filter_eq_nil_iff.mpr, List.filter_eq_nil_iff.mpr, List.filter_eq_self.mpr]
  · simp [Function.comp_def]
  all_goals simp

section
variable {o : WorkerOptions} {s : State} (h : Accounted o s)
include h

theorem slot_done (hin : s.inflight = []) {i : Nat} {cmd : Cmd} (hi : s.roundCmds[i]? = some cmd) :
    ∃ cb, s.cbs[i]? = some cb ∧ timerEvents i s.log = [.start i cb.timer.start, .stop cmd cb.timer.stop] ∧
      cb.timer.Get = cb.timer.start.elapsedTo cb.timer.stop ∧ s.log.count (.free (some cmd.buff)) = 1 := by
  obtain ⟨cb, hcb, _, hslot⟩ := h.tracked.slots cmd (List.mem_of_getElem? hi)
  rw [h.tracked.slot i cmd hi] at hcb hslot
  rcases hslot with ⟨hm, _⟩ | ⟨_, hev, hget, hfree⟩
  · rw [hin] at hm
    cases hm
  · exact ⟨cb, hcb, hev, hget, hfree⟩

theorem latency_done (hin : s.inflight = []) {i : Nat} (hi : i < s.c) :
    s.latency i = ((s.cbs[i]?.getD {}).timer.start).elapsedTo (s.cbs[i]?.getD {}).timer.stop := by
  rw [← h.tracked.count] at hi
  obtain ⟨cb, hcb, _, hget, _⟩ := slot_done h hin (List.getElem?_eq_getElem hi)
  unfold State.latency
  rw [hcb]
  exact hget

theorem roundDone (ho : o.Fits) (hp : s.phase = .sampling) :
    RoundDone o s (fun i => (s.cbs[i]?.getD {}).timer.start) (fun i => (s.cbs[i]?.getD {}).timer.stop) := by
  have hexp := h.expects
  rw [hp] at hexp
  obtain ⟨hc, hcnt, hin⟩ := hexp
  obtain ⟨h0, hr, hd⟩ := ho
  have hcount := h.tracked.count
  refine ⟨hin, by omega, ?_, ?_, ?_, ?_⟩
  · intro i cmd hi
    obtain ⟨cb, hcb, hev, _⟩ := slot_done h hin hi
    refine ⟨h.kinds hi, ?_⟩
    rw [hcb]
    exact hev
  · rw [h.tracked.zmallocs, List.length_map]
    omega
  · intro b hb
    rw [h.tracked.zmallocs] at hb
    obtain ⟨cmd, hm, rfl⟩ := List.mem_map.mp hb
    obtain ⟨i, hi⟩ := List.getElem?_of_mem hm
    obtain ⟨_, _, _, _, hfree⟩ := slot_done h hin hi
    exact hfree
  · intro now
    have hlat : ∀ i < s.c, s.latency i = _ := fun i hi => latency_done h hin hi
    have hreads : (List.range o.numRead.toNat).map s.latency = (List.range o.numRead.toNat).map _ :=
      List.map_congr_left fun i hi => hlat i (by have := List.mem_range.mp hi; omega)
    have hwrites : ((List.range o.numWrite.toNat).map fun i => s.latency (o.numRead.toNat + i)) =
        (List.range o.numWrite.toNat).map _ :=
      List.map_congr_left fun i hi => hlat (o.numRead.toNat + i) (by
        have := List.mem_range.mp hi
        unfold WorkerOptions.numWrite at this
        omega)
    simp only [step, hp, Int.not_lt.mpr hd, if_false, samples_split o h0 hr, hreads, hwrites]
    split
    · exact ⟨_, rfl, rfl, rfl⟩
    · exact ⟨_, rfl, rfl, rfl⟩

end

/-- **Rounds.** With every split of the reads and writes that fits the slots,
over any number of rounds and however the completions come in. -/
theorem rounds_account (o : WorkerOptions) (h0 : 0 ≤ o.numRead) (hr : o.numRead ≤ o.ioDepth) (hd : o.ioDepth ≤ 64)
    {now : Timespec} {s : State} (h : Lib.Reach (step o) Label.Regular (init o now) s) :
    (∀ cmd t, .stop cmd t ∈ s.log → cmd.round = s.round) ∧
      (s.phase = .sampling → ∃ started stopped, RoundDone o s started stopped) := by
  have hacc := accounted_reach ⟨h0, hr, hd⟩ h
  refine ⟨?_, ?_⟩
  · intro cmd t hm
    exact (mem_roundCmds.mp (hacc.tracked.stops hm)).2
  · intro hp
    exact ⟨_, _, roundDone hacc ⟨h0, hr, hd⟩ hp⟩

def evenSplit : WorkerOptions := ⟨2, 1 / 2, 2 ^ 30, 512, 512, 0⟩

theorem rounds_account_even_split : ∃ s, Lib.Reach (step evenSplit) Label.Regular (init evenSplit default) s ∧
    s.phase = .sampling ∧ ∃ started stopped, RoundDone evenSplit s started stopped := by
  obtain ⟨s, hrun, hp⟩ : ∃ s, Lib.Reach (step evenSplit) Label.Regular (init evenSplit default) s ∧
      decide (s.phase = .sampling) = true :=
    Lib.Reach.of_check [.send default true 0, .send default true 0,
      .poll [(⟨.write, 1, 0, 1, 1, 0⟩, default), (⟨.read, 0, 0, 1, 0, 0⟩, default)] 2]
      (by simp [Label.Regular, Label.Counts, Label.NoError]) (by decide +kernel)
  have hp := of_decide_eq_true hp
  exact ⟨s, hrun, hp,
    (rounds_account evenSplit (by decide +kernel) (by decide +kernel) (by decide +kernel) hrun).2 hp⟩

end IoTester.TailSpdk

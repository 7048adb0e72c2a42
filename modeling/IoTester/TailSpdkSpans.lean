import IoTester.Lib.Cursor
import IoTester.TailSpdkWait

/-!
# Where the SPDK commands go

The reads and the writes each follow a cursor of 32-bit sectors. The cursors
survive the rounds, so the commands of one kind, counted over the whole run,
read the positions of their cursor one after the other. How many there are
follows from the round and from the slots that it has used.
-/

namespace IoTester.TailSpdk

def WorkerOptions.lba (o : WorkerOptions) : Kind → UInt32
  | .read => o.readLba
  | .write => o.writeLba

def State.pos (s : State) : Kind → UInt32
  | .read => s.readPos
  | .write => s.writePos

def cursor (o : WorkerOptions) (k : Kind) : Lib.Cursor := ⟨(o.lba k).toNat, o.upper.toNat, 2 ^ 32⟩

def cursorSpans (o : WorkerOptions) (k : Kind) (n : Nat) : List Lib.Span :=
  (List.range n).map fun i => ⟨(cursor o k).pos i, (o.lba k).toNat⟩

theorem toNat_advance (o : WorkerOptions) (k : Kind) (pos : UInt32) :
    (advance o.upper pos (o.lba k)).toNat = (cursor o k).next pos.toNat := by
  have hsum := UInt32.toNat_add pos (o.lba k)
  by_cases h : o.upper ≤ pos + o.lba k
  · simp only [advance, ge_iff_le, h, if_true]
    rw [UInt32.le_iff_toNat_le, hsum] at h
    exact (if_pos h).symm
  · simp only [advance, ge_iff_le, h, if_false]
    rw [UInt32.le_iff_toNat_le, hsum] at h
    exact hsum.trans (if_neg h).symm

structure Follows (o : WorkerOptions) (s : State) (k : Kind) : Prop where
  spans : (s.sentOf k).map Cmd.span = cursorSpans o k (s.sentOf k).length
  pos : (s.pos k).toNat = (cursor o k).pos (s.sentOf k).length

theorem Follows.congr {o : WorkerOptions} {s t : State} {k : Kind} (h : Follows o s k) (hsent : t.sentOf k = s.sentOf k)
    (hpos : t.pos k = s.pos k) : Follows o t k := by
  refine ⟨?_, ?_⟩
  · rw [hsent]; exact h.spans
  · rw [hsent, hpos]; exact h.pos

theorem Follows.send {o : WorkerOptions} {s t : State} {k : Kind} {cmd : Cmd} (h : Follows o s k)
    (hsent : t.sentOf k = s.sentOf k ++ [cmd]) (hlba : cmd.lba = s.pos k) (hcount : cmd.lbaCount = o.lba k)
    (hpos : t.pos k = advance o.upper (s.pos k) (o.lba k)) : Follows o t k := by
  refine ⟨?_, ?_⟩
  · rw [hsent, List.map_append, List.length_append, List.length_singleton, h.spans]
    unfold cursorSpans
    rw [List.range_succ, List.map_append]
    simp only [List.map_cons, List.map_nil, Cmd.span, hlba, hcount, h.pos]
  · rw [hsent, List.length_append, List.length_singleton, hpos, toNat_advance, h.pos]
    rfl

theorem follows_step {o : WorkerOptions} {s t : State} {l : Label} (hs : step o s l = some t)
    (h : ∀ k, Follows o s k) : ∀ k, Follows o t k := by
  intro k
  cases step_moves hs with
  | overrun now buff rc hp hc => exact (h k).congr rfl (by cases k <;> rfl)
  | refused now buff rc p hp hcase hno => exact (h k).congr rfl (by cases k <;> rfl)
  | read now i hp hc =>
    cases k with
    | read => exact (h .read).send (by simp [State.sentOf, State.submit]; rfl) rfl rfl rfl
    | write => exact (h .write).congr (by simp [State.sentOf, State.submit]) rfl
  | write now i hp hc =>
    cases k with
    | read => exact (h .read).congr (by simp [State.sentOf, State.submit]) rfl
    | write => exact (h .write).send (by simp [State.sentOf, State.submit]; rfl) rfl rfl rfl
  | poll done num u hp hu =>
    have hframe := completeAll_frame hu
    refine (h k).congr ?_ ?_
    · rw [hframe]; rfl
    · rw [hframe]; cases k <;> rfl
  | outside now hp hd => exact (h k).congr rfl (by cases k <;> rfl)
  | finish now hp hd =>
    obtain ⟨reads, writes, hsam⟩ := samples_eq o s
    rw [hsam]
    exact (h k).congr rfl (by cases k <;> rfl)
  | again now hp hd =>
    obtain ⟨reads, writes, hsam⟩ := samples_eq o s
    rw [hsam]
    exact (h k).congr rfl (by cases k <;> rfl)

theorem follows_reach {o : WorkerOptions} {ok : Label → Prop} {now : Timespec} {s : State}
    (h : Lib.Reach (step o) ok (init o now) s) : ∀ k, Follows o s k := by
  refine h.invariant (fun k => ?_) (fun _ hs => follows_step hs)
  cases k <;> exact ⟨rfl, rfl⟩

/-! ## How many commands there are -/

def WorkerOptions.num (o : WorkerOptions) : Kind → Int
  | .read => o.numRead
  | .write => o.numWrite

/-- The slots whose commands are of a kind begin here. -/
def WorkerOptions.firstSlot (o : WorkerOptions) : Kind → Nat
  | .read => 0
  | .write => o.numRead.toNat

/-- The commands of a kind that a run has sent. -/
def SentCount (o : WorkerOptions) (s : State) : Prop :=
  ∀ k, ((s.sentOf k).length : Int) = s.round * o.num k + min (o.num k) (s.c - o.firstSlot k : Nat)

theorem sentCount_step {o : WorkerOptions} (ho : o.Fits) {s t : State} {l : Label} (hacc : Accounted o s)
    (hs : step o s l = some t) (h : SentCount o s) : SentCount o t := by
  have hexp := hacc.expects
  have h0 := ho.1
  have hr := ho.2.1
  cases step_moves hs with
  | overrun now buff rc hp hc => exact h
  | refused now buff rc p hp hcase hno => exact h
  | read now i hp hc =>
    rw [hp] at hexp
    obtain ⟨hci, hi, -⟩ := hexp
    intro k
    have hk := h k
    cases k with
    | read =>
      simp [State.sentOf, State.submit, WorkerOptions.num, WorkerOptions.firstSlot] at hk ⊢
      omega
    | write =>
      simp [State.sentOf, State.submit, WorkerOptions.num, WorkerOptions.firstSlot] at hk ⊢
      omega
  | write now i hp hc =>
    rw [hp] at hexp
    obtain ⟨hci, hi, -⟩ := hexp
    intro k
    have hk := h k
    cases k with
    | read =>
      simp [State.sentOf, State.submit, WorkerOptions.num, WorkerOptions.firstSlot] at hk ⊢
      omega
    | write =>
      simp [State.sentOf, State.submit, WorkerOptions.num, WorkerOptions.firstSlot] at hk ⊢
      omega
  | poll done num u hp hu =>
    rw [completeAll_frame hu]
    exact h
  | outside now hp hd => exact h
  | finish now hp hd =>
    obtain ⟨reads, writes, hsam⟩ := samples_eq o s
    rw [hsam]
    exact h
  | again now hp hd =>
    rw [hp] at hexp
    have hc := hexp.1
    obtain ⟨reads, writes, hsam⟩ := samples_eq o s
    rw [hsam]
    intro k
    have hk : ((s.sentOf k).length : Int) = _ := h k
    show ((s.sentOf k).length : Int) =
      ((s.round + 1 : Nat) : Int) * o.num k + min (o.num k) ((0 - o.firstSlot k : Nat) : Int)
    rw [hk, Int.natCast_add, Int.add_mul, Int.natCast_one, Int.one_mul]
    cases k with
    | read =>
      simp only [WorkerOptions.num, WorkerOptions.firstSlot]
      omega
    | write =>
      simp only [WorkerOptions.num, WorkerOptions.firstSlot, WorkerOptions.numWrite]
      omega

theorem sentCount_init {o : WorkerOptions} (ho : o.Fits) (start : Timespec) : SentCount o (init o start) := by
  have h0 := ho.1
  have hr := ho.2.1
  intro k
  cases k with
  | read =>
    simp [State.sentOf, init, WorkerOptions.num]
    omega
  | write =>
    simp [State.sentOf, init, WorkerOptions.num, WorkerOptions.numWrite]
    omega

theorem sentCount_reach {o : WorkerOptions} (ho : o.Fits) {now : Timespec} {s : State}
    (h : Lib.Reach (step o) Label.Regular (init o now) s) : SentCount o s :=
  (h.invariant (P := fun s => Accounted o s ∧ SentCount o s) ⟨accounted_init ho now, sentCount_init ho now⟩
    fun hl hs ha => ⟨accounted_step ho hl hs ha.1, sentCount_step ho ha.1 hs ha.2⟩).2

/-! ## The closed form -/

def WorkerOptions.sectors (o : WorkerOptions) : Nat := o.size.toNat / 512

def WorkerOptions.blockSize (o : WorkerOptions) : Kind → UInt64
  | .read => o.readBs
  | .write => o.writeBs

def WorkerOptions.blockSectors (o : WorkerOptions) (k : Kind) : Nat := (o.blockSize k).toNat / 512

theorem toNat_upper (o : WorkerOptions) : o.upper.toNat = o.sectors % 2 ^ 32 :=
  (UInt64.toNat_toUInt32 _).trans (by rw [UInt64.toNat_div]; rfl)

theorem toNat_lba (o : WorkerOptions) (k : Kind) : (o.lba k).toNat = o.blockSectors k % 2 ^ 32 := by
  cases k <;> exact (UInt64.toNat_toUInt32 _).trans (by rw [UInt64.toNat_div]; rfl)

theorem Follows.lba {o : WorkerOptions} {s : State} {k : Kind} (h : Follows o s k) {i : Nat} {cmd : Cmd}
    (hc : (s.sentOf k)[i]? = some cmd) : cmd.lba.toNat = (cursor o k).pos i := by
  have hi := (List.getElem?_eq_some_iff.mp hc).1
  have hspan := congrArg (fun l => l[i]?) h.spans
  simp only [cursorSpans, List.getElem?_map, hc, List.getElem?_range hi, Option.map_some, Option.some.injEq] at hspan
  exact congrArg Lib.Span.start hspan

section
variable (o : WorkerOptions) (k : Kind) (hU : 1 ≤ o.sectors) (hl : 1 ≤ o.blockSectors k)
  (hfit : o.sectors + o.blockSectors k ≤ 2 ^ 32)
include hU hl hfit

theorem cursor_eq : cursor o k = ⟨o.blockSectors k, o.sectors, 2 ^ 32⟩ := by
  unfold cursor
  rw [toNat_lba, toNat_upper, Nat.mod_eq_of_lt (by omega), Nat.mod_eq_of_lt (by omega)]

theorem cursor_pos_eq (i : Nat) :
    (cursor o k).pos i = i % ((o.sectors + o.blockSectors k - 1) / o.blockSectors k) * o.blockSectors k := by
  rw [cursor_eq o k hU hl hfit]
  exact Lib.Cursor.pos_eq ⟨o.blockSectors k, o.sectors, 2 ^ 32⟩ hl hU (Lib.Cursor.lap_fits_of_add_le _ hfit) i

theorem cursor_pos_lt (i : Nat) : (cursor o k).pos i < o.sectors := by
  rw [cursor_eq o k hU hl hfit]
  exact Lib.Cursor.pos_lt ⟨o.blockSectors k, o.sectors, 2 ^ 32⟩ hU i

end

/-- **Closed form.** While the region and a block fit a word together, the
commands of a kind go through the multiples of their block below the end of
the region, over and over, and so does their cursor. No move overflows, and a
run with other numbers of commands, other blocks of the other kind and other
rounds sends them to the same places. -/
theorem sent_closed_form (o : WorkerOptions) (k : Kind) (hU : 1 ≤ o.sectors) (hl : 1 ≤ o.blockSectors k)
    (hfit : o.sectors + o.blockSectors k ≤ 2 ^ 32) {now : Timespec} {s : State}
    (h : Lib.Reach (step o) (fun _ => True) (init o now) s) :
    let U := o.sectors
    let l := o.blockSectors k
    (∀ (i : Nat) (cmd : Cmd), (s.sentOf k)[i]? = some cmd →
      cmd.lba.toNat = i % ((U + l - 1) / l) * l ∧ cmd.lba.toNat < U ∧ cmd.lba.toNat + l < 2 ^ 32) ∧
      (s.pos k).toNat = (s.sentOf k).length % ((U + l - 1) / l) * l ∧
      ∀ (o' : WorkerOptions) (now' : Timespec) (s' : State), o'.sectors = U → o'.blockSectors k = l →
        Lib.Reach (step o') (fun _ => True) (init o' now') s' →
        ∀ (i : Nat) (cmd cmd' : Cmd), (s.sentOf k)[i]? = some cmd → (s'.sentOf k)[i]? = some cmd' → cmd'.lba = cmd.lba := by
  intro U l
  refine ⟨fun i cmd hc => ?_, ?_, fun o' now' s' hU' hl' h' i cmd cmd' hc hc' => ?_⟩
  · rw [(follows_reach h k).lba hc]
    have hlt : (cursor o k).pos i < U := cursor_pos_lt o k hU hl hfit i
    refine ⟨cursor_pos_eq o k hU hl hfit i, hlt, ?_⟩
    omega
  · rw [(follows_reach h k).pos]
    exact cursor_pos_eq o k hU hl hfit _
  · have hsame : cursor o' k = cursor o k := by
      rw [cursor_eq o k hU hl hfit, cursor_eq o' k (by omega) (by omega) (by omega), hU', hl']
    refine UInt32.toNat_inj.mp ?_
    rw [(follows_reach h' k).lba hc', (follows_reach h k).lba hc, hsame]

/-- Two rounds of one read, with blocks of two sectors on three. -/
theorem sent_closed_form_two_rounds : ∃ s cmd,
    Lib.Reach (step ⟨1, 1, 1536, 1024, 512, 0⟩) (fun _ => True) (init ⟨1, 1, 1536, 1024, 512, 0⟩ default) s ∧
      (s.sentOf .read)[1]? = some cmd ∧ cmd.round = 1 ∧
      cmd.lba.toNat = 1 % 2 * 2 ∧ cmd.lba.toNat < 3 ∧ cmd.lba.toNat + 2 < 2 ^ 32 := by
  obtain ⟨s, hrun, hs⟩ : ∃ s, Lib.Reach (step ⟨1, 1, 1536, 1024, 512, 0⟩) (fun _ => True)
      (init ⟨1, 1, 1536, 1024, 512, 0⟩ default) s ∧
      decide ((s.sentOf .read)[1]? = some (⟨.read, 1, 2, 2, 0, 1⟩ : Cmd)) = true :=
    Lib.Reach.of_check
      [.send default true 0, .poll [(⟨.read, 0, 0, 2, 0, 0⟩, default)] 1, .sample default, .send default true 0]
      (fun _ _ => trivial) (by decide +kernel)
  have hc := of_decide_eq_true hs
  exact ⟨s, _, hrun, hc, rfl, (sent_closed_form _ .read (by decide) (by decide) (by decide) hrun).1 1 _ hc⟩

/-! ## The first lap of a cursor -/

def Args.sectors (a : Args) : Nat := 1024 * 1024 * 1024 * a.size.toNat / 512

def Args.blockSize (a : Args) : Kind → UInt64
  | .read => a.readBs
  | .write => a.writeBs

def Args.blockSectors (a : Args) (k : Kind) : Nat := (a.blockSize k).toNat / 512

def Args.blocks (a : Args) (k : Kind) : Nat := (a.sectors + a.blockSectors k - 1) / a.blockSectors k

/-- The first pass over the region: the commands have the length of a block and
their spans tile the region. -/
def FirstPass (a : Args) (k : Kind) (s : State) : Prop :=
  let cmds := (s.sentOf k).take (a.blocks k)
  (∀ cmd ∈ cmds, cmd.lbaCount.toNat = a.blockSectors k) ∧ Lib.Tiles a.sectors (cmds.map Cmd.span)

theorem toNat_upper_args (a : Args) : a.options.upper.toNat = a.sectors % 2 ^ 32 := by
  rw [toNat_upper]
  unfold WorkerOptions.sectors Args.options Args.sectors
  rw [show (1024 * 1024 * 1024 : UInt64) = 1073741824 from rfl]
  simp only [UInt64.toNat_mul, UInt64.reduceToNat]
  omega

theorem toNat_lba_args (a : Args) (k : Kind) : (a.options.lba k).toNat = a.blockSectors k % 2 ^ 32 := by
  rw [toNat_lba]
  cases k <;> rfl

theorem cursorSpans_take {o : WorkerOptions} {k : Kind} {s : State} (h : Follows o s k) (n : Nat) :
    ((s.sentOf k).take n).map Cmd.span = cursorSpans o k (min n (s.sentOf k).length) := by
  rw [List.map_take, h.spans]
  unfold cursorSpans
  rw [← List.map_take, List.take_range]

theorem lbaCount_eq {o : WorkerOptions} {k : Kind} {s : State} (h : Follows o s k) {cmd : Cmd}
    (hm : cmd ∈ s.sentOf k) : cmd.lbaCount.toNat = (o.lba k).toNat := by
  have hspan : cmd.span ∈ cursorSpans o k (s.sentOf k).length := h.spans ▸ List.mem_map_of_mem hm
  obtain ⟨i, _, hi⟩ := List.mem_map.mp hspan
  exact (congrArg Lib.Span.len hi).symm

section
variable (a : Args) (k : Kind) (hl : 0 < a.blockSectors k)
include hl

theorem lt_blocks_iff (i : Nat) : i < a.blocks k ↔ i * a.blockSectors k < a.sectors :=
  Lib.Cursor.lt_lap_iff ⟨a.blockSectors k, a.sectors, 0⟩ hl i

theorem cursorSpans_chain (hU : a.sectors < 2 ^ 32) (hb : a.blockSectors k < 2 ^ 32) :
    cursorSpans a.options k (a.blocks k) = Lib.chain (a.blockSectors k) (a.blocks k) := by
  have hlba : (a.options.lba k).toNat = a.blockSectors k := by rw [toNat_lba_args, Nat.mod_eq_of_lt hb]
  have hup : a.options.upper.toNat = a.sectors := by rw [toNat_upper_args, Nat.mod_eq_of_lt hU]
  refine List.map_congr_left fun i hi => ?_
  have hi := (lt_blocks_iff a k hl i).mp (List.mem_range.mp hi)
  have hpos : (cursor a.options k).pos i = i * (cursor a.options k).stride := by
    refine Lib.Cursor.pos_first_lap _ ?_ ?_
    · show a.options.upper.toNat ≤ 2 ^ 32
      omega
    · show i * (a.options.lba k).toNat < a.options.upper.toNat
      rw [hlba, hup]
      exact hi
  rw [hpos, hlba]
  show Lib.Span.mk (i * (a.options.lba k).toNat) _ = _
  rw [hlba]

theorem blocks_mul_of_dvd (hdvd : a.blockSectors k ∣ a.sectors) : a.blocks k * a.blockSectors k = a.sectors := by
  obtain ⟨m, hm⟩ := hdvd
  rw [Nat.mul_comm] at hm
  have hlt : ∀ i, i < a.blocks k ↔ i < m := by
    intro i
    rw [lt_blocks_iff a k hl, hm]
    exact Nat.mul_lt_mul_right hl
  have : a.blocks k = m := by
    have := hlt m
    have := hlt (a.blocks k)
    omega
  rw [this, hm]

theorem sectors_lt_of_tiles (hU : 0 < a.sectors) (hb : a.blockSectors k < 2 ^ 32)
    (h : Lib.Tiles a.sectors (cursorSpans a.options k (a.blocks k))) : a.sectors < 2 ^ 32 := by
  have hlba : (a.options.lba k).toNat = a.blockSectors k := by rw [toNat_lba_args, Nat.mod_eq_of_lt hb]
  obtain ⟨span, hm, hcov⟩ := h.exists_covers (show a.sectors - 1 < a.sectors by omega)
  obtain ⟨i, _, rfl⟩ := List.mem_map.mp hm
  have hend := h.end_le hm (by rw [hlba]; exact hl)
  obtain ⟨hlo, hhi⟩ := hcov
  simp only [hlba] at hend hlo hhi
  rcases (cursor a.options k).pos_eq_zero_or_lt i with hz | hlt
  · omega
  · rw [show (cursor a.options k).bound = a.sectors % 2 ^ 32 from toNat_upper_args a] at hlt
    omega

end

/-- **First pass.** In every run that gets that far, the first commands of a
kind cover the region once exactly when the region is below 2 TiB and made of
whole blocks. -/
theorem firstPass_iff (a : Args) (k : Kind) (hsize : 1 ≤ a.size.toNat) (hbs : 0 < (a.blockSize k).toNat)
    (hsector : 512 ∣ (a.blockSize k).toNat) {now : Timespec} {s : State}
    (h : Lib.Reach (step a.options) (fun _ => True) (init a.options now) s)
    (hn : a.blocks k ≤ (s.sentOf k).length) :
    FirstPass a k s ↔ a.sectors < 2 ^ 32 ∧ a.blockSectors k ∣ a.sectors := by
  have hf := follows_reach h k
  have hU : 0 < a.sectors := by unfold Args.sectors; omega
  have hl : 0 < a.blockSectors k := by
    unfold Args.blockSectors
    omega
  have hblocks : 0 < a.blocks k := (lt_blocks_iff a k hl 0).mpr (by omega)
  unfold FirstPass
  simp only
  rw [cursorSpans_take hf, Nat.min_eq_left hn]
  refine ⟨fun ⟨hlen, htiles⟩ => ?_, fun ⟨hlt, hdvd⟩ => ?_⟩
  · obtain ⟨cmd, hm⟩ : ∃ cmd, cmd ∈ (s.sentOf k).take (a.blocks k) :=
      List.exists_mem_of_length_pos (by rw [List.length_take]; omega)
    have hb : a.blockSectors k < 2 ^ 32 := hlen cmd hm ▸ cmd.lbaCount.toNat_lt
    have hlt := sectors_lt_of_tiles a k hl hU hb htiles
    rw [cursorSpans_chain a k hl hlt hb] at htiles
    exact ⟨hlt, a.blocks k, by rw [← Lib.Tiles.unique htiles (Lib.tiles_chain _ _), Nat.mul_comm]⟩
  · have hb : a.blockSectors k < 2 ^ 32 := Nat.lt_of_le_of_lt (Nat.le_of_dvd hU hdvd) hlt
    refine ⟨fun cmd hm => ?_, ?_⟩
    · rw [lbaCount_eq hf (List.mem_of_mem_take hm), toNat_lba_args, Nat.mod_eq_of_lt hb]
    · have := Lib.tiles_chain (a.blockSectors k) (a.blocks k)
      rw [blocks_mul_of_dvd a k hl hdvd] at this
      rw [cursorSpans_chain a k hl hlt hb]
      exact this

/-- The reads of 1 MiB that cover 1 GiB, in sixteen rounds. -/
theorem firstPass_iff_sixteen_rounds : ∃ s,
    Lib.Reach (step (Args.options ⟨1, 64, 1, 1, 2 ^ 20, 512⟩)) (fun _ => True)
      (init (Args.options ⟨1, 64, 1, 1, 2 ^ 20, 512⟩) default) s ∧
      s.round = 16 ∧ (s.sentOf .read).length = 1024 ∧ FirstPass ⟨1, 64, 1, 1, 2 ^ 20, 512⟩ .read s := by
  have hfits : (Args.options ⟨1, 64, 1, 1, 2 ^ 20, 512⟩).Fits := by decide +kernel
  have hnum : (Args.options ⟨1, 64, 1, 1, 2 ^ 20, 512⟩).num .read = 64 := by decide +kernel
  obtain ⟨s, hrun, hsent⟩ := reach_round (fun _ hl => hl) hfits default 16
  have hlen := sentCount_reach hfits hrun .read
  rw [hsent.round, hsent.c, hnum] at hlen
  have hlen : (s.sentOf .read).length = 1024 := Int.ofNat_inj.mp hlen
  have hrun : Lib.Reach (step (Args.options ⟨1, 64, 1, 1, 2 ^ 20, 512⟩)) (fun _ => True)
      (init (Args.options ⟨1, 64, 1, 1, 2 ^ 20, 512⟩) default) s := hrun.mono fun _ _ => trivial
  refine ⟨s, hrun, hsent.round, hlen, ?_⟩
  exact (firstPass_iff _ .read (by decide) (by decide) (by decide) hrun (by rw [hlen]; decide)).mpr (by decide)

/-- Two commands at sector zero are one too many. -/
theorem not_firstPass {a : Args} {k : Kind} {s : State} (hf : Follows a.options s k) (hupper : a.options.upper = 0)
    (hlba : 0 < (a.options.lba k).toNat) (hU : 0 < a.sectors) (hblocks : 2 ≤ a.blocks k)
    (hlen : 2 ≤ (s.sentOf k).length) : ¬ FirstPass a k s := by
  rintro ⟨-, htiles⟩
  have hpos : ∀ i, (cursor a.options k).pos i = 0 := by
    intro i
    rcases (cursor a.options k).pos_eq_zero_or_lt i with hz | hlt
    · exact hz
    · rw [show (cursor a.options k).bound = 0 by simp [cursor, hupper]] at hlt
      exact absurd hlt (Nat.not_lt_zero _)
  obtain ⟨m, hm⟩ := Nat.exists_eq_add_of_le (Nat.le_min.mpr ⟨hblocks, hlen⟩)
  have hzero := htiles 0
  rw [cursorSpans_take hf, hm, if_pos hU] at hzero
  unfold cursorSpans at hzero
  rw [List.range_add, List.map_append, Lib.hits_append] at hzero
  have htwo : Lib.hits ((List.range 2).map fun i => ⟨(cursor a.options k).pos i, (a.options.lba k).toNat⟩) 0 = 2 := by
    simp [Lib.hits, hpos, List.range_succ, Lib.Span.Covers, hlba]
  omega

def twoTib : Args := ⟨1, 2, 2048, 1, 4096, 512⟩

/-- On 2 TiB the bound is cut to zero, and the second read goes where the first
one went; no run makes up for it. -/
theorem firstPass_repeats : ∃ s,
    Lib.Reach (step twoTib.options) Label.Regular (init twoTib.options default) s ∧
      (s.sentOf .read).map Cmd.span = [⟨0, 8⟩, ⟨0, 8⟩] ∧ 2 ≤ twoTib.blocks .read ∧
      ∀ t, Lib.Reach (step twoTib.options) (fun _ => True) (init twoTib.options default) t →
        2 ≤ (t.sentOf .read).length → ¬ FirstPass twoTib .read t := by
  obtain ⟨s, hrun, hs⟩ : ∃ s, Lib.Reach (step twoTib.options) Label.Regular (init twoTib.options default) s ∧
      decide ((s.sentOf .read).map Cmd.span = [⟨0, 8⟩, ⟨0, 8⟩]) = true :=
    Lib.Reach.of_check [.send default true 0, .send default true 0]
      (by simp [Label.Regular, Label.Counts, Label.NoError]) (by decide +kernel)
  refine ⟨s, hrun, of_decide_eq_true hs, by decide, fun t ht hlen => ?_⟩
  exact not_firstPass (follows_reach ht .read) (by decide) (by decide) (by decide) (by decide) hlen

end IoTester.TailSpdk

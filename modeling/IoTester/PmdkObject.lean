import IoTester.Lib.Machine
import Mathlib.Logic.Function.Basic

/-!
# `pmdk_example/pmdk_object_test.cc`: counters that outlive the process

The root of a pool has four pointers to nodes. A run goes a hundred times through
the nodes: it allocates a node that is not there, sets its value to zero, prints
the value and adds the number of the node. The pools are mapped files, so what a
process has stored is there for the next one, also when the process is killed
between two of its stores. `pmemobj_alloc` leaves in a new node whatever was in
that part of the pool.

The counters go on from run to run as if there had been one run, unless a process
is killed between the allocation of a node and the store of its first zero.
-/

namespace IoTester.PmdkObject

open Lib

def rounds : Nat := 100

def nodeCount : Nat := 4

inductive Pc where
  | down
  | look (j i : Nat)
  | alloc (j i : Nat)
  | init (j i : Nat)
  | print (j i : Nat)
  | add (j i : Nat)
  deriving Repr, DecidableEq

/-- The pools and the process. An object is the number of its allocation. How
often a node was added to is not in the pools; it records what the program did. -/
structure State where
  nodes : Nat → Option Nat := fun _ => none
  value : Nat → UInt64 := fun _ => 0
  objects : Nat := 0
  pc : Pc := .down
  out : List (Nat × UInt64) := []
  added : Nat → Nat := fun _ => 0

/-- `alloc none` is an allocation that fails, and `kill true` a signal after the
allocation of a node and before its first store. -/
inductive Label where
  | start
  | look
  | alloc (content : Option UInt64)
  | init
  | print
  | add
  | kill (window : Bool)
  deriving Repr, DecidableEq

/-- The heads of the two loops. -/
def next (j i : Nat) : Pc :=
  if i + 1 < nodeCount then .look j (i + 1) else if j + 1 < rounds then .look (j + 1) 0 else .down

-- `pmemobj_persist` changes nothing that a later process reads from the mapped file
def step (s : State) (l : Label) : Option State :=
  match s.pc, l with
  | .down, .start => some { s with pc := .look 0 0 }
  | .look j i, .look => some { s with pc := if s.nodes i = none then .alloc j i else .print j i }
  -- the null pointer of a failed allocation is written through
  | .alloc _ _, .alloc none => some { s with pc := .down }
  | .alloc j i, .alloc (some content) =>
    some { s with
      nodes := Function.update s.nodes i (some s.objects)
      value := Function.update s.value s.objects content
      objects := s.objects + 1
      pc := .init j i }
  | .init j i, .init => (s.nodes i).map fun o => { s with value := Function.update s.value o 0, pc := .print j i }
  | .print j i, .print => (s.nodes i).map fun o => { s with out := s.out ++ [(i, s.value o)], pc := .add j i }
  | .add j i, .add =>
    (s.nodes i).map fun o => { s with
      value := Function.update s.value o (s.value o + UInt64.ofNat i)
      added := Function.update s.added i (s.added i + 1)
      pc := next j i }
  | .init _ _, .kill true => some { s with pc := .down }
  | .look _ _, .kill false | .alloc _ _, .kill false | .print _ _, .kill false | .add _ _, .kill false =>
    some { s with pc := .down }
  | _, _ => none

/-! ## What a step can do -/

/-- No process is killed, and no allocation fails. -/
def Label.Whole : Label → Prop
  | .kill _ | .alloc none => False
  | _ => True

instance : DecidablePred Label.Whole := fun l => by
  unfold Label.Whole
  split <;> infer_instance

inductive Moves (s : State) : Label → State → Prop
  | start : s.pc = .down → Moves s .start { s with pc := .look 0 0 }
  | look (j i : Nat) : s.pc = .look j i →
      Moves s .look { s with pc := if s.nodes i = none then .alloc j i else .print j i }
  | stop (l : Label) : ¬ l.Whole → (∀ j i, s.pc ≠ .init j i) → Moves s l { s with pc := .down }
  | alloc (j i : Nat) (content : UInt64) : s.pc = .alloc j i → Moves s (.alloc (some content))
      { s with
        nodes := Function.update s.nodes i (some s.objects)
        value := Function.update s.value s.objects content
        objects := s.objects + 1
        pc := .init j i }
  | init (j i o : Nat) : s.pc = .init j i → s.nodes i = some o →
      Moves s .init { s with value := Function.update s.value o 0, pc := .print j i }
  | print (j i o : Nat) : s.pc = .print j i → s.nodes i = some o →
      Moves s .print { s with out := s.out ++ [(i, s.value o)], pc := .add j i }
  | add (j i o : Nat) : s.pc = .add j i → s.nodes i = some o → Moves s .add
      { s with
        value := Function.update s.value o (s.value o + UInt64.ofNat i)
        added := Function.update s.added i (s.added i + 1)
        pc := next j i }
  | lose (j i : Nat) : s.pc = .init j i → Moves s (.kill true) { s with pc := .down }

theorem step_moves {s t : State} {l : Label} (h : step s l = some t) : Moves s l t := by
  unfold step at h
  split at h
  · rename_i hpc
    cases h
    exact .start hpc
  · rename_i j i hpc
    cases h
    exact .look j i hpc
  · rename_i hpc
    cases h
    exact .stop _ (by simp [Label.Whole]) (by simp [hpc])
  · rename_i j i content hpc
    cases h
    exact .alloc j i content hpc
  · rename_i j i hpc
    obtain ⟨o, ho, rfl⟩ := Option.map_eq_some_iff.mp h
    exact .init j i o hpc ho
  · rename_i j i hpc
    obtain ⟨o, ho, rfl⟩ := Option.map_eq_some_iff.mp h
    exact .print j i o hpc ho
  · rename_i j i hpc
    obtain ⟨o, ho, rfl⟩ := Option.map_eq_some_iff.mp h
    exact .add j i o hpc ho
  · rename_i j i hpc
    cases h
    exact .lose j i hpc
  · rename_i hpc
    cases h
    exact .stop _ (by simp [Label.Whole]) (by simp [hpc])
  · rename_i hpc
    cases h
    exact .stop _ (by simp [Label.Whole]) (by simp [hpc])
  · rename_i hpc
    cases h
    exact .stop _ (by simp [Label.Whole]) (by simp [hpc])
  · rename_i hpc
    cases h
    exact .stop _ (by simp [Label.Whole]) (by simp [hpc])
  · cases h

/-! ## The counters -/

structure Inv (s : State) : Prop where
  fresh : ∀ ⦃i o : Nat⦄, s.nodes i = some o → o < s.objects
  inj : ∀ ⦃i k o : Nat⦄, s.nodes i = some o → s.nodes k = some o → i = k
  missing : ∀ ⦃j i : Nat⦄, s.pc = .alloc j i → s.nodes i = none
  none : ∀ ⦃i : Nat⦄, s.nodes i = none → s.added i = 0
  new : ∀ ⦃j i : Nat⦄, s.pc = .init j i → s.added i = 0
  value : ∀ ⦃i o : Nat⦄, s.nodes i = some o → (∀ j, s.pc ≠ .init j i) → s.value o = UInt64.ofNat (i * s.added i)
  out : ∀ ⦃i : Nat⦄ ⦃v : UInt64⦄, (i, v) ∈ s.out → ∃ m ≤ s.added i, v = UInt64.ofNat (i * m)

theorem inv_init : Inv {} where
  fresh := by simp
  inj := by simp
  missing := by simp
  none := by simp
  new := by simp
  value := by simp
  out := by simp

namespace Inv

variable {s : State} (h : Inv s)
include h

/-- The process goes on or goes down; the pools stay as they are. -/
theorem goto {pc : Pc} (hfrom : ∀ j i, s.pc ≠ .init j i) (hto : ∀ j i, pc ≠ .init j i)
    (hmissing : ∀ j i, pc = .alloc j i → s.nodes i = .none) : Inv { s with pc } where
  fresh := h.fresh
  inj := h.inj
  missing := hmissing
  none := h.none
  new := fun j i hpc => absurd hpc (hto j i)
  value := fun i _ ho _ => h.value ho fun j => hfrom j i
  out := h.out

theorem alloc {j i : Nat} (content : UInt64) (hpc : s.pc = .alloc j i) :
    Inv { s with
      nodes := Function.update s.nodes i (some s.objects)
      value := Function.update s.value s.objects content
      objects := s.objects + 1
      pc := .init j i } := by
  have hmissing := h.missing hpc
  refine ⟨?_, ?_, by simp, ?_, ?_, ?_, h.out⟩
  · intro k o ho
    dsimp only at ho ⊢
    by_cases hk : k = i
    · subst hk
      simp at ho
      omega
    · rw [Function.update_of_ne hk] at ho
      exact Nat.lt_succ_of_lt (h.fresh ho)
  · intro k k' o ho ho'
    dsimp only at ho ho'
    by_cases hk : k = i
    · by_cases hk' : k' = i
      · rw [hk, hk']
      · subst hk
        rw [Function.update_of_ne hk'] at ho'
        simp at ho
        exact absurd (h.fresh ho') (by omega)
    · rw [Function.update_of_ne hk] at ho
      by_cases hk' : k' = i
      · subst hk'
        simp at ho'
        exact absurd (h.fresh ho) (by omega)
      · rw [Function.update_of_ne hk'] at ho'
        exact h.inj ho ho'
  · intro k hk
    dsimp only at hk ⊢
    by_cases hki : k = i
    · subst hki
      exact h.none hmissing
    · rw [Function.update_of_ne hki] at hk
      exact h.none hk
  · intro j' k hk
    cases hk
    exact h.none hmissing
  · intro k o ho hk
    dsimp only at ho hk ⊢
    have hki : k ≠ i := by
      intro hki
      subst hki
      exact hk j rfl
    rw [Function.update_of_ne hki] at ho
    rw [Function.update_of_ne (Nat.ne_of_lt (h.fresh ho))]
    exact h.value ho (by simp [hpc])

theorem init {j i o : Nat} (hpc : s.pc = .init j i) (ho : s.nodes i = some o) :
    Inv { s with value := Function.update s.value o 0, pc := .print j i } := by
  refine ⟨h.fresh, h.inj, by simp, h.none, by simp, ?_, h.out⟩
  intro k o' ho' _
  dsimp only at ho' ⊢
  by_cases hk : k = i
  · subst hk
    rw [ho] at ho'
    cases ho'
    simp [h.new hpc]
  · have hne : o' ≠ o := by
      intro he
      subst he
      exact hk (h.inj ho' ho)
    rw [Function.update_of_ne hne]
    refine h.value ho' fun j' hj' => ?_
    rw [hpc] at hj'
    cases hj'
    exact hk rfl

theorem print {j i o : Nat} (hpc : s.pc = .print j i) (ho : s.nodes i = some o) :
    Inv { s with out := s.out ++ [(i, s.value o)], pc := .add j i } := by
  refine ⟨h.fresh, h.inj, by simp, h.none, by simp, fun k o' ho' _ => h.value ho' (by simp [hpc]), ?_⟩
  intro k v hv
  rcases List.mem_append.mp hv with hv | hv
  · exact h.out hv
  · cases List.mem_singleton.mp hv
    exact ⟨s.added i, Nat.le_refl _, h.value ho (by simp [hpc])⟩

theorem add {j i o : Nat} (hpc : s.pc = .add j i) (ho : s.nodes i = some o) :
    Inv { s with
      value := Function.update s.value o (s.value o + UInt64.ofNat i)
      added := Function.update s.added i (s.added i + 1)
      pc := next j i } := by
  have hnext : ∀ j' k, next j i ≠ .init j' k ∧ next j i ≠ .alloc j' k := by
    intro j' k
    unfold next
    split
    · simp
    · split <;> simp
  refine ⟨h.fresh, h.inj, fun j' k hk => absurd hk (hnext j' k).2, ?_, fun j' k hk => absurd hk (hnext j' k).1, ?_, ?_⟩
  · intro k hk
    dsimp only at hk ⊢
    have hki : k ≠ i := by
      intro hki
      rw [hki, ho] at hk
      cases hk
    rw [Function.update_of_ne hki]
    exact h.none hk
  · intro k o' ho' _
    dsimp only at ho' ⊢
    by_cases hk : k = i
    · subst hk
      rw [ho] at ho'
      cases ho'
      rw [Function.update_self, Function.update_self, h.value ho (by simp [hpc]), Nat.mul_add, Nat.mul_one,
        UInt64.ofNat_add]
    · have hne : o' ≠ o := by
        intro he
        subst he
        exact hk (h.inj ho' ho)
      rw [Function.update_of_ne hne, Function.update_of_ne hk]
      exact h.value ho' (by simp [hpc])
  · intro k v hv
    obtain ⟨m, hm, hv⟩ := h.out hv
    refine ⟨m, ?_, hv⟩
    dsimp only
    by_cases hk : k = i
    · subst hk
      rw [Function.update_self]
      exact Nat.le_succ_of_le hm
    · rwa [Function.update_of_ne hk]

theorem step {t : State} {l : Label} (hl : l ≠ .kill true) (hs : PmdkObject.step s l = some t) : Inv t := by
  cases step_moves hs with
  | start hpc => exact h.goto (by simp [hpc]) (by simp) (by simp)
  | look j i hpc =>
    by_cases hi : s.nodes i = .none
    · rw [if_pos hi]
      refine h.goto (by simp [hpc]) (by simp) ?_
      intro j' i' he
      cases he
      exact hi
    · rw [if_neg hi]
      exact h.goto (by simp [hpc]) (by simp) (by simp)
  | stop _ _ hpc => exact h.goto hpc (by simp) (by simp)
  | alloc j i content hpc => exact h.alloc content hpc
  | init j i o hpc ho => exact h.init hpc ho
  | print j i o hpc ho => exact h.print hpc ho
  | add j i o hpc ho => exact h.add hpc ho
  | lose => exact absurd rfl hl

end Inv

/-- **Counters outlive the process.** However often the process is killed, as long
as no signal comes between an allocation and the first store to the node, the
value of a node is its number times the additions to it, over all runs; and no
run prints anything but such a value. -/
theorem counts_survive_kills {s : State} (h : Reach step (fun l => l ≠ .kill true) {} s) (i : Nat) :
    (∀ o, s.nodes i = some o → (∀ j, s.pc ≠ .init j i) → s.value o = UInt64.ofNat (i * s.added i)) ∧
      ∀ v, (i, v) ∈ s.out → ∃ m ≤ s.added i, v = UInt64.ofNat (i * m) := by
  have hinv := h.invariant inv_init fun hl hs hs' => hs'.step hl hs
  exact ⟨fun o ho hpc => hinv.value ho hpc, fun v hv => hinv.out hv⟩

/-- A run that is killed after it has printed and before it adds, and the next one. -/
def killed : List Label :=
  [.start, .look, .alloc (some 7), .init, .print, .add, .look, .alloc (some 9), .init, .print, .kill false,
    .start, .look, .print, .add, .look, .print, .add, .kill false]

theorem counts_survive_kills_twice : ∃ s, Reach step (fun l => l ≠ .kill true) {} s ∧
    s.added 1 = 1 ∧ s.nodes 1 = some 1 ∧ s.value 1 = 1 := by
  obtain ⟨s, hs, hend⟩ : ∃ s, Reach step (fun l => l ≠ .kill true) {} s ∧
      decide (s.added 1 = 1 ∧ s.nodes 1 = some 1 ∧ s.pc = .down) = true :=
    Reach.of_check killed (by decide) (by decide +kernel)
  obtain ⟨hadded, hnode, hpc⟩ := of_decide_eq_true hend
  have hvalue := (counts_survive_kills hs 1).1 1 hnode (by simp [hpc])
  exact ⟨s, hs, hadded, hnode, by rw [hvalue, hadded]; rfl⟩

/-! ## Whole runs -/

/-- The additions to node `i` that the process still has before it. -/
def Pc.left (i : Nat) : Pc → Nat
  | .down => 0
  | .look j k | .alloc j k | .init j k | .print j k | .add j k => rounds - j - if i < k then 1 else 0

def Pc.Inside : Pc → Prop
  | .down => True
  | .look j k | .alloc j k | .init j k | .print j k | .add j k => j < rounds ∧ k < nodeCount

/-- Every start of the program stands for a hundred additions to each node. -/
structure Adds (starts : Nat) (s : State) : Prop where
  inside : s.pc.Inside
  left : ∀ i < nodeCount, s.added i + s.pc.left i = rounds * starts

/-- The heads of the loops, after the addition to node `k`. -/
theorem adds_next {n j k : Nat} {s : State} (hin : j < rounds ∧ k < nodeCount)
    (hleft : ∀ i < nodeCount, s.added i + (Pc.add j k).left i = rounds * n) {value : Nat → UInt64} :
    Adds n { s with value, added := Function.update s.added k (s.added k + 1), pc := next j k } := by
  have hadded : ∀ i, Function.update s.added k (s.added k + 1) i = s.added i + if i = k then 1 else 0 := by
    intro i
    by_cases hi : i = k
    · subst hi
      simp
    · simp [hi]
  unfold next
  by_cases hk : k + 1 < nodeCount
  · rw [if_pos hk]
    refine ⟨⟨hin.1, hk⟩, fun i hi => ?_⟩
    have hi := hleft i hi
    simp only [Pc.left, hadded] at hi ⊢
    split at hi <;> split <;> split <;> omega
  · rw [if_neg hk]
    by_cases hj : j + 1 < rounds
    · rw [if_pos hj]
      refine ⟨⟨hj, by decide⟩, fun i hi => ?_⟩
      have hi' := hleft i hi
      simp only [Pc.left, hadded, Nat.not_lt_zero, if_false] at hi' ⊢
      split at hi' <;> split <;> omega
    · rw [if_neg hj]
      refine ⟨trivial, fun i hi => ?_⟩
      have hi' := hleft i hi
      simp only [Pc.left, hadded] at hi' ⊢
      split at hi' <;> split <;> omega

theorem adds_step {ls : List Label} {s t : State} {l : Label} (hl : l.Whole) (hs : step s l = some t)
    (h : Adds (ls.count .start) s) : Adds ((ls ++ [l]).count .start) t := by
  obtain ⟨hinside, hleft⟩ := h
  cases step_moves hs with
  | start hpc =>
    refine ⟨⟨by decide, by decide⟩, fun i hi => ?_⟩
    have hi := hleft i hi
    simp only [hpc, Pc.left, Nat.not_lt_zero, if_false, List.count_append, List.count_singleton_self,
      Nat.mul_add] at hi ⊢
    omega
  | look j i hpc =>
    rw [hpc] at hinside hleft
    have hsame : ([Label.look].count .start) = 0 := rfl
    rw [List.count_append, hsame, Nat.add_zero]
    by_cases hi : s.nodes i = none
    · rw [if_pos hi]
      exact ⟨hinside, hleft⟩
    · rw [if_neg hi]
      exact ⟨hinside, hleft⟩
  | stop _ hstop _ => exact absurd hl hstop
  | alloc j i content hpc =>
    rw [hpc] at hinside hleft
    rw [List.count_append]
    exact ⟨hinside, hleft⟩
  | init j i o hpc _ =>
    rw [hpc] at hinside hleft
    rw [List.count_append]
    exact ⟨hinside, hleft⟩
  | print j i o hpc _ =>
    rw [hpc] at hinside hleft
    rw [List.count_append]
    exact ⟨hinside, hleft⟩
  | add j i o hpc _ =>
    rw [hpc] at hinside hleft
    rw [List.count_append]
    exact adds_next hinside hleft
  | lose => exact absurd hl id

/-- **Runs add up.** After any number of whole runs, each has added a hundred times
to every node, and from the first run on the nodes are there. -/
theorem runs_add_up {ls : List Label} (hls : ∀ l ∈ ls, l.Whole) {s : State} (h : runs step {} ls = some s)
    (hpc : s.pc = .down) (i : Nat) (hi : i < nodeCount) :
    s.added i = rounds * ls.count .start ∧ (0 < ls.count .start → s.nodes i ≠ none) ∧
      ∀ o, s.nodes i = some o → s.value o = UInt64.ofNat (i * (rounds * ls.count .start)) := by
  have hadds := runs_invariant (P := fun ls s => Adds (ls.count .start) s) (fun hl hs ha => adds_step hl hs ha) ls [] {}
    hls ⟨trivial, fun _ _ => rfl⟩ h
  have hadded := hadds.left i hi
  rw [hpc, List.nil_append] at hadded
  have hsurvive : Reach step (fun l => l ≠ .kill true) {} s := by
    refine Reach.of_runs ls _ (fun l hl he => ?_) h
    have hwhole := hls l hl
    rw [he] at hwhole
    exact hwhole
  have hinv := hsurvive.invariant inv_init fun hl hs hs' => hs'.step hl hs
  refine ⟨hadded, fun hstart hnone => ?_, fun o ho => ?_⟩
  · have hpos : 0 < rounds * ls.count .start := Nat.mul_pos (by decide) hstart
    exact absurd ((hinv.none hnone).symm.trans hadded) (Nat.ne_of_lt hpos)
  · rw [← hadded]
    exact hinv.value ho (by simp [hpc])

/-- One run over new pools. -/
def wholeRun : List Label :=
  .start :: (List.range (rounds * nodeCount)).flatMap fun n =>
    if n < nodeCount then [.look, .alloc (some 5), .init, .print, .add] else [.look, .print, .add]

theorem runs_add_up_first_run : ∃ s, runs step {} wholeRun = some s ∧ s.pc = .down ∧ s.nodes 3 = some 3 ∧
    s.value 3 = 300 := by
  obtain ⟨s, hs, hend⟩ := (Option.any_eq_true (fun s : State => decide (s.pc = .down ∧ s.nodes 3 = some 3))
    (runs step {} wholeRun)).mp (by decide +kernel)
  obtain ⟨hpc, hnode⟩ := of_decide_eq_true hend
  have hstarts : wholeRun.count .start = 1 := by decide +kernel
  have hvalue := (runs_add_up (by decide +kernel) hs hpc 3 (by decide)).2.2 3 hnode
  exact ⟨s, hs, hpc, hnode, by rw [hvalue, hstarts]; rfl⟩

/-! ## A kill before the first store -/

/-- A node that a process has allocated and no process has set to zero. -/
structure Held (i o : Nat) (g : UInt64) (s : State) : Prop where
  node : s.nodes i = some o
  value : s.value o = g + UInt64.ofNat (i * s.added i)
  fresh : o < s.objects
  alone : ∀ ⦃k : Nat⦄, s.nodes k = some o → k = i
  away : ∀ j, s.pc ≠ .alloc j i ∧ s.pc ≠ .init j i

theorem Held.step {i o : Nat} {g : UInt64} {s t : State} {l : Label} (hs : step s l = some t) (h : Held i o g s) :
    Held i o g t := by
  cases step_moves hs with
  | start => exact ⟨h.node, h.value, h.fresh, h.alone, by simp⟩
  | look j k hpc =>
    by_cases hk : s.nodes k = none
    · rw [if_pos hk]
      refine ⟨h.node, h.value, h.fresh, h.alone, fun j' => ⟨?_, by simp⟩⟩
      intro he
      cases he
      rw [h.node] at hk
      cases hk
    · rw [if_neg hk]
      exact ⟨h.node, h.value, h.fresh, h.alone, by simp⟩
  | stop => exact ⟨h.node, h.value, h.fresh, h.alone, by simp⟩
  | alloc j k content hpc =>
    have hki : i ≠ k := by
      intro hki
      subst hki
      exact (h.away j).1 hpc
    refine ⟨?_, ?_, Nat.lt_succ_of_lt h.fresh, ?_, ?_⟩
    · simpa [hki] using h.node
    · simpa [Nat.ne_of_lt h.fresh] using h.value
    · intro k' hk'
      dsimp only at hk'
      by_cases hkk : k' = k
      · subst hkk
        simp at hk'
        exact absurd h.fresh (by omega)
      · rw [Function.update_of_ne hkk] at hk'
        exact h.alone hk'
    · simp [hki.symm]
  | init j k o' hpc ho' =>
    have hne : o ≠ o' := by
      intro he
      subst he
      have hki := h.alone ho'
      subst hki
      exact (h.away j).2 hpc
    exact ⟨h.node, by simpa [hne] using h.value, h.fresh, h.alone, by simp⟩
  | print => exact ⟨h.node, h.value, h.fresh, h.alone, by simp⟩
  | add j k o' hpc ho' =>
    refine ⟨h.node, ?_, h.fresh, h.alone, ?_⟩
    · dsimp only
      by_cases hk : k = i
      · subst hk
        rw [h.node] at ho'
        cases ho'
        rw [Function.update_self, Function.update_self, h.value, Nat.mul_add, Nat.mul_one, UInt64.ofNat_add,
          UInt64.add_assoc]
      · have hne : o ≠ o' := by
          intro he
          subst he
          exact hk (h.alone ho')
        rw [Function.update_of_ne hne, Function.update_of_ne (Ne.symm hk)]
        exact h.value
    · intro j'
      unfold next
      split
      · simp
      · split <;> simp
  | lose => exact ⟨h.node, h.value, h.fresh, h.alone, by simp⟩

/-- The first run comes to each node, and finds none. -/
theorem exists_look : ∀ i < nodeCount, ∃ s, Reach step (fun l => l ≠ .kill true) {} s ∧
    s.pc = .look 0 i ∧ ∀ k, i ≤ k → s.nodes k = none
  | 0, _ => ⟨{ pc := .look 0 0 }, .next (l := .start) .refl (by simp) rfl, rfl, by simp⟩
  | i + 1, hi => by
    obtain ⟨s, hs, hpc, hnone⟩ := exists_look i (Nat.lt_of_succ_lt hi)
    have hi' : s.nodes i = none := hnone i (Nat.le_refl i)
    obtain ⟨t, ht, hend⟩ : ∃ t, runs step s [.look, .alloc (some 0), .init, .print, .add] = some t ∧
        t.pc = .look 0 (i + 1) ∧ t.nodes = Function.update s.nodes i (some s.objects) := by
      simp [runs, step, hpc, hi', next, hi]
    refine ⟨t, hs.trans (Reach.of_runs _ s (by decide) ht), hend.1, fun k hk => ?_⟩
    rw [hend.2, Function.update_of_ne (by omega)]
    exact hnone k (by omega)

/-- **A kill at the wrong time.** Whatever the pool holds where a node is
allocated, there is a run after which the node counts from that value, for ever
and whatever happens. -/
theorem garbage_stays (i : Nat) (hi : i < nodeCount) (g : UInt64) :
    ∃ s o, Reach step (fun _ => True) {} s ∧
      ∀ t, Reach step (fun _ => True) s t → t.nodes i = some o ∧ t.value o = g + UInt64.ofNat (i * t.added i) := by
  obtain ⟨s, hs, hpc, hnone⟩ := exists_look i hi
  have hinv := hs.invariant inv_init fun hl hs hs' => hs'.step hl hs
  have hi' : s.nodes i = none := hnone i (Nat.le_refl i)
  let u : State := { s with
    nodes := Function.update s.nodes i (some s.objects)
    value := Function.update s.value s.objects g
    objects := s.objects + 1
    pc := .down }
  have hu : runs step s [.look, .alloc (some g), .kill true] = some u := by
    simp [runs, step, hpc, hi', u]
  have hheld : Held i s.objects g u := by
    refine ⟨by simp [u], by simp [u, hinv.none hi'], Nat.lt_succ_self _, fun k hk => ?_, by simp [u]⟩
    by_cases hki : k = i
    · exact hki
    · simp only [u, Function.update_of_ne hki] at hk
      exact absurd (hinv.fresh hk) (Nat.lt_irrefl _)
  refine ⟨u, s.objects, (hs.mono fun _ _ => trivial).trans (Reach.of_runs _ s (fun _ _ => trivial) hu), fun t ht => ?_⟩
  have hheld := ht.invariant hheld fun _ hs h => h.step hs
  exact ⟨hheld.node, hheld.value⟩

theorem garbage_stays_third :
    ∃ s o, Reach step (fun _ => True) {} s ∧
      ∀ t, Reach step (fun _ => True) s t → t.nodes 2 = some o ∧ t.value o = 1000 + UInt64.ofNat (2 * t.added 2) :=
  garbage_stays 2 (by decide) 1000

end IoTester.PmdkObject

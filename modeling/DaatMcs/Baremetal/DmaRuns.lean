/-
# The cores and the DMA channels, running

The DMA tests of `baremetal_CCI` as a system: the master deals the channels to
the cores, sets the channels up and then sets `master_done`, for which all
cores wait; each core then goes through its channels over and over, and starts
one that it finds finished. Between the check and the start other cores and
the DMA engine go on.

In every run a channel is started by the core it was dealt to, while it is
finished, and with the settings of the test; without coherency these leave
the coherency as it was before (`starts_spec`). And from every reachable state
every channel can be started once more (`can_start`).
-/
import DaatMcs.Baremetal.DmaCores
import DaatMcs.Baremetal.Zdma
import DaatMcs.Lib.Steps

namespace DaatMcs
namespace DmaRuns

open Registers RoundRobin Steps Zdma DmaCores

/-! ### The program -/

/-- What the program is built with: the test, `NUM_CPUS`, `DMA_CHANNELS` and
`COHERENCY`. -/
structure Build where
  test : DmaTest
  numCpus : ℕ
  dmaChannels : ℕ
  coherent : Bool
  cpus : test.startCore < numCpus
  channels : dmaChannels ≤ maxDmaCh

/-- `dma_pairs` -/
def dmaPairs : List (BitVec 64 × BitVec 64) :=
  [(0x80040#64, 0x80140#64), (0x80050#64, 0x80150#64), (0x80060#64, 0x80160#64), (0x80070#64, 0x80170#64),
    (0x800C0#64, 0x801C0#64), (0x800D0#64, 0x801D0#64), (0x800E0#64, 0x801E0#64), (0x800F0#64, 0x801F0#64)]

/-- `dma_pairs[ch % NUM_TXN]` -/
def txn (ch : ℕ) : BitVec 64 × BitVec 64 := dmaPairs.getD (ch % 8) (0, 0)

/-- What the master does before it sets `master_done`. -/
inductive Task
  | assign
  | call (ch : ℕ) (c : Call)
  deriving DecidableEq, Repr

def Build.tasks (b : Build) : List Task :=
  .assign ::
    ((List.range b.dmaChannels).flatMap fun ch => [.call ch (.init .simple), .call ch (.setSize 32#64)]) ++
    ((List.range b.dmaChannels).flatMap fun ch =>
      [.call ch (.setSrcAddr (txn ch).1), .call ch (.setDstAddr (txn ch).2)]) ++
    (List.range b.dmaChannels).flatMap fun ch =>
      [.call ch (if b.coherent then .setCoherent else .setNoncoherent)]

/-- Where a core stands: before `master_done`; in `run_core` with the channels
`chs` left, none being the loop of `main`; or past the check of `ch`. -/
inductive Pc
  | waiting
  | round (chs : List ℕ)
  | finished (ch : ℕ) (chs : List ℕ)
  deriving DecidableEq, Repr

/-- A call of `zdma_ch_start`, with the registers it found. -/
structure Start where
  core : ℕ
  ch : ℕ
  regs : Regs

structure System where
  tables : Tables
  regs : ℕ → Regs
  setup : List Task
  masterDone : Bool
  coreState : ℕ → ℕ
  pc : ℕ → Pc
  starts : List Start

def System.goto (s : System) (k : ℕ) (p : Pc) : System := { s with pc := Function.update s.pc k p }

def System.setReg (s : System) (ch : ℕ) (r : ZdmaReg) (v : BitVec 32) : System :=
  { s with regs := Function.update s.regs ch (modify (s.regs ch) r fun _ => v) }

/-- The master, a core, or the engine, which ends a transfer or changes the
status of a channel. -/
inductive Event
  | master
  | core (k : ℕ)
  | finish (ch : ℕ)
  | status (ch : ℕ) (v : BitVec 32)
  deriving DecidableEq, Repr

/-- A task of the master; a call that waits for the status is not done yet. -/
def masterStep (b : Build) (s : System) : Option System :=
  match s.setup with
  | [] => if s.masterDone then none else some { s with masterDone := true }
  | .assign :: rest =>
    match assignZdmaChannels b.numCpus b.dmaChannels b.test.startCore s.tables with
    | .ok t => some { s with tables := t, setup := rest }
    | .error _ => none
  | .call ch c :: rest =>
    (c.apply (s.regs ch)).map fun r => { s with regs := Function.update s.regs ch r, setup := rest }

/-- The wait for `master_done`, and the loop of `main` around `dma_interf_en`. -/
def coreStep (s : System) (k : ℕ) : System :=
  match s.pc k with
  | .waiting => if s.masterDone then s.goto k (.round []) else s
  | .round [] =>
    if 0 < s.tables.assigned k then
      { s with coreState := Function.update s.coreState k 1 }.goto k (.round (s.tables.channels k))
    else { s with coreState := Function.update s.coreState k 0 }
  | .round (ch :: chs) => s.goto k (if s.regs ch .ctrl2 = 0#32 then .finished ch chs else .round chs)
  | .finished ch chs =>
    { (s.setReg ch .ctrl2 1#32).goto k (.round chs) with starts := s.starts ++ [⟨k, ch, s.regs ch⟩] }

def step (b : Build) (s : System) : Event → Option System
  | .master => masterStep b s
  | .core k => if k ∈ b.test.cores b.numCpus then some (coreStep s k) else none
  | .finish ch => some (s.setReg ch .ctrl2 0#32)
  | .status ch v => some (s.setReg ch .status v)

/-- The master is before its first task, and the cores wait. -/
structure Initial (b : Build) (s : System) : Prop where
  setup : s.setup = b.tasks
  masterDone : s.masterDone = false
  pc : ∀ k, s.pc k = .waiting
  starts : s.starts = []

/-- The settings a channel is to be started with; without coherency it keeps
the one it had. -/
def Build.settings (b : Build) (ch : ℕ) (before : Regs) : Setting → Value
  | .mode => .mode (some .simple)
  | .srcAddr => .addr (txn ch).1
  | .dstAddr => .addr (txn ch).2
  | .srcSize => .size 32
  | .dstSize => .size 32
  | .srcCoherent => if b.coherent then .flag true else read before .srcCoherent
  | .dstCoherent => if b.coherent then .flag true else read before .dstCoherent

/-- The core a channel is dealt to. -/
def Build.owner (b : Build) (ch : ℕ) : ℕ := b.test.startCore + ch % (b.numCpus - b.test.startCore)

/-! ### The setup of a channel -/

/-- The call a task makes for a channel. -/
def Task.callOn (ch : ℕ) : Task → Option Call
  | .assign => none
  | .call ch' c => if ch' = ch then some c else none

theorem filterMap_callOn (ch : ℕ) (calls : ℕ → List Call) (n : ℕ) :
    ((List.range n).flatMap fun i => (calls i).map (Task.call i)).filterMap (Task.callOn ch) =
      if ch < n then calls ch else [] := by
  have hself : ∀ i, ((calls i).map (Task.call i)).filterMap (Task.callOn ch) = if i = ch then calls i else [] := by
    intro i
    rw [List.filterMap_map]
    by_cases hi : i = ch
    · simp [Task.callOn, hi]
    · simp [Task.callOn, hi, Function.comp_def]
  induction n with
  | zero => rfl
  | succ n ih =>
    rw [List.range_succ, List.flatMap_append, List.filterMap_append, ih, List.flatMap_singleton, hself]
    by_cases hn : n = ch
    · subst hn
      simp
    · rw [if_neg hn, List.append_nil]
      exact if_congr (by omega) rfl rfl

/-- The calls for a channel. -/
theorem filterMap_tasks (b : Build) {ch : ℕ} (hch : ch < b.dmaChannels) :
    b.tasks.filterMap (Task.callOn ch) = [.init .simple, .setSize 32#64, .setSrcAddr (txn ch).1,
      .setDstAddr (txn ch).2, if b.coherent then .setCoherent else .setNoncoherent] := by
  have hinit := filterMap_callOn ch (fun _ => [.init .simple, .setSize 32#64]) b.dmaChannels
  have haddr := filterMap_callOn ch (fun i => [.setSrcAddr (txn i).1, .setDstAddr (txn i).2]) b.dmaChannels
  have hcoh := filterMap_callOn ch (fun _ => [if b.coherent then .setCoherent else .setNoncoherent])
    b.dmaChannels
  rw [if_pos hch] at hinit haddr hcoh
  simp only [List.map_cons, List.map_nil] at hinit haddr hcoh
  rw [Build.tasks, List.filterMap_append, List.filterMap_append, List.filterMap_cons_none rfl, hinit, haddr, hcoh]
  rfl

/-- They leave the settings of the test. -/
theorem lastWrite_tasks (b : Build) {ch : ℕ} (hch : ch < b.dmaChannels) (before : Regs) (setting : Setting) :
    (lastWrite (dropped Call.sets (.flag false)) (b.tasks.filterMap (Task.callOn ch)) setting).getD
      (read before setting) = b.settings ch before setting := by
  rw [filterMap_tasks b hch]
  unfold Build.settings
  generalize txn ch = addrs
  cases b.coherent <;> cases setting <;> rfl

theorem tasks_size (b : Build) {ch : ℕ} {c : Call} (h : .call ch c ∈ b.tasks) (size : BitVec 64)
    (hc : c = .setSize size) : size.toNat < 2 ^ 32 := by
  subst hc
  simp only [Build.tasks, List.mem_append, List.mem_cons, List.mem_flatMap, List.not_mem_nil, or_false,
    reduceCtorEq, false_or, Task.call.injEq, Call.setSize.injEq, and_false, exists_const] at h
  rcases h with ⟨i, -, -, rfl⟩ | ⟨i, -, -, h⟩
  · decide
  · cases hb : b.coherent <;> simp [hb] at h

/-! ### The cores and their channels -/

/-- The core a channel is dealt to has it, and no other. -/
theorem mem_channels {b : Build} {t : Tables} (h : Dealt b.numCpus b.test.startCore b.dmaChannels t) {k ch : ℕ}
    (hk : k < b.numCpus) : ch ∈ t.channels k ↔ ch < b.dmaChannels ∧ k = b.owner ch := by
  have hcpus := b.cpus
  have hmod := Nat.mod_lt ch (show 0 < b.numCpus - b.test.startCore by omega)
  unfold Build.owner
  rw [h k hk]
  split
  · rw [mem_dealt]
    omega
  · simp only [List.not_mem_nil, false_iff, not_and]
    omega

theorem mem_cores {b : Build} {k : ℕ} : k ∈ b.test.cores b.numCpus ↔ b.test.startCore ≤ k ∧ k < b.numCpus := by
  rw [DmaTest.cores_eq, List.mem_map]
  constructor
  · rintro ⟨i, hi, rfl⟩
    rw [List.mem_range] at hi
    omega
  · rintro ⟨hle, hlt⟩
    exact ⟨k - b.test.startCore, List.mem_range.mpr (by omega), by omega⟩

theorem owner_mem_cores (b : Build) (ch : ℕ) : b.owner ch ∈ b.test.cores b.numCpus := by
  have hcpus := b.cpus
  have hmod := Nat.mod_lt ch (show 0 < b.numCpus - b.test.startCore by omega)
  rw [mem_cores, Build.owner]
  omega

theorem read_modify (r : Regs) {reg : ZdmaReg} (h : reg = .ctrl2 ∨ reg = .status) (v : BitVec 32)
    (setting : Setting) : read (modify r reg fun _ => v) setting = read r setting := by
  rcases h with rfl | rfl <;> cases setting <;> rfl

/-! ### What holds in every run -/

/-- What a core has read holds still. -/
def At (b : Build) (s : System) (k : ℕ) : Pc → Prop
  | .waiting => True
  | .round chs => k ∈ b.test.cores b.numCpus ∧ ∀ ch ∈ chs, ch ∈ s.tables.channels k
  | .finished ch chs => k ∈ b.test.cores b.numCpus ∧ (∀ ch' ∈ ch :: chs, ch' ∈ s.tables.channels k) ∧
    s.regs ch .ctrl2 = 0#32

/-- The right core started a finished channel, with its settings. -/
structure Right (b : Build) (before : ℕ → Regs) (x : Start) : Prop where
  channel : x.ch < b.dmaChannels
  owner : x.core = b.owner x.ch
  finished : x.regs .ctrl2 = 0#32
  settings : ∀ setting, read x.regs setting = b.settings x.ch (before x.ch) setting

/-- What holds when the master has done the tasks `done`. -/
structure Inv (b : Build) (before : ℕ → Regs) (s : System) (done : List Task) : Prop where
  tasks : done ++ s.setup = b.tasks
  settings : ∀ ch setting, read (s.regs ch) setting =
    (lastWrite (dropped Call.sets (.flag false)) (done.filterMap (Task.callOn ch)) setting).getD
      (read (before ch) setting)
  dealt : .assign ∈ done → Dealt b.numCpus b.test.startCore b.dmaChannels s.tables
  masterDone : s.masterDone = true → s.setup = []
  waiting : s.masterDone = false → ∀ k, s.pc k = .waiting
  pc : ∀ k, At b s k (s.pc k)
  starts : ∀ x ∈ s.starts, s.masterDone = true ∧ Right b before x

theorem Inv.of_initial {b : Build} {s : System} (h : Initial b s) : Inv b s.regs s [] where
  tasks := h.setup
  settings _ _ := rfl
  dealt hmem := absurd hmem List.not_mem_nil
  masterDone hdone := by rw [h.masterDone] at hdone; cases hdone
  waiting _ := h.pc
  pc k := by rw [h.pc k]; trivial
  starts x hx := by rw [h.starts] at hx; cases hx

/-- Once the master is done, the channels are dealt and set up. -/
theorem Inv.of_masterDone {b : Build} {before : ℕ → Regs} {s : System} {done : List Task}
    (h : Inv b before s done) (hdone : s.masterDone = true) :
    Dealt b.numCpus b.test.startCore b.dmaChannels s.tables ∧
      ∀ ch < b.dmaChannels, ∀ setting, read (s.regs ch) setting = b.settings ch (before ch) setting := by
  have htasks := h.tasks
  rw [h.masterDone hdone, List.append_nil] at htasks
  subst htasks
  refine ⟨h.dealt (by simp [Build.tasks]), fun ch hch setting => ?_⟩
  rw [h.settings, lastWrite_tasks b hch]

theorem Inv.masterDone_of_pc {b : Build} {before : ℕ → Regs} {s : System} {done : List Task}
    (h : Inv b before s done) {k : ℕ} (hk : s.pc k ≠ .waiting) : s.masterDone = true := by
  cases hm : s.masterDone with
  | true => rfl
  | false => exact absurd (h.waiting hm k) hk

/-- A task of the master. -/
theorem Inv.master {b : Build} {before : ℕ → Regs} {s t : System} {done : List Task}
    (h : Inv b before s done) (ht : masterStep b s = some t) : ∃ done', Inv b before t done' := by
  unfold masterStep at ht
  split at ht
  · next hsetup =>
    split at ht
    · cases ht
    · cases ht
      exact ⟨done, h.tasks, h.settings, h.dealt, fun _ => hsetup, fun hm => Bool.noConfusion hm, h.pc,
        fun x hx => ⟨rfl, (h.starts x hx).2⟩⟩
  · next rest hsetup =>
    obtain ⟨t', ht', hdealt⟩ := assign_dealt b.cpus b.channels s.tables
    rw [ht'] at ht
    cases ht
    have hm : s.masterDone ≠ true := fun hm => by rw [h.masterDone hm] at hsetup; cases hsetup
    have hwait := h.waiting (Bool.eq_false_iff.mpr hm)
    refine ⟨done ++ [.assign], by simp [← h.tasks, hsetup], fun ch setting => ?_, fun _ => hdealt,
      fun hm' => absurd hm' hm, fun _ => hwait, fun k => by rw [hwait k]; trivial, h.starts⟩
    rw [List.filterMap_append, h.settings, List.filterMap_cons_none rfl, List.filterMap_nil, List.append_nil]
  · next ch c rest hsetup =>
    obtain ⟨r, hr, rfl⟩ := Option.map_eq_some_iff.mp ht
    have hm : s.masterDone ≠ true := fun hm => by rw [h.masterDone hm] at hsetup; cases hsetup
    have hwait := h.waiting (Bool.eq_false_iff.mpr hm)
    have htask : Task.call ch c ∈ b.tasks := by simp [← h.tasks, hsetup]
    refine ⟨done ++ [.call ch c], by simp [← h.tasks, hsetup], fun i setting => ?_,
      fun hmem => h.dealt (by simpa using hmem), fun hm' => absurd hm' hm, fun _ => hwait,
      fun k => by rw [hwait k]; trivial, h.starts⟩
    rw [List.filterMap_append, lastWrite_append]
    by_cases hi : ch = i
    · subst hi
      show read (Function.update s.regs ch r ch) setting = _
      rw [Function.update_self, leaves_of_apply hr, read_leaves _ (tasks_size b htask), h.settings]
      cases hw : dropped Call.sets (.flag false) c setting <;> simp [Task.callOn, lastWrite, hw]
    · show read (Function.update s.regs ch r i) setting = _
      rw [Function.update_of_ne (Ne.symm hi), h.settings]
      simp [Task.callOn, hi, lastWrite]

/-- A register outside of the settings changes: what the cores have read holds
still, unless a channel that one of them has found finished is started. -/
theorem Inv.setReg {b : Build} {before : ℕ → Regs} {s : System} {done : List Task} (h : Inv b before s done)
    {ch : ℕ} {r : ZdmaReg} (hr : r = .ctrl2 ∨ r = .status) {v : BitVec 32}
    (hv : r = .ctrl2 → v = 0#32 ∨ ∀ k chs, s.pc k ≠ .finished ch chs) :
    Inv b before (s.setReg ch r v) done := by
  have hread : ∀ i setting, read ((s.setReg ch r v).regs i) setting = read (s.regs i) setting := by
    intro i setting
    show read (Function.update s.regs ch _ i) setting = _
    by_cases hi : i = ch
    · subst hi
      rw [Function.update_self, read_modify _ hr]
    · rw [Function.update_of_ne hi]
  refine ⟨h.tasks, fun i setting => by rw [hread, h.settings], h.dealt, h.masterDone, h.waiting, fun k => ?_,
    h.starts⟩
  have hk := h.pc k
  show At b (s.setReg ch r v) k (s.pc k)
  cases hpc : s.pc k with
  | waiting => trivial
  | round chs =>
    rw [hpc] at hk
    exact hk
  | finished ch' chs =>
    rw [hpc] at hk
    refine ⟨hk.1, hk.2.1, ?_⟩
    show Function.update s.regs ch _ ch' .ctrl2 = 0#32
    by_cases hch : ch' = ch
    · subst hch
      rw [Function.update_self]
      rcases hr with rfl | rfl
      · rcases hv rfl with rfl | hno
        · exact modify_same ..
        · exact absurd hpc (hno k chs)
      · exact hk.2.2
    · rw [Function.update_of_ne hch]
      exact hk.2.2

/-- A core goes somewhere, and has read what it is to. -/
theorem Inv.goto {b : Build} {before : ℕ → Regs} {s : System} {done : List Task} (h : Inv b before s done)
    (hdone : s.masterDone = true) {k : ℕ} {p : Pc} (hp : At b s k p) : Inv b before (s.goto k p) done := by
  refine ⟨h.tasks, h.settings, h.dealt, h.masterDone, fun hm => ?_, fun j => ?_, h.starts⟩
  · rw [show s.masterDone = false from hm] at hdone
    cases hdone
  · show At b (s.goto k p) j (Function.update s.pc k p j)
    by_cases hj : j = k
    · subst hj
      rw [Function.update_self]
      exact hp
    · rw [Function.update_of_ne hj]
      exact h.pc j

theorem Inv.core {b : Build} {before : ℕ → Regs} {s : System} {done : List Task} (h : Inv b before s done)
    {k : ℕ} (hk : k ∈ b.test.cores b.numCpus) : Inv b before (coreStep s k) done := by
  have hpc := h.pc k
  unfold coreStep
  split
  · split
    · next hm => exact h.goto hm ⟨hk, by simp⟩
    · exact h
  · next hround =>
    split
    · have hm := h.masterDone_of_pc (k := k) (by rw [hround]; exact Pc.noConfusion)
      have hstate : Inv b before { s with coreState := Function.update s.coreState k 1 } done :=
        ⟨h.tasks, h.settings, h.dealt, h.masterDone, h.waiting, h.pc, h.starts⟩
      exact hstate.goto (k := k) (p := .round (s.tables.channels k)) hm ⟨hk, fun _ hch => hch⟩
    · exact ⟨h.tasks, h.settings, h.dealt, h.masterDone, h.waiting, h.pc, h.starts⟩
  · next ch chs hround =>
    have hm := h.masterDone_of_pc (k := k) (by rw [hround]; exact Pc.noConfusion)
    rw [hround] at hpc
    refine h.goto hm ?_
    split
    · next hzero => exact ⟨hk, hpc.2, hzero⟩
    · exact ⟨hk, fun c hc => hpc.2 c (List.mem_cons_of_mem ch hc)⟩
  · next ch chs hfinished =>
    have hm := h.masterDone_of_pc (k := k) (by rw [hfinished]; exact Pc.noConfusion)
    obtain ⟨hdealt, hsettings⟩ := h.of_masterDone hm
    rw [hfinished] at hpc
    have hown : ∀ j, j ∈ b.test.cores b.numCpus → ch ∈ s.tables.channels j → j = b.owner ch := fun j hj hch =>
      ((mem_channels hdealt (mem_cores.mp hj).2).mp hch).2
    have hch := (mem_channels hdealt (mem_cores.mp hk).2).mp (hpc.2.1 ch List.mem_cons_self)
    -- the core is past its check, and no other core has the channel
    have hgone := h.goto (k := k) (p := .round chs) hm ⟨hk, fun c hc => hpc.2.1 c (List.mem_cons_of_mem ch hc)⟩
    have hno : ∀ j chs', (s.goto k (.round chs)).pc j ≠ .finished ch chs' := by
      intro j chs' hj
      have hjk : j ≠ k := by
        rintro rfl
        simp [System.goto] at hj
      have hpcj := hgone.pc j
      rw [hj] at hpcj
      exact hjk ((hown j hpcj.1 (hpcj.2.1 ch List.mem_cons_self)).trans hch.2.symm)
    have hset := hgone.setReg (v := 1#32) (.inl rfl) fun _ => .inr hno
    refine ⟨hset.tasks, hset.settings, hset.dealt, hset.masterDone, hset.waiting, hset.pc, fun x hx => ?_⟩
    rcases List.mem_append.mp hx with hx | hx
    · exact h.starts x hx
    · obtain rfl := List.mem_singleton.mp hx
      exact ⟨hm, hch.1, hch.2, hpc.2.2, hsettings ch hch.1⟩

theorem Inv.step {b : Build} {before : ℕ → Regs} {s t : System} {done : List Task} (h : Inv b before s done)
    {e : Event} (ht : step b s e = some t) : ∃ done', Inv b before t done' := by
  cases e with
  | master => exact h.master ht
  | core k =>
    simp only [DmaRuns.step] at ht
    split at ht
    · next hk =>
      cases ht
      exact ⟨done, h.core hk⟩
    · cases ht
  | finish ch =>
    cases ht
    exact ⟨done, h.setReg (.inl rfl) fun _ => .inl rfl⟩
  | status ch v =>
    cases ht
    exact ⟨done, h.setReg (.inr rfl) fun hr => by cases hr⟩

theorem exists_inv {b : Build} {s t : System} (hs : Initial b s) (ht : Reaches (step b) s t) :
    ∃ done, Inv b s.regs t done :=
  ht.inv (I := fun t => ∃ done, Inv b s.regs t done) (fun _ _ _ ⟨_, h⟩ he => h.step he)
    ⟨[], Inv.of_initial hs⟩

/-- **Every start is right**: in every run the channels are started by the
cores they were dealt to, while they are finished, with the settings of the
test; and none is before the master is done. -/
theorem starts_spec {b : Build} {s t : System} (hs : Initial b s) (ht : Reaches (step b) s t) :
    ∀ x ∈ t.starts, t.masterDone = true ∧ Right b s.regs x := by
  obtain ⟨done, h⟩ := exists_inv hs ht
  exact h.starts

/-- The test with the FPGA on two CPUs, with one channel and no coherency. -/
def oneChannel : Build := ⟨.dmaFpga, 2, 1, false, by decide, by decide⟩

/-- The program before it runs, the registers being clear. -/
def beforeMain : System :=
  ⟨clearTables, fun _ _ => 0#32, oneChannel.tasks, false, fun _ => 0, fun _ => .waiting, []⟩

theorem beforeMain_initial : Initial oneChannel beforeMain := ⟨rfl, rfl, fun _ => rfl, rfl⟩

theorem starts_spec_oneChannel : ∃ t, Reaches (step oneChannel) beforeMain t ∧ t.starts.length = 1 ∧
    ∀ x ∈ t.starts, x.core = 1 ∧ read x.regs .srcSize = .size 32 := by
  let run : List Event := List.replicate 7 .master ++ List.replicate 4 (.core 1)
  have hrun : (run.foldlM (step oneChannel) beforeMain).isSome := rfl
  have ht := Option.some_get hrun
  refine ⟨_, ⟨_, ht.symm⟩, rfl, fun x hx => ?_⟩
  obtain ⟨-, hright⟩ := starts_spec beforeMain_initial ⟨_, ht.symm⟩ x hx
  refine ⟨hright.owner.trans ?_, hright.settings .srcSize⟩
  show 1 + x.ch % 1 = 1
  rw [Nat.mod_one]

/-! ### Going on -/

/-- A state reached once the master is done, with the starts since. -/
structure Later (b : Build) (s u : System) : Prop where
  reaches : Reaches (step b) s u
  starts : s.starts <+: u.starts
  tables : u.tables = s.tables
  masterDone : u.masterDone = s.masterDone

theorem Later.refl (b : Build) (s : System) : Later b s s := ⟨.refl s, List.prefix_rfl, rfl, rfl⟩

theorem Later.trans {b : Build} {s u v : System} (h : Later b s u) (h' : Later b u v) : Later b s v where
  reaches := h.reaches.trans h'.reaches
  starts := h.starts.trans h'.starts
  tables := h'.tables.trans h.tables
  masterDone := h'.masterDone.trans h.masterDone

theorem step_core {b : Build} {k : ℕ} (hk : k ∈ b.test.cores b.numCpus) (s : System) :
    step b s (.core k) = some (coreStep s k) := by
  simp only [step, if_pos hk]

/-- The master gets through its tasks, the engine being idle. -/
theorem exists_masterDone (b : Build) (s : System) :
    ∃ u, Reaches (step b) s u ∧ u.masterDone = true ∧ u.starts = s.starts := by
  generalize hsetup : s.setup = setup
  induction setup generalizing s with
  | nil =>
    cases hm : s.masterDone with
    | true => exact ⟨s, .refl s, hm, rfl⟩
    | false =>
      refine ⟨{ s with masterDone := true }, .single (e := .master) ?_, rfl, rfl⟩
      simp [step, masterStep, hsetup, hm]
  | cons task rest ih =>
    cases task with
    | assign =>
      obtain ⟨t, ht, -⟩ := assign_dealt b.cpus b.channels s.tables
      obtain ⟨u, hu, hm, hstarts⟩ := ih { s with tables := t, setup := rest } rfl
      refine ⟨u, Reaches.trans (.single (e := .master) ?_) hu, hm, hstarts⟩
      simp only [step, masterStep, hsetup, ht]
    | call ch c =>
      let idle := s.setReg ch .status 0#32
      have hidle : Idle (idle.regs ch) := by
        refine .inl ?_
        simp [idle, System.setReg]
      obtain ⟨u, hu, hm, hstarts⟩ := ih
        { idle with regs := Function.update idle.regs ch (c.leaves (idle.regs ch)), setup := rest } rfl
      have hstatus : step b s (.status ch 0#32) = some idle := rfl
      have hcall : step b idle .master = some
          { idle with regs := Function.update idle.regs ch (c.leaves (idle.regs ch)), setup := rest } := by
        have hsetup' : idle.setup = .call ch c :: rest := hsetup
        simp only [step, masterStep, hsetup', apply_eq hidle, Option.map_some]
      exact ⟨u, (Reaches.single hstatus).trans ((Reaches.single hcall).trans hu), hm, hstarts⟩

/-- A core starts a channel it has found finished. -/
theorem later_start {b : Build} {k : ℕ} (hk : k ∈ b.test.cores b.numCpus) {s : System} {ch : ℕ} {chs : List ℕ}
    (hpc : s.pc k = .finished ch chs) : ∃ u, Later b s u ∧ u.pc k = .round chs ∧
      u.starts = s.starts ++ [⟨k, ch, s.regs ch⟩] := by
  refine ⟨coreStep s k, ⟨.single (step_core hk s), ?_, ?_, ?_⟩, ?_, ?_⟩ <;>
    simp [coreStep, hpc, System.goto, System.setReg]

/-- A core gets past the next channels of its round. -/
theorem later_round {b : Build} {k : ℕ} (hk : k ∈ b.test.cores b.numCpus) {chs rest : List ℕ} {s : System}
    (hpc : s.pc k = .round (chs ++ rest)) : ∃ u, Later b s u ∧ u.pc k = .round rest := by
  induction chs generalizing s with
  | nil => exact ⟨s, .refl b s, hpc⟩
  | cons ch chs ih =>
    rw [List.cons_append] at hpc
    have hcheck : Later b s (coreStep s k) := by
      refine ⟨.single (step_core hk s), ?_, ?_, ?_⟩ <;> simp [coreStep, hpc, System.goto]
    by_cases hzero : s.regs ch .ctrl2 = 0#32
    · have hfinished : (coreStep s k).pc k = .finished ch (chs ++ rest) := by
        simp [coreStep, hpc, hzero, System.goto]
      obtain ⟨u, hu, hpcu, -⟩ := later_start hk hfinished
      obtain ⟨v, hv, hpcv⟩ := ih hpcu
      exact ⟨v, hcheck.trans (hu.trans hv), hpcv⟩
    · have hround : (coreStep s k).pc k = .round (chs ++ rest) := by
        simp [coreStep, hpc, hzero, System.goto]
      obtain ⟨v, hv, hpcv⟩ := ih hround
      exact ⟨v, hcheck.trans hv, hpcv⟩

/-- A core gets to the end of its round. -/
theorem later_rest {b : Build} {k : ℕ} (hk : k ∈ b.test.cores b.numCpus) {chs : List ℕ} {s : System}
    (hpc : s.pc k = .round chs) : ∃ u, Later b s u ∧ u.pc k = .round [] := by
  rw [← List.append_nil chs] at hpc
  exact later_round hk hpc

/-- A core comes back to the loop of `main`. -/
theorem later_loop {b : Build} {k : ℕ} (hk : k ∈ b.test.cores b.numCpus) {s : System}
    (hm : s.masterDone = true) : ∃ u, Later b s u ∧ u.pc k = .round [] := by
  cases hpc : s.pc k with
  | waiting =>
    refine ⟨coreStep s k, ⟨.single (step_core hk s), ?_, ?_, ?_⟩, ?_⟩ <;> simp [coreStep, hpc, hm, System.goto]
  | round chs => exact later_rest hk hpc
  | finished ch chs =>
    obtain ⟨u, hu, hpcu, -⟩ := later_start hk hpc
    obtain ⟨v, hv, hpcv⟩ := later_rest hk hpcu
    exact ⟨v, hu.trans hv, hpcv⟩

/-- **No channel is left behind**: from every reachable state the program can
go on until a channel is started once more. -/
theorem can_start {b : Build} {s t : System} (hs : Initial b s) (ht : Reaches (step b) s t) {ch : ℕ}
    (hch : ch < b.dmaChannels) :
    ∃ u, Reaches (step b) t u ∧ ∃ more x, u.starts = t.starts ++ more ++ [x] ∧ x.ch = ch := by
  obtain ⟨u, hu, hm, hstarts⟩ := exists_masterDone b t
  obtain ⟨done, h⟩ := exists_inv hs (ht.trans hu)
  have hk := owner_mem_cores b ch
  have hmem : ch ∈ u.tables.channels (b.owner ch) :=
    (mem_channels (h.of_masterDone hm).1 (mem_cores.mp hk).2).mpr ⟨hch, rfl⟩
  obtain ⟨pre, post, hsplit⟩ := List.append_of_mem hmem
  -- to the loop, into the round, and up to the channel
  obtain ⟨v, hv, hpcv⟩ := later_loop hk hm
  have hchannels : v.tables.channels (b.owner ch) = pre ++ ch :: post := by rw [hv.tables, hsplit]
  have hpos : 0 < v.tables.assigned (b.owner ch) := by
    rw [← v.tables.length_channels, hchannels]
    simp
  have hround : Later b v (coreStep v (b.owner ch)) ∧
      (coreStep v (b.owner ch)).pc (b.owner ch) = .round (pre ++ ch :: post) := by
    refine ⟨⟨.single (step_core hk v), ?_, ?_, ?_⟩, ?_⟩ <;>
      simp [coreStep, hpcv, hpos, hchannels, System.goto]
  obtain ⟨w, hw, hpcw⟩ := later_round hk hround.2
  -- the transfer ends, and the core finds it so
  let x := w.setReg ch .ctrl2 0#32
  have hx : Later b w x := ⟨.single (e := .finish ch) rfl, List.prefix_rfl, rfl, rfl⟩
  have hpcx : x.pc (b.owner ch) = .round (ch :: post) := hpcw
  have hzero : x.regs ch .ctrl2 = 0#32 := by simp [x, System.setReg]
  have hcheck : Later b x (coreStep x (b.owner ch)) ∧
      (coreStep x (b.owner ch)).pc (b.owner ch) = .finished ch post := by
    refine ⟨⟨.single (step_core hk x), ?_, ?_, ?_⟩, ?_⟩ <;> simp [coreStep, hpcx, hzero, System.goto]
  obtain ⟨y, hy, -, hystarts⟩ := later_start hk hcheck.2
  have hlater := hv.trans (hround.1.trans (hw.trans (hx.trans hcheck.1)))
  obtain ⟨more, hmore⟩ := hlater.starts
  rw [← hmore, hstarts] at hystarts
  exact ⟨y, hu.trans (hlater.reaches.trans hy.reaches), more, _, hystarts, rfl⟩

theorem can_start_oneChannel :
    ∃ u, Reaches (step oneChannel) beforeMain u ∧ ∃ more x, u.starts = [] ++ more ++ [x] ∧ x.ch = 0 :=
  can_start beforeMain_initial (.refl beforeMain) (by decide)

end DmaRuns
end DaatMcs

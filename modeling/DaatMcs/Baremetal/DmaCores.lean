/-
# Which core drives which DMA channel

`assign_zdma_channels` deals the channels in turn to the cores from
`start_core` on, in the tables `cpu_dma_chnls_assigned` and `cpu_dma_chnls`,
and each core then serves its own channels in `run_core`. After any number of
channels the table of a core is what it was dealt so far (`Dealt`), so every
channel is driven by exactly one core (`drivenOnce_iff`). Where the only core
is before `start_core` the number of cores to deal to is 0, and the first
channel is a division by it.
-/
import DaatMcs.Lib.RoundRobin
import Mathlib.Logic.Function.Basic

namespace DaatMcs
namespace DmaCores

open RoundRobin

/-! ### The assignment -/

/-- `cpu_dma_chnls_assigned` and `cpu_dma_chnls`. -/
structure Tables where
  assigned : ℕ → ℕ
  chnls : ℕ → ℕ → ℕ

/-- Channel `i` is entered at the end of a core's row. -/
def Tables.push (t : Tables) (row i : ℕ) : Tables where
  assigned := Function.update t.assigned row (t.assigned row + 1)
  chnls := Function.update t.chnls row (Function.update (t.chnls row) (t.assigned row) i)

/-- `MAX_DMA_CH` -/
def maxDmaCh : ℕ := 8

inductive Fault
  | divisionByZero
  | outOfRange (cpu : ℤ)
  deriving DecidableEq, Repr

/-- The body of the loop for channel `i`; the store is in range where the core
has a row and the row has room. -/
def assignChannel (numCpus : ℕ) (startCore : ℤ) (t : Tables) (i : ℕ) : Except Fault Tables :=
  let numCores : ℤ := numCpus - startCore
  if numCores = 0 then .error .divisionByZero
  else
    let cpu : ℤ := startCore + (i : ℤ).tmod numCores
    if 0 ≤ cpu ∧ cpu < numCpus ∧ t.assigned cpu.toNat < maxDmaCh then .ok (t.push cpu.toNat i)
    else .error (.outOfRange cpu)

def assignZdmaChannels (numCpus dmaChannels : ℕ) (startCore : ℤ) (t : Tables) : Except Fault Tables :=
  let cleared : Tables := { t with assigned := fun i => if i < numCpus then 0 else t.assigned i }
  (List.range dmaChannels).foldlM (assignChannel numCpus startCore) cleared

/-! ### The cores -/

/-- `core_state`, the register `ctrl2` of each channel, and the channels the
cores have checked so far. -/
structure Dma where
  coreState : ℕ → ℕ
  ctrl2 : ℕ → BitVec 32
  visits : List ℕ

/-- `zdma_ch_check_finish`, and `zdma_ch_start` if it is. -/
def visit (s : Dma) (ch : ℕ) : Dma :=
  { s with
    ctrl2 := if s.ctrl2 ch = 0#32 then Function.update s.ctrl2 ch 1#32 else s.ctrl2
    visits := s.visits ++ [ch] }

/-- The channels of a core, in the order of its table. -/
def Tables.channels (t : Tables) (core : ℕ) : List ℕ := (List.range (t.assigned core)).map (t.chnls core)

def runCore (t : Tables) (s : Dma) (core : ℕ) : Dma := (t.channels core).foldl visit s

def dmaInterfEn (t : Tables) (s : Dma) (core : ℕ) : Dma :=
  if 0 < t.assigned core then
    runCore t { s with coreState := Function.update s.coreState core 1 } core
  else { s with coreState := Function.update s.coreState core 0 }

/-- The test types that use the DMA channels. -/
inductive DmaTest
  | dma | dmaFpga
  deriving DecidableEq, Repr

/-- What the test passes to `assign_zdma_channels`. -/
def DmaTest.startCore : DmaTest → ℕ
  | .dma => 0
  | .dmaFpga => 1

/-- The cores that call `dma_interf_en` in the loop of `main`: all of them, but
core 0 where it drives the FPGA. -/
def DmaTest.cores (test : DmaTest) (numCpus : ℕ) : List ℕ :=
  match test with
  | .dma => List.range numCpus
  | .dmaFpga => (List.range numCpus).filter (· ≠ 0)

/-- Every DMA channel is driven by exactly one core: the assignment returns,
each channel is in the tables once, only the cores from `start_core` on have
channels, in numbers that differ by at most one, and one round of the cores,
in any order, visits each channel once. -/
def DrivenOnce (test : DmaTest) (numCpus dmaChannels : ℕ) (t : Tables) : Prop :=
  ∃ t', assignZdmaChannels numCpus dmaChannels test.startCore t = .ok t' ∧
    (∀ ch < dmaChannels, ∃! p : ℕ × ℕ, p.1 < numCpus ∧ p.2 < t'.assigned p.1 ∧ t'.chnls p.1 p.2 = ch) ∧
    (∀ cpu < numCpus, 0 < t'.assigned cpu → test.startCore ≤ cpu) ∧
    (∀ cpu cpu', test.startCore ≤ cpu → cpu < numCpus → test.startCore ≤ cpu' → cpu' < numCpus →
      t'.assigned cpu ≤ t'.assigned cpu' + 1) ∧
    ∀ cores : List ℕ, cores.Perm (test.cores numCpus) → ∀ s : Dma,
      ((cores.foldl (dmaInterfEn t') s).visits).Perm (s.visits ++ List.range dmaChannels)

/-! ### The tables after some channels -/

/-- The tables after `n` channels: a core from `start` on has the channels it
was dealt, the others none. -/
def Dealt (numCpus start n : ℕ) (t : Tables) : Prop :=
  ∀ cpu < numCpus, t.channels cpu = if start ≤ cpu then dealt (numCpus - start) n (cpu - start) else []

theorem Tables.length_channels (t : Tables) (core : ℕ) : (t.channels core).length = t.assigned core := by
  rw [Tables.channels, List.length_map, List.length_range]

theorem channels_push (t : Tables) (row i cpu : ℕ) :
    (t.push row i).channels cpu = if cpu = row then t.channels row ++ [i] else t.channels cpu := by
  unfold Tables.channels Tables.push
  dsimp only
  by_cases h : cpu = row
  · subst h
    rw [Function.update_self, Function.update_self, if_pos rfl, List.range_succ, List.map_append,
      List.map_singleton, Function.update_self]
    congr 1
    refine List.map_congr_left fun k hk => ?_
    rw [Function.update_of_ne (List.mem_range.mp hk).ne]
  · rw [Function.update_of_ne h, Function.update_of_ne h, if_neg h]

section Deal

variable {numCpus start : ℕ}

theorem assigned_le {n : ℕ} {t : Tables} (h : Dealt numCpus start n t) {cpu : ℕ} (hcpu : cpu < numCpus) :
    t.assigned cpu ≤ n := by
  rw [← t.length_channels, h cpu hcpu]
  split
  · exact length_dealt_le _ _ _
  · exact Nat.zero_le n

/-- One more channel goes to the core whose turn it is. -/
theorem assignChannel_dealt {n : ℕ} (hstart : start < numCpus) (hn : n < maxDmaCh) {t : Tables}
    (h : Dealt numCpus start n t) :
    ∃ t', assignChannel numCpus start t n = .ok t' ∧ Dealt numCpus start (n + 1) t' := by
  have hcores : (numCpus : ℤ) - start = ((numCpus - start : ℕ) : ℤ) := by omega
  have hpos : 0 < numCpus - start := by omega
  have hmod : n % (numCpus - start) < numCpus - start := Nat.mod_lt n hpos
  have hcpu : (start : ℤ) + (n : ℤ).tmod ((numCpus : ℤ) - start) =
      ((start + n % (numCpus - start) : ℕ) : ℤ) := by
    rw [hcores, Int.tmod_eq_emod_of_nonneg (Int.natCast_nonneg n)]
    push_cast
    rfl
  have hroom : t.assigned (start + n % (numCpus - start)) < maxDmaCh :=
    (assigned_le h (by omega)).trans_lt hn
  unfold assignChannel
  dsimp only
  rw [hcpu, Int.toNat_natCast, if_neg (by omega), if_pos ⟨by omega, by omega, hroom⟩]
  refine ⟨_, rfl, fun cpu hlt => ?_⟩
  rw [channels_push, dealt_succ]
  by_cases hrow : cpu = start + n % (numCpus - start)
  · have hturn : n % (numCpus - start) = cpu - start := by omega
    have hle : start ≤ cpu := by omega
    rw [if_pos hrow, ← hrow, h cpu hlt, if_pos hle, if_pos hle, if_pos hturn]
  · rw [if_neg hrow, h cpu hlt]
    split
    · have hturn : n % (numCpus - start) ≠ cpu - start := by omega
      rw [if_neg hturn]
    · rfl

theorem assign_zero (numCpus start : ℕ) (t : Tables) :
    ∃ t', assignZdmaChannels numCpus 0 start t = .ok t' ∧ Dealt numCpus start 0 t' := by
  refine ⟨_, rfl, fun cpu hlt => ?_⟩
  unfold Tables.channels
  simp [hlt]

theorem assign_dealt (hstart : start < numCpus) {n : ℕ} (hn : n ≤ maxDmaCh) (t : Tables) :
    ∃ t', assignZdmaChannels numCpus n start t = .ok t' ∧ Dealt numCpus start n t' := by
  unfold assignZdmaChannels
  induction n with
  | zero => exact assign_zero numCpus start t
  | succ n ih =>
    obtain ⟨t', ht', hdealt⟩ := ih (by omega)
    obtain ⟨t'', ht'', hdealt'⟩ := assignChannel_dealt hstart (by omega) hdealt
    dsimp only at ht' ⊢
    refine ⟨t'', ?_, hdealt'⟩
    rw [List.range_succ, List.foldlM_append, ht']
    show [n].foldlM (assignChannel numCpus start) t' = .ok t''
    rw [List.foldlM_cons, ht'']
    rfl

/-- With no core to deal to, the first channel is a division by zero. -/
theorem assign_no_cores (numCpus n : ℕ) (t : Tables) :
    assignZdmaChannels numCpus (n + 1) numCpus t = .error .divisionByZero := by
  have hfirst : ∀ t : Tables, assignChannel numCpus numCpus t 0 = .error .divisionByZero := by
    intro t
    unfold assignChannel
    dsimp only
    rw [if_pos (sub_self _)]
  unfold assignZdmaChannels
  dsimp only
  rw [List.range_succ_eq_map, List.foldlM_cons, hfirst]
  rfl

end Deal

/-! ### One round of the cores -/

theorem visits_foldl_visit (chs : List ℕ) (s : Dma) : (chs.foldl visit s).visits = s.visits ++ chs := by
  induction chs generalizing s with
  | nil => exact (List.append_nil _).symm
  | cons ch chs ih =>
    rw [List.foldl_cons, ih]
    simp [visit]

/-- A core visits its own channels, in order. -/
theorem visits_dmaInterfEn (t : Tables) (s : Dma) (core : ℕ) :
    (dmaInterfEn t s core).visits = s.visits ++ t.channels core := by
  unfold dmaInterfEn
  split
  · rw [runCore, visits_foldl_visit]
  · next h =>
    have hnil : t.channels core = [] := List.length_eq_zero_iff.mp (by rw [t.length_channels]; omega)
    rw [hnil, List.append_nil]

theorem visits_round (t : Tables) (cores : List ℕ) (s : Dma) :
    (cores.foldl (dmaInterfEn t) s).visits = s.visits ++ cores.flatMap t.channels := by
  induction cores generalizing s with
  | nil => exact (List.append_nil _).symm
  | cons core cores ih => rw [List.foldl_cons, ih, visits_dmaInterfEn, List.flatMap_cons, List.append_assoc]

/-- The cores that call `dma_interf_en` are those from `start_core` on. -/
theorem DmaTest.cores_eq (test : DmaTest) (numCpus : ℕ) :
    test.cores numCpus = (List.range (numCpus - test.startCore)).map (test.startCore + ·) := by
  cases test with
  | dma => simp [DmaTest.cores, DmaTest.startCore]
  | dmaFpga =>
    unfold DmaTest.cores DmaTest.startCore
    cases numCpus with
    | zero => rfl
    | succ k =>
      rw [List.range_succ_eq_map]
      simp [List.filter_map, Function.comp_def, Nat.add_comm]

/-! ### Every channel once -/

section Once

variable {test : DmaTest} {numCpus n : ℕ} {t : Tables}

/-- A channel is in the row of one core, at one place. -/
theorem existsUnique_row {start : ℕ} (h : Dealt numCpus start n t) {ch : ℕ} (hstart : start < numCpus)
    (hch : ch < n) :
    ∃! p : ℕ × ℕ, p.1 < numCpus ∧ p.2 < t.assigned p.1 ∧ t.chnls p.1 p.2 = ch := by
  have hmod : ch % (numCpus - start) < numCpus - start := Nat.mod_lt ch (by omega)
  have hmem : ∀ {cpu k}, k < t.assigned cpu → t.chnls cpu k ∈ t.channels cpu := fun hk =>
    List.mem_map.mpr ⟨_, List.mem_range.mpr hk, rfl⟩
  have hrow : t.channels (start + ch % (numCpus - start)) = dealt (numCpus - start) n (ch % (numCpus - start)) := by
    rw [h _ (by omega), if_pos (by omega), Nat.add_sub_cancel_left]
  have hin : ch ∈ t.channels (start + ch % (numCpus - start)) := by
    rw [hrow]
    exact mem_dealt.mpr ⟨hch, rfl⟩
  obtain ⟨k, hk, hkch⟩ := List.mem_map.mp hin
  refine ⟨(start + ch % (numCpus - start), k), ⟨by omega, List.mem_range.mp hk, hkch⟩, ?_⟩
  rintro ⟨cpu, k'⟩ ⟨hcpu, hk', hch'⟩
  -- the core: only the one whose turn it was has the channel
  have hcpu' : cpu = start + ch % (numCpus - start) := by
    have hin' := hmem hk'
    rw [hch', h cpu hcpu] at hin'
    split at hin'
    · have hturn := (mem_dealt.mp hin').2
      omega
    · cases hin'
  subst hcpu'
  -- the place: no channel is twice in a row
  have hnodup : (t.channels (start + ch % (numCpus - start))).Nodup := by
    rw [hrow]
    exact nodup_dealt _ _ _
  have hplace : k' = k :=
    List.inj_on_of_nodup_map hnodup (List.mem_range.mpr hk') hk (hch'.trans hkch.symm)
  rw [hplace]

theorem round_perm (h : Dealt numCpus test.startCore n t) (hn : test.startCore < numCpus ∨ n = 0)
    {cores : List ℕ} (hcores : cores.Perm (test.cores numCpus)) (s : Dma) :
    ((cores.foldl (dmaInterfEn t) s).visits).Perm (s.visits ++ List.range n) := by
  rw [visits_round]
  refine List.Perm.append_left _ ((hcores.flatMap_right _).trans ?_)
  have hrows : (List.range (numCpus - test.startCore)).flatMap (fun c => t.channels (test.startCore + c)) =
      (List.range (numCpus - test.startCore)).flatMap (dealt (numCpus - test.startCore) n) := by
    refine List.flatMap_congr fun c hc => ?_
    rw [List.mem_range] at hc
    rw [h _ (by omega), if_pos (by omega), Nat.add_sub_cancel_left]
  rw [test.cores_eq, List.flatMap_map, hrows]
  exact flatMap_dealt_perm (by omega)

theorem drivenOnce_of_dealt {t₀ : Tables} (ht : assignZdmaChannels numCpus n test.startCore t₀ = .ok t)
    (h : Dealt numCpus test.startCore n t) (hn : test.startCore < numCpus ∨ n = 0) :
    DrivenOnce test numCpus n t₀ := by
  refine ⟨t, ht, fun ch hch => ?_, fun cpu hcpu hpos => ?_, fun cpu cpu' hle hlt hle' hlt' => ?_,
    fun cores hcores s => round_perm h hn hcores s⟩
  · exact existsUnique_row h (by omega) hch
  · by_contra hlt
    have hnil := h cpu hcpu
    rw [if_neg hlt] at hnil
    rw [← t.length_channels, hnil] at hpos
    exact absurd hpos (by decide)
  · rw [← t.length_channels, ← t.length_channels, h cpu hlt, h cpu' hlt', if_pos hle, if_pos hle']
    exact length_dealt_le_succ (by omega) (by omega)

end Once

/-- **Main result.** Every channel is driven by exactly one core iff there is a
core from `start_core` on, or no channel. -/
theorem drivenOnce_iff (test : DmaTest) {numCpus dmaChannels : ℕ} (hcpus : 1 ≤ numCpus)
    (hchannels : dmaChannels ≤ maxDmaCh) (t : Tables) :
    DrivenOnce test numCpus dmaChannels t ↔ test.startCore < numCpus ∨ dmaChannels = 0 := by
  constructor
  · rintro ⟨t', ht', -⟩
    by_contra hnot
    push Not at hnot
    obtain ⟨hle, hne⟩ := hnot
    obtain ⟨k, rfl⟩ := Nat.exists_eq_succ_of_ne_zero hne
    have hle' : test.startCore ≤ 1 := by cases test <;> decide
    have hstart : test.startCore = numCpus := by omega
    rw [hstart, assign_no_cores] at ht'
    cases ht'
  · intro h
    rcases h with h | rfl
    · obtain ⟨t', ht', hdealt⟩ := assign_dealt h hchannels t
      exact drivenOnce_of_dealt ht' hdealt (Or.inl h)
    · obtain ⟨t', ht', hdealt⟩ := assign_zero numCpus test.startCore t
      exact drivenOnce_of_dealt ht' hdealt (Or.inr rfl)

/-- The tables as the program starts. -/
def clearTables : Tables := ⟨fun _ => 0, fun _ _ => 0⟩

/-- The values in the source. -/
theorem drivenOnce_three : DrivenOnce .dmaFpga 3 8 clearTables :=
  (drivenOnce_iff .dmaFpga (by decide) (by decide) clearTables).mpr (Or.inl (by decide))

/-- One CPU and the FPGA test: the division by zero. -/
theorem not_drivenOnce_one : ¬ DrivenOnce .dmaFpga 1 1 clearTables := by
  rintro ⟨t', ht', -⟩
  cases ht'

end DmaCores
end DaatMcs

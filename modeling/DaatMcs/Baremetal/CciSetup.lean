/-
# Setting up the event counters of the CCI-400

`cci_setup_counters` checks its configuration and then programs, for each
entry, the event-select register and the control register of the entry's
counter. The check accepts exactly the configurations in which nothing is
asked for twice (`validate_iff`); it does not look at the width of what is
written. So a rejected configuration changes nothing, and an accepted one is
read back as it was given iff every interface and every event fits its field
(`allOrNothing_iff`).
-/
import DaatMcs.Baremetal.Cci400
import DaatMcs.Lib.Text

namespace DaatMcs
namespace CciSetup

open Registers Cci400

/-! ### Events and configurations -/

/-- `enum cci_events`: of the slave interfaces, of the master interfaces, and
the CCI cycles. -/
inductive CciEvents
  | siRrqHsAny | siRrqHsDevice | siRrqHsNormalOrNonshareable | siRrqHsInnerOrOutershareable
  | siRrqHsCacheMaintenance | siRrqHsMemBarrier | siRrqHsSyncBarrier | siRrqHsDvmMsg
  | siRrqHsDvmMsgSync | siRrqStallTtFull | siRDataLastHsSnoop | siRDataStallRvalidsHRreadyL
  | siWrqHsAny | siWrqHsDevice | siWrqHsNormalOrNonshareable | siWrqHsInnerOrOutershareWbackWclean
  | siWrqHsWriteUnique | siWrqHsWriteLineUnique | siWrqHsEvict | siWrqStallTtFull
  | siRrqStallSlaveIdHazard | miRetrySpeculativeFetch | miStallCycleAddrHazard
  | miRrqStallMasterIdHazard | miRrqStallHiPrioRtqFull | miRrqStallBarrierHazard
  | miWrqStallBarrierHazard | miWrqStallWtqFull | miRrqStallLowPrioRtqFull
  | miRrqStallMidPrioRtqFull | miRrqStallQvnVn0 | miRrqStallQvnVn1 | miRrqStallQvnVn2
  | miRrqStallQvnVn3 | miWrqStallQvnVn0 | miWrqStallQvnVn1 | miWrqStallQvnVn2 | miWrqStallQvnVn3
  | miWrqUniqueOrLineUniqueAddrHazard | cycles
  deriving DecidableEq, Repr

/-- The row of `cci_event_table`: the code and the name. -/
def CciEvents.desc : CciEvents → BitVec 8 × Text
  | .siRrqHsAny => (0x00#8, "si_rrq_hs_any".toList)
  | .siRrqHsDevice => (0x01#8, "si_rrq_hs_device".toList)
  | .siRrqHsNormalOrNonshareable => (0x02#8, "si_rrq_hs_normal_or_nonshareable".toList)
  | .siRrqHsInnerOrOutershareable => (0x03#8, "si_rrq_hs_inner_or_outershareable".toList)
  | .siRrqHsCacheMaintenance => (0x04#8, "si_rrq_hs_cache_maintenance".toList)
  | .siRrqHsMemBarrier => (0x05#8, "si_rrq_hs_mem_barrier".toList)
  | .siRrqHsSyncBarrier => (0x06#8, "si_rrq_hs_sync_barrier".toList)
  | .siRrqHsDvmMsg => (0x07#8, "si_rrq_hs_dvm_msg".toList)
  | .siRrqHsDvmMsgSync => (0x08#8, "si_rrq_hs_dvm_msg_sync".toList)
  | .siRrqStallTtFull => (0x09#8, "si_rrq_stall_tt_full".toList)
  | .siRDataLastHsSnoop => (0x0A#8, "si_r_data_last_hs_snoop".toList)
  | .siRDataStallRvalidsHRreadyL => (0x0B#8, "si_r_data_stall_rvalids_h_rready_l".toList)
  | .siWrqHsAny => (0x0C#8, "si_wrq_hs_any".toList)
  | .siWrqHsDevice => (0x0D#8, "si_wrq_hs_device".toList)
  | .siWrqHsNormalOrNonshareable => (0x0E#8, "si_wrq_hs_normal_or_nonshareable".toList)
  | .siWrqHsInnerOrOutershareWbackWclean => (0x0F#8, "si_wrq_hs_inner_or_outershare_wback_wclean".toList)
  | .siWrqHsWriteUnique => (0x10#8, "si_wrq_hs_write_unique".toList)
  | .siWrqHsWriteLineUnique => (0x11#8, "si_wrq_hs_write_line_unique".toList)
  | .siWrqHsEvict => (0x12#8, "si_wrq_hs_evict".toList)
  | .siWrqStallTtFull => (0x13#8, "si_wrq_stall_tt_full".toList)
  | .siRrqStallSlaveIdHazard => (0x14#8, "si_rrq_stall_slave_id_hazard".toList)
  | .miRetrySpeculativeFetch => (0x00#8, "mi_retry_speculative_fetch".toList)
  | .miStallCycleAddrHazard => (0x01#8, "mi_stall_cycle_addr_hazard".toList)
  | .miRrqStallMasterIdHazard => (0x02#8, "mi_rrq_stall_master_id_hazard".toList)
  | .miRrqStallHiPrioRtqFull => (0x03#8, "mi_rrq_stall_hi_prio_rtq_full".toList)
  | .miRrqStallBarrierHazard => (0x04#8, "mi_rrq_stall_barrier_hazard".toList)
  | .miWrqStallBarrierHazard => (0x05#8, "mi_wrq_stall_barrier_hazard".toList)
  | .miWrqStallWtqFull => (0x06#8, "mi_wrq_stall_wtq_full".toList)
  | .miRrqStallLowPrioRtqFull => (0x07#8, "mi_rrq_stall_low_prio_rtq_full".toList)
  | .miRrqStallMidPrioRtqFull => (0x08#8, "mi_rrq_stall_mid_prio_rtq_full".toList)
  | .miRrqStallQvnVn0 => (0x09#8, "mi_rrq_stall_qvn_vn0".toList)
  | .miRrqStallQvnVn1 => (0x0A#8, "mi_rrq_stall_qvn_vn1".toList)
  | .miRrqStallQvnVn2 => (0x0B#8, "mi_rrq_stall_qvn_vn2".toList)
  | .miRrqStallQvnVn3 => (0x0C#8, "mi_rrq_stall_qvn_vn3".toList)
  | .miWrqStallQvnVn0 => (0x0D#8, "mi_wrq_stall_qvn_vn0".toList)
  | .miWrqStallQvnVn1 => (0x0E#8, "mi_wrq_stall_qvn_vn1".toList)
  | .miWrqStallQvnVn2 => (0x0F#8, "mi_wrq_stall_qvn_vn2".toList)
  | .miWrqStallQvnVn3 => (0x10#8, "mi_wrq_stall_qvn_vn3".toList)
  | .miWrqUniqueOrLineUniqueAddrHazard => (0x11#8, "mi_wrq_unique_or_line_unique_addr_hazard".toList)
  | .cycles => (0xFF#8, "cycles".toList)

def cciEventToHwcode (ev : CciEvents) : BitVec 8 := ev.desc.1

def cciGetevent (ev : CciEvents) : Text := ev.desc.2

/-- An entry of the configuration, `struct cci_counters_cfg`. -/
structure CciCountersCfg where
  events : CciEvents
  interface : BitVec 8
  counter : BitVec 8
  deriving DecidableEq, Repr

/-! ### The check -/

inductive ConfigError
  | numEvents (n : ℕ)
  | counterRange (counter : BitVec 8) (event : ℕ)
  | counterTwice (counter : BitVec 8)
  | eventTwice (ev : CciEvents)
  deriving DecidableEq, Repr

/-- What is printed before the check returns `-1`. -/
def ConfigError.message : ConfigError → Text
  | .numEvents n => "CCI config error: invalid number of events (".toList ++ showNat n ++ ")\n".toList
  | .counterRange counter event =>
    "CCI config error: counter ".toList ++ showNat counter.toNat ++ " out of range (event ".toList ++
      showNat event ++ ")\n".toList
  | .counterTwice counter =>
    "CCI config error: counter ".toList ++ showNat counter.toNat ++ " used more than once\n".toList
  | .eventTwice ev =>
    "CCI config error: event ".toList ++ cciGetevent ev ++ " configured twice\n".toList

/-- `CCI_MAX_COUNTERS` -/
def cciMaxCounters : ℕ := 4

/-- The condition of the inner loop on the entries `c` and `d`. -/
def Clash (c d : CciCountersCfg) : Prop :=
  c.events = d.events ∧ c.interface = d.interface ∨ c.events = d.events ∧ c.counter = d.counter

instance (c d : CciCountersCfg) : Decidable (Clash c d) := inferInstanceAs (Decidable (_ ∨ _))

/-- The outer loop from entry `i` on, `used` being `used_counters_mask`. -/
def validateFrom (used : BitVec 8) (i : ℕ) : List CciCountersCfg → Except ConfigError Unit
  | [] => .ok ()
  | c :: rest =>
    if cciMaxCounters ≤ c.counter.toNat then .error (.counterRange c.counter i)
    else if used &&& 1#8 <<< c.counter.toNat ≠ 0#8 then .error (.counterTwice c.counter)
    else if ∃ d ∈ rest, Clash c d then .error (.eventTwice c.events)
    else validateFrom (used ||| 1#8 <<< c.counter.toNat) (i + 1) rest

/-- The first `num` entries of the array. -/
def entries (cfg : ℕ → CciCountersCfg) (num : ℕ) : List CciCountersCfg := (List.range num).map cfg

def cciValidateConfig (cfg : ℕ → CciCountersCfg) (numEvents : ℕ) : Except ConfigError Unit :=
  if numEvents = 0 ∨ cciMaxCounters < numEvents then .error (.numEvents numEvents)
  else validateFrom 0#8 0 (entries cfg numEvents)

/-! ### Programming the counters -/

/-- `EVT_CNT0_MASK` to `EVT_CNT3_MASK`, with their shift. -/
def evtCntShift (_ : Fin 4) : ℕ := 0
def evtCntMask (k : Fin 4) : BitVec 32 := 0x1F#32 <<< evtCntShift k

/-- `EVT_IF0_MASK` to `EVT_IF3_MASK`, with their shift. -/
def evtIfShift (_ : Fin 4) : ℕ := 5
def evtIfMask (k : Fin 4) : BitVec 32 := 0x7#32 <<< evtIfShift k

/-- `CNT0_EN_BIT` to `CNT3_EN_BIT` -/
def cntEnBit (_ : Fin 4) : ℕ := 0

/-- The three writes for counter `k`, the interface under the mask of counter `kIf`. -/
def writeCounter (s : Regs) (k kIf : Fin 4) (eventCode interface : BitVec 8) : Regs :=
  let s := modify s (.esr k) fun v => writeField v (evtCntMask k) (evtCntShift k) (eventCode.setWidth 32)
  let s := modify s (.esr k) fun v => writeField v (evtIfMask kIf) (evtIfShift kIf) (interface.setWidth 32)
  writeRegBit s (.eventCounterControl k) (cntEnBit k) true

/-- The body of the loop for one entry. -/
def setupCounter (s : Regs) (c : CciCountersCfg) : Regs :=
  let eventCode := cciEventToHwcode c.events
  match c.counter with
  | 0#8 => writeCounter s 0 0 eventCode c.interface
  | 1#8 => writeCounter s 1 1 eventCode c.interface
  | 2#8 => writeCounter s 2 2 eventCode c.interface
  | 3#8 => writeCounter s 3 2 eventCode c.interface
  | _ => s

inductive SetupError
  | config (e : ConfigError)
  | countersError
  deriving DecidableEq, Repr

/-- The registers afterwards, and why the setup was given up. -/
def cciSetupCounters (s : Regs) (cfg : ℕ → CciCountersCfg) (numCounters : ℕ) : Regs × Option SetupError :=
  match cciValidateConfig cfg numCounters with
  | .error e => (s, some (.config e))
  | .ok () =>
    if 4 < numCounters then (s, some .countersError)
    else ((entries cfg numCounters).foldl setupCounter s, none)

/-! ### What the check accepts -/

/-- One to four entries, on different counters that exist, no two of them for
the same event on the same interface. -/
def Valid (cfg : ℕ → CciCountersCfg) (n : ℕ) : Prop :=
  (1 ≤ n ∧ n ≤ 4) ∧ (∀ i < n, (cfg i).counter.toNat < 4) ∧
    (∀ i j, i < j → j < n → (cfg i).counter ≠ (cfg j).counter) ∧
      ∀ i j, i < j → j < n → ¬ ((cfg i).events = (cfg j).events ∧ (cfg i).interface = (cfg j).interface)

/-- What the loop has against a later entry. -/
def Apart (c d : CciCountersCfg) : Prop :=
  c.counter ≠ d.counter ∧ ¬ (c.events = d.events ∧ c.interface = d.interface)

theorem and_bit_ne_zero_iff (used : BitVec 8) (k : ℕ) :
    used &&& 1#8 <<< k ≠ 0#8 ↔ used.getLsbD k = true := by
  constructor
  · intro h
    by_contra hk
    rw [← BitVec.twoPow_eq, BitVec.and_twoPow, if_neg hk] at h
    exact h rfl
  · intro hk h
    have hand : (used &&& 1#8 <<< k).getLsbD k = false := by rw [h, BitVec.getLsbD_zero]
    have hlt : k < 8 := BitVec.lt_of_getLsbD hk
    rw [← BitVec.twoPow_eq, BitVec.getLsbD_and, hk, BitVec.getLsbD_twoPow] at hand
    simp [hlt] at hand

/-- The bit of a counter is free after `c` iff it was and the counter is another. -/
theorem used_after_iff (used : BitVec 8) {c d : CciCountersCfg} (hc : c.counter.toNat < 4) :
    (used ||| 1#8 <<< c.counter.toNat).getLsbD d.counter.toNat = false ↔
      used.getLsbD d.counter.toNat = false ∧ c.counter ≠ d.counter := by
  rw [BitVec.getLsbD_or, Bool.or_eq_false_iff]
  refine and_congr_right fun _ => ?_
  rw [← BitVec.twoPow_eq, BitVec.getLsbD_twoPow, BitVec.toNat_ne]
  have hlt : c.counter.toNat < 8 := by omega
  simp [hlt]

/-- The loop goes on past an entry that exists, is not used yet and clashes
with no later one. -/
theorem validateFrom_cons_iff (used : BitVec 8) (i : ℕ) (c : CciCountersCfg) (rest : List CciCountersCfg) :
    validateFrom used i (c :: rest) = .ok () ↔
      (c.counter.toNat < 4 ∧ used.getLsbD c.counter.toNat = false) ∧ (¬ ∃ d ∈ rest, Clash c d) ∧
        validateFrom (used ||| 1#8 <<< c.counter.toNat) (i + 1) rest = .ok () := by
  rw [validateFrom]
  by_cases hrange : cciMaxCounters ≤ c.counter.toNat
  · have hlt : ¬ c.counter.toNat < 4 := Nat.not_lt.mpr hrange
    simp [hrange, hlt]
  have hlt : c.counter.toNat < 4 := Nat.lt_of_not_le hrange
  rw [if_neg hrange]
  by_cases hused : used &&& 1#8 <<< c.counter.toNat ≠ 0#8
  · have hbit : used.getLsbD c.counter.toNat = true := (and_bit_ne_zero_iff _ _).mp hused
    simp [hused, hbit]
  have hbit : used.getLsbD c.counter.toNat = false :=
    Bool.eq_false_iff.mpr fun h => hused ((and_bit_ne_zero_iff _ _).mpr h)
  rw [if_neg hused]
  by_cases hclash : ∃ d ∈ rest, Clash c d
  · simp [hclash]
  · rw [if_neg hclash]
    simp only [hlt, hbit, hclash, not_false_eq_true, true_and, and_self]

/-- The loop accepts the entries that exist, are not used yet and are apart:
`used` is the set of the counters of the entries before. -/
theorem validateFrom_iff (used : BitVec 8) (i : ℕ) (l : List CciCountersCfg) :
    validateFrom used i l = .ok () ↔
      (∀ c ∈ l, c.counter.toNat < 4 ∧ used.getLsbD c.counter.toNat = false) ∧ l.Pairwise Apart := by
  induction l generalizing used i with
  | nil => simp [validateFrom]
  | cons c rest ih =>
    rw [validateFrom_cons_iff, List.forall_mem_cons, List.pairwise_cons, ih]
    constructor
    · rintro ⟨⟨hlt, hfree⟩, hclash, hrest, hpair⟩
      refine ⟨⟨⟨hlt, hfree⟩, fun d hd => ?_⟩, fun d hd => ?_, hpair⟩
      · exact ⟨(hrest d hd).1, ((used_after_iff used hlt).mp (hrest d hd).2).1⟩
      · exact ⟨((used_after_iff used hlt).mp (hrest d hd).2).2, fun h => hclash ⟨d, hd, Or.inl h⟩⟩
    · rintro ⟨⟨⟨hlt, hfree⟩, hrest⟩, hapart, hpair⟩
      refine ⟨⟨hlt, hfree⟩, ?_, fun d hd => ?_, hpair⟩
      · rintro ⟨d, hd, hevent | ⟨-, hcounter⟩⟩
        · exact (hapart d hd).2 hevent
        · exact (hapart d hd).1 hcounter
      · exact ⟨(hrest d hd).1, (used_after_iff used hlt).mpr ⟨(hrest d hd).2, (hapart d hd).1⟩⟩

theorem mem_entries {cfg : ℕ → CciCountersCfg} {n : ℕ} {c : CciCountersCfg} :
    c ∈ entries cfg n ↔ ∃ i < n, cfg i = c := by
  simp [entries]

theorem pairwise_entries {cfg : ℕ → CciCountersCfg} {n : ℕ} {R : CciCountersCfg → CciCountersCfg → Prop} :
    (entries cfg n).Pairwise R ↔ ∀ i j, i < j → j < n → R (cfg i) (cfg j) := by
  rw [entries, List.pairwise_map, List.pairwise_iff_getElem]
  simp only [List.length_range, List.getElem_range]
  constructor
  · intro h i j hij hj
    exact h i j (by omega) hj hij
  · intro h i j _ hj hij
    exact h i j hij hj

/-- The check accepts the valid configurations. -/
theorem validate_iff (cfg : ℕ → CciCountersCfg) (n : ℕ) :
    cciValidateConfig cfg n = .ok () ↔ Valid cfg n := by
  unfold cciValidateConfig Valid
  by_cases hn : n = 0 ∨ cciMaxCounters < n
  · rw [if_pos hn]
    unfold cciMaxCounters at hn
    constructor
    · rintro ⟨⟩
    · rintro ⟨⟨h1, h4⟩, -⟩
      omega
  · rw [if_neg hn, validateFrom_iff, pairwise_entries]
    unfold cciMaxCounters at hn
    have hn' : 1 ≤ n ∧ n ≤ 4 := by omega
    constructor
    · rintro ⟨hall, hpair⟩
      refine ⟨hn', fun i hi => (hall _ (mem_entries.mpr ⟨i, hi, rfl⟩)).1, fun i j hij hj => ?_,
        fun i j hij hj => ?_⟩
      · exact (hpair i j hij hj).1
      · exact (hpair i j hij hj).2
    · rintro ⟨-, hlt, hcounter, hevent⟩
      refine ⟨fun c hc => ?_, fun i j hij hj => ⟨hcounter i j hij hj, hevent i j hij hj⟩⟩
      obtain ⟨i, hi, rfl⟩ := mem_entries.mp hc
      exact ⟨hlt i hi, BitVec.getLsbD_zero⟩

/-! ### What an entry leaves -/

section Counter

variable (s : Regs) (k kIf : Fin 4) (eventCode interface : BitVec 8)

theorem writeCounter_of_ne {r : CciReg} (hesr : r ≠ .esr k) (hcontrol : r ≠ .eventCounterControl k) :
    writeCounter s k kIf eventCode interface r = s r := by
  unfold writeCounter writeRegBit
  rw [modify_of_ne hcontrol, modify_of_ne hesr, modify_of_ne hesr]

theorem writeCounter_esr :
    writeCounter s k kIf eventCode interface (.esr k) =
      writeField (writeField (s (.esr k)) (evtCntMask k) (evtCntShift k) (eventCode.setWidth 32))
        (evtIfMask kIf) (evtIfShift kIf) (interface.setWidth 32) := by
  unfold writeCounter writeRegBit
  rw [modify_of_ne (by simp), modify_same, modify_same]

theorem writeCounter_control :
    (writeCounter s k kIf eventCode interface (.eventCounterControl k)).getLsbD (cntEnBit k) = true := by
  unfold writeCounter writeRegBit
  have hbit : cntEnBit k < 32 := by unfold cntEnBit; omega
  rw [modify_same, getLsbD_writeBit, if_pos ⟨rfl, hbit⟩]

/-- The event field reads back the code, modulo its five bits. -/
theorem writeCounter_event :
    (readField (writeCounter s k kIf eventCode interface (.esr k)) (evtCntMask k) (evtCntShift k)).toNat =
      eventCode.toNat % 2 ^ 5 := by
  have hdisjoint : evtIfMask kIf &&& evtCntMask k = 0#32 := by
    unfold evtIfMask evtCntMask evtIfShift evtCntShift
    decide
  have hmask : evtCntMask k = fieldMask 32 5 (evtCntShift k) := rfl
  rw [writeCounter_esr, readField_writeField_of_disjoint hdisjoint, hmask,
    toNat_readField_writeField (by unfold evtCntShift; omega), BitVec.toNat_setWidth,
    Nat.mod_mod_of_dvd _ (by decide : 2 ^ 5 ∣ 2 ^ 32)]

/-- The interface field reads back the interface, modulo its three bits. -/
theorem writeCounter_interface :
    (readField (writeCounter s k kIf eventCode interface (.esr k)) (evtIfMask k) (evtIfShift k)).toNat =
      interface.toNat % 2 ^ 3 := by
  -- all the interface masks are the same, also where that of another counter is used
  have hmask : evtIfMask k = fieldMask 32 3 (evtIfShift k) := rfl
  have hmaskIf : evtIfMask kIf = fieldMask 32 3 (evtIfShift k) := rfl
  have hshift : evtIfShift kIf = evtIfShift k := rfl
  rw [writeCounter_esr, hmaskIf, hmask, hshift, toNat_readField_writeField (by unfold evtIfShift; omega),
    BitVec.toNat_setWidth, Nat.mod_mod_of_dvd _ (by decide : 2 ^ 3 ∣ 2 ^ 32)]

end Counter

theorem setupCounter_eq (s : Regs) {c : CciCountersCfg} {k : Fin 4} (h : c.counter.toNat = k) :
    ∃ kIf, setupCounter s c = writeCounter s k kIf (cciEventToHwcode c.events) c.interface := by
  have hcounter : c.counter = BitVec.ofNat 8 k := by
    apply BitVec.eq_of_toNat_eq
    rw [h, BitVec.toNat_ofNat, Nat.mod_eq_of_lt (by omega)]
  unfold setupCounter
  rw [hcounter]
  match k with
  | 0 => exact ⟨0, rfl⟩
  | 1 => exact ⟨1, rfl⟩
  | 2 => exact ⟨2, rfl⟩
  | 3 => exact ⟨2, rfl⟩

/-- What is set up for a counter. -/
inductive Item
  | event | interface | enable
  deriving DecidableEq, Repr

/-- An item of a counter, as the registers have it. -/
def item (s : Regs) : Fin 4 × Item → ℕ
  | (k, .event) => (readField (s (.esr k)) (evtCntMask k) (evtCntShift k)).toNat
  | (k, .interface) => (readField (s (.esr k)) (evtIfMask k) (evtIfShift k)).toNat
  | (k, .enable) => ((s (.eventCounterControl k)).getLsbD (cntEnBit k)).toNat

/-- What the entry `c` has for an item, cut to the item's field. -/
def CciCountersCfg.value (c : CciCountersCfg) : Item → ℕ
  | .event => (cciEventToHwcode c.events).toNat % 2 ^ 5
  | .interface => c.interface.toNat % 2 ^ 3
  | .enable => 1

def CciCountersCfg.stores (c : CciCountersCfg) (slot : Fin 4 × Item) : Option ℕ :=
  if c.counter.toNat = slot.1 then some (c.value slot.2) else none

theorem item_setupCounter (s : Regs) {c : CciCountersCfg} (hc : c.counter.toNat < 4) (slot : Fin 4 × Item) :
    item (setupCounter s c) slot = (c.stores slot).getD (item s slot) := by
  obtain ⟨k, it⟩ := slot
  obtain ⟨kIf, hset⟩ := setupCounter_eq s (k := ⟨c.counter.toNat, hc⟩) rfl
  rw [hset]
  unfold CciCountersCfg.stores
  by_cases hk : c.counter.toNat = k
  · obtain rfl : ⟨c.counter.toNat, hc⟩ = k := Fin.ext hk
    rw [if_pos rfl, Option.getD_some]
    cases it with
    | event => exact writeCounter_event s _ kIf _ _
    | interface => exact writeCounter_interface s _ kIf _ _
    | enable => exact congrArg Bool.toNat (writeCounter_control s _ kIf _ _)
  · -- the registers of another counter
    have hne : k ≠ ⟨c.counter.toNat, hc⟩ := fun h => hk (by rw [h])
    have hesr := writeCounter_of_ne s ⟨c.counter.toNat, hc⟩ kIf (cciEventToHwcode c.events) c.interface
      (r := .esr k) (by simpa using hne) (by simp)
    have hcontrol := writeCounter_of_ne s ⟨c.counter.toNat, hc⟩ kIf (cciEventToHwcode c.events) c.interface
      (r := .eventCounterControl k) (by simp) (by simpa using hne)
    rw [if_neg hk, Option.getD_none]
    cases it with
    | event => simp only [item, hesr]
    | interface => simp only [item, hesr]
    | enable => simp only [item, hcontrol]

/-- The switch has no case for other counters. -/
theorem setupCounter_of_ge (s : Regs) {c : CciCountersCfg} (h : ¬ c.counter.toNat < 4) :
    setupCounter s c = s := by
  have hne : ∀ k : BitVec 8, k.toNat < 4 → c.counter ≠ k := fun k hk heq => h (heq ▸ hk)
  unfold setupCounter
  dsimp only
  split
  · next hk => exact absurd hk (hne 0#8 (by decide))
  · next hk => exact absurd hk (hne 1#8 (by decide))
  · next hk => exact absurd hk (hne 2#8 (by decide))
  · next hk => exact absurd hk (hne 3#8 (by decide))
  · rfl

theorem setupCounter_of_ne (s : Regs) {c : CciCountersCfg} {r : CciReg}
    (hr : ∀ k : Fin 4, c.counter.toNat = k → r ≠ .esr k ∧ r ≠ .eventCounterControl k) :
    setupCounter s c r = s r := by
  by_cases hc : c.counter.toNat < 4
  · obtain ⟨kIf, hset⟩ := setupCounter_eq s (k := ⟨c.counter.toNat, hc⟩) rfl
    obtain ⟨hesr, hcontrol⟩ := hr ⟨c.counter.toNat, hc⟩ rfl
    rw [hset, writeCounter_of_ne s _ kIf _ _ hesr hcontrol]
  · rw [setupCounter_of_ge s hc]

/-! ### What the setup leaves -/

/-- The event and the interface of the entry are read back from the
event-select register of its counter, and the counter is enabled. -/
def ReadsBack (s' : Regs) (c : CciCountersCfg) : Prop :=
  ∃ k : Fin 4, c.counter.toNat = k ∧
    readField (s' (.esr k)) (evtCntMask k) (evtCntShift k) = (cciEventToHwcode c.events).setWidth 32 ∧
    readField (s' (.esr k)) (evtIfMask k) (evtIfShift k) = c.interface.setWidth 32 ∧
    (s' (.eventCounterControl k)).getLsbD (cntEnBit k) = true

/-- A rejected configuration changes no register. After an accepted one every
entry reads back, and only the registers of the entries have changed. -/
def AllOrNothing (s : Regs) (cfg : ℕ → CciCountersCfg) (n : ℕ) : Prop :=
  (cciValidateConfig cfg n ≠ .ok () → (cciSetupCounters s cfg n).1 = s) ∧
    (cciValidateConfig cfg n = .ok () →
      (∀ i < n, ReadsBack (cciSetupCounters s cfg n).1 (cfg i)) ∧
        ∀ r, (∀ i < n, ∀ k : Fin 4, (cfg i).counter.toNat = k → r ≠ .esr k ∧ r ≠ .eventCounterControl k) →
          (cciSetupCounters s cfg n).1 r = s r)

/-- The interface and the code of the event are no wider than their fields. -/
def Fits (c : CciCountersCfg) : Prop := c.interface.toNat < 8 ∧ c.events ≠ .cycles

/-- The CCI cycles are the only event whose code does not fit. -/
theorem hwcode_mod_iff (ev : CciEvents) :
    (cciEventToHwcode ev).toNat % 2 ^ 5 = (cciEventToHwcode ev).toNat ↔ ev ≠ .cycles := by
  cases ev <;> decide

theorem fits_iff (c : CciCountersCfg) :
    Fits c ↔ c.value .event = (cciEventToHwcode c.events).toNat ∧ c.value .interface = c.interface.toNat := by
  have hwidth : (8 : ℕ) = 2 ^ 3 := rfl
  unfold Fits CciCountersCfg.value
  rw [hwcode_mod_iff, Nat.mod_eq_iff_lt (by decide), ← hwidth, and_comm]

section Accepted

variable {cfg : ℕ → CciCountersCfg} {n : ℕ}

theorem setup_of_rejected (s : Regs) (h : cciValidateConfig cfg n ≠ .ok ()) :
    (cciSetupCounters s cfg n).1 = s := by
  unfold cciSetupCounters
  cases hv : cciValidateConfig cfg n with
  | error e => rfl
  | ok u => exact absurd hv h

variable (hv : Valid cfg n)

include hv

theorem setup_of_valid (s : Regs) :
    (cciSetupCounters s cfg n).1 = (entries cfg n).foldl setupCounter s := by
  obtain ⟨⟨-, h4⟩, -⟩ := id hv
  unfold cciSetupCounters
  rw [(validate_iff cfg n).mpr hv]
  dsimp only
  rw [if_neg (by omega)]

/-- No two entries store to the same counter. -/
theorem agree_stores (slot : Fin 4 × Item) : Agree CciCountersCfg.stores (entries cfg n) slot := by
  obtain ⟨-, -, hcounter, -⟩ := id hv
  intro c hc d hd v v' hcv hdv
  obtain ⟨i, hi, rfl⟩ := mem_entries.mp hc
  obtain ⟨j, hj, rfl⟩ := mem_entries.mp hd
  unfold CciCountersCfg.stores at hcv hdv
  split at hcv
  · next hci =>
    split at hdv
    · next hdj =>
      have heq : (cfg i).counter = (cfg j).counter := BitVec.eq_of_toNat_eq (hci.trans hdj.symm)
      rcases Nat.lt_trichotomy i j with h | rfl | h
      · exact absurd heq (hcounter i j h hj)
      · exact Option.some.inj (hcv.symm.trans hdv)
      · exact absurd heq.symm (hcounter j i h hi)
    · cases hdv
  · cases hcv

/-- After the setup each item of an entry's counter is the entry's. -/
theorem item_setup (s : Regs) {i : ℕ} (hi : i < n) {k : Fin 4} (hk : (cfg i).counter.toNat = k) (it : Item) :
    item (cciSetupCounters s cfg n).1 (k, it) = (cfg i).value it := by
  have hlt : ∀ c ∈ entries cfg n, c.counter.toNat < 4 := by
    intro c hc
    obtain ⟨j, hj, rfl⟩ := mem_entries.mp hc
    exact hv.2.1 j hj
  have hstores : (cfg i).stores (k, it) = some ((cfg i).value it) := if_pos hk
  have hlast := (agree_stores hv (k, it)).lastWrite_of_mem (mem_entries.mpr ⟨i, hi, rfl⟩) hstores
  rw [setup_of_valid hv, foldl_lastWrite item (fun c hc s => item_setupCounter s (hlt c hc) (k, it)) s, hlast,
    Option.getD_some]

theorem readsBack_iff (s : Regs) {i : ℕ} (hi : i < n) :
    ReadsBack (cciSetupCounters s cfg n).1 (cfg i) ↔ Fits (cfg i) := by
  have hwidth : ∀ v : BitVec 8, (v.setWidth 32).toNat = v.toNat := fun v => by
    rw [BitVec.toNat_setWidth, Nat.mod_eq_of_lt (by omega)]
  rw [fits_iff]
  constructor
  · rintro ⟨k, hk, hevent, hinterface, -⟩
    rw [← item_setup hv s hi hk .event, ← item_setup hv s hi hk .interface]
    exact ⟨(congrArg BitVec.toNat hevent).trans (hwidth _), (congrArg BitVec.toNat hinterface).trans (hwidth _)⟩
  · rintro ⟨hevent, hinterface⟩
    have hlt := hv.2.1 i hi
    have hitem := item_setup hv s hi (k := ⟨(cfg i).counter.toNat, hlt⟩) rfl
    refine ⟨⟨(cfg i).counter.toNat, hlt⟩, rfl, ?_, ?_, ?_⟩
    · exact BitVec.eq_of_toNat_eq ((hitem .event).trans (hevent.trans (hwidth _).symm))
    · exact BitVec.eq_of_toNat_eq ((hitem .interface).trans (hinterface.trans (hwidth _).symm))
    · exact Bool.toNat_eq_one.mp (hitem .enable)

theorem setup_of_ne (s : Regs) {r : CciReg}
    (hr : ∀ i < n, ∀ k : Fin 4, (cfg i).counter.toNat = k → r ≠ .esr k ∧ r ≠ .eventCounterControl k) :
    (cciSetupCounters s cfg n).1 r = s r := by
  have hkeep : ∀ c ∈ entries cfg n, ∀ s, setupCounter s c r = s r := by
    intro c hc s
    obtain ⟨i, hi, rfl⟩ := mem_entries.mp hc
    exact setupCounter_of_ne s (hr i hi)
  rw [setup_of_valid hv]
  exact List.foldlRecOn (motive := fun s' => s' r = s r) (entries cfg n) setupCounter rfl
    fun s' hs' c hc => (hkeep c hc s').trans hs'

end Accepted

/-- **Main result.** The check accepts the valid configurations, and the setup
is all or nothing and faithful iff, when the configuration is valid, every
interface and every event fits its field. -/
theorem allOrNothing_iff (s : Regs) (cfg : ℕ → CciCountersCfg) (n : ℕ) :
    (cciValidateConfig cfg n = .ok () ↔ Valid cfg n) ∧
      (AllOrNothing s cfg n ↔ (Valid cfg n → ∀ i < n, Fits (cfg i))) := by
  refine ⟨validate_iff cfg n, ?_⟩
  unfold AllOrNothing
  rw [validate_iff]
  constructor
  · rintro ⟨-, h⟩ hv i hi
    exact (readsBack_iff hv s hi).mp ((h hv).1 i hi)
  · intro h
    refine ⟨fun hrejected => setup_of_rejected s hrejected, fun hv => ?_⟩
    exact ⟨fun i hi => (readsBack_iff hv s hi).mpr (h hv i hi), fun r hr => setup_of_ne hv s hr⟩

/-- One counter for the CCI cycles: the code `0xff` is read back as `0x1F`. -/
theorem not_allOrNothing_cycles : ¬ AllOrNothing (fun _ => 0#32) (fun _ => ⟨.cycles, 0#8, 0#8⟩) 1 := by
  intro h
  obtain ⟨hreads, -⟩ := h.2 rfl
  obtain ⟨k, hk, hevent, -⟩ := hreads 0 (by decide)
  obtain rfl : k = 0 := Fin.ext hk.symm
  revert hevent
  decide

end CciSetup
end DaatMcs

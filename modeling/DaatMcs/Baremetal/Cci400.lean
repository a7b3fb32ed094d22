/-
# The PMU driver of the CCI-400

The registers of `cci_regs_t` as plain memory, and the calls that enable,
disable and reset the counters. Every one of them is a sequence of
`WRITE_BIT`s, so what a call leaves is told by the bits it writes
(`Call.writes`, `bitAt_apply`) and what a run of calls leaves by the last
write to each bit (`bitAt_run`).

The calls are to drive two flags, the global enable and the enable of the
cycle counter (`Call.sets`). `cycle_counter_disable` clears the reset bit of
the control register and not the enable bit, so a cycle counter once enabled
stays enabled (`follows_iff`).
-/
import DaatMcs.Lib.LastWrite
import DaatMcs.Lib.Registers

namespace DaatMcs
namespace Cci400

open Registers

/-- The registers of `cci_regs_t`; those of the slave interfaces and of the
event counters by their number. -/
inductive CciReg
  | controlOverride | speculationControl | secureAccess | status | impreciseError
  | performanceMonitorControl
  | snoopControl (s : Fin 5) | shareableOverride (s : Fin 3)
  | readQosOverride (s : Fin 5) | writeQosOverride (s : Fin 5) | qosControl (s : Fin 5)
  | maxOt (s : Fin 3) | targetLatency (s : Fin 5) | latencyRegulation (s : Fin 5) | qosRange (s : Fin 5)
  | cycleCounter | cycleCounterControl | cycleCountOverflow
  | esr (c : Fin 4) | eventCounter (c : Fin 4) | eventCounterControl (c : Fin 4)
  | eventCounterOverflow (c : Fin 4)
  deriving DecidableEq, Repr

abbrev Regs := CciReg → BitVec 32

/-! ### The calls -/

/-- `CEN_BIT`: enable all counters. -/
def cenBit : ℕ := 0
/-- `RST_BIT`: reset all counters but the cycle counter. -/
def rstBit : ℕ := 1
/-- `CCR_BIT`: reset the cycle counter. -/
def ccrBit : ℕ := 2
/-- `CCNT_EN_BIT`, of the cycle counter control register. -/
def ccntEnBit : ℕ := 0

/-- `WRITE_BIT(p_cci_regs->r, bit, val)` -/
def writeRegBit (s : Regs) (r : CciReg) (bit : ℕ) (val : Bool) : Regs :=
  modify s r fun v => writeBit v bit val

def enableAllcounters (s : Regs) : Regs := writeRegBit s .performanceMonitorControl cenBit true

def disableAllcounters (s : Regs) : Regs := writeRegBit s .performanceMonitorControl cenBit false

def resetAllcounters (s : Regs) : Regs :=
  writeRegBit (writeRegBit s .performanceMonitorControl rstBit true) .performanceMonitorControl rstBit false

def cycleCounterReset (s : Regs) : Regs :=
  writeRegBit (writeRegBit s .performanceMonitorControl ccrBit true) .performanceMonitorControl ccrBit false

def cycleCounterEnable (s : Regs) : Regs :=
  writeRegBit (cycleCounterReset s) .cycleCounterControl ccntEnBit true

/-- The source clears `CCR_BIT` of the PMU control register here. -/
def cycleCounterDisable (s : Regs) : Regs := writeRegBit s .performanceMonitorControl ccrBit false

def cciPmuStart (s : Regs) : Regs := enableAllcounters (resetAllcounters s)

inductive Call
  | enableAllcounters | disableAllcounters | resetAllcounters | cciPmuStart
  | cycleCounterEnable | cycleCounterDisable | cycleCounterReset
  deriving DecidableEq, Repr

def Call.apply (s : Regs) : Call → Regs
  | .enableAllcounters => Cci400.enableAllcounters s
  | .disableAllcounters => Cci400.disableAllcounters s
  | .resetAllcounters => Cci400.resetAllcounters s
  | .cciPmuStart => Cci400.cciPmuStart s
  | .cycleCounterEnable => Cci400.cycleCounterEnable s
  | .cycleCounterDisable => Cci400.cycleCounterDisable s
  | .cycleCounterReset => Cci400.cycleCounterReset s

def run (s : Regs) (cs : List Call) : Regs := cs.foldl Call.apply s

/-! ### The bits they write -/

abbrev Slot := CciReg × ℕ

def cen : Slot := (.performanceMonitorControl, cenBit)
def rst : Slot := (.performanceMonitorControl, rstBit)
def ccr : Slot := (.performanceMonitorControl, ccrBit)
def ccntEn : Slot := (.cycleCounterControl, ccntEnBit)

/-- What is in each bit after the call, where the call writes it. -/
def Call.writes : Call → Slot → Option Bool
  | .enableAllcounters, slot => if slot = cen then some true else none
  | .disableAllcounters, slot => if slot = cen then some false else none
  | .resetAllcounters, slot => if slot = rst then some false else none
  | .cciPmuStart, slot => if slot = cen then some true else if slot = rst then some false else none
  | .cycleCounterEnable, slot =>
    if slot = ccntEn then some true else if slot = ccr then some false else none
  | .cycleCounterDisable, slot | .cycleCounterReset, slot => if slot = ccr then some false else none

theorem bitAt_writeRegBit (s : Regs) {target : Slot} (h : target.2 < 32) (val : Bool) (slot : Slot) :
    bitAt (writeRegBit s target.1 target.2 val) slot = if slot = target then val else bitAt s slot := by
  rw [writeRegBit, bitAt_modify_writeBit s target.1 h]
  split <;> rfl

theorem bitAt_enableAllcounters (s : Regs) (slot : Slot) :
    bitAt (enableAllcounters s) slot = if slot = cen then true else bitAt s slot :=
  @bitAt_writeRegBit s cen (by decide) true slot

/-- A bit that is set and cleared again, as the reset bits are. -/
theorem bitAt_pulse (s : Regs) {target : Slot} (h : target.2 < 32) (slot : Slot) :
    bitAt (writeRegBit (writeRegBit s target.1 target.2 true) target.1 target.2 false) slot =
      if slot = target then false else bitAt s slot := by
  rw [bitAt_writeRegBit _ h, bitAt_writeRegBit _ h]
  split_ifs <;> rfl

theorem bitAt_resetAllcounters (s : Regs) (slot : Slot) :
    bitAt (resetAllcounters s) slot = if slot = rst then false else bitAt s slot :=
  @bitAt_pulse s rst (by decide) slot

theorem bitAt_cycleCounterReset (s : Regs) (slot : Slot) :
    bitAt (cycleCounterReset s) slot = if slot = ccr then false else bitAt s slot :=
  @bitAt_pulse s ccr (by decide) slot

/-- A call leaves what it writes and nothing else changes. -/
theorem bitAt_apply (s : Regs) (c : Call) (slot : Slot) :
    bitAt (c.apply s) slot = (c.writes slot).getD (bitAt s slot) := by
  cases c with
  | enableAllcounters =>
    show bitAt (enableAllcounters s) slot = (if slot = cen then some true else none).getD _
    rw [bitAt_enableAllcounters]
    split_ifs <;> rfl
  | disableAllcounters =>
    show bitAt (writeRegBit s cen.1 cen.2 false) slot = (if slot = cen then some false else none).getD _
    rw [bitAt_writeRegBit s (by decide)]
    split_ifs <;> rfl
  | resetAllcounters =>
    show bitAt (resetAllcounters s) slot = (if slot = rst then some false else none).getD _
    rw [bitAt_resetAllcounters]
    split_ifs <;> rfl
  | cciPmuStart =>
    show bitAt (enableAllcounters (resetAllcounters s)) slot =
      (if slot = cen then some true else if slot = rst then some false else none).getD _
    rw [bitAt_enableAllcounters, bitAt_resetAllcounters]
    split_ifs <;> rfl
  | cycleCounterEnable =>
    show bitAt (writeRegBit (cycleCounterReset s) ccntEn.1 ccntEn.2 true) slot =
      (if slot = ccntEn then some true else if slot = ccr then some false else none).getD _
    rw [bitAt_writeRegBit _ (by decide), bitAt_cycleCounterReset]
    split_ifs <;> rfl
  | cycleCounterDisable =>
    show bitAt (writeRegBit s ccr.1 ccr.2 false) slot = (if slot = ccr then some false else none).getD _
    rw [bitAt_writeRegBit s (by decide)]
    split_ifs <;> rfl
  | cycleCounterReset =>
    show bitAt (cycleCounterReset s) slot = (if slot = ccr then some false else none).getD _
    rw [bitAt_cycleCounterReset]
    split_ifs <;> rfl

/-- After a run every bit has the last value written to it. -/
theorem bitAt_run (s : Regs) (cs : List Call) (slot : Slot) :
    bitAt (run s cs) slot = (lastWrite Call.writes cs slot).getD (bitAt s slot) :=
  foldl_lastWrite bitAt (fun c _ a => bitAt_apply a c slot) s

/-! ### The flags -/

/-- The two flags the calls are to drive. -/
inductive Flag
  | global | cycle
  deriving DecidableEq, Repr

def Flag.slot : Flag → Slot
  | .global => cen
  | .cycle => ccntEn

/-- What a call is to do to a flag. -/
def Call.sets : Call → Flag → Option Bool
  | .enableAllcounters, .global | .cciPmuStart, .global => some true
  | .disableAllcounters, .global => some false
  | .cycleCounterEnable, .cycle => some true
  | .cycleCounterDisable, .cycle => some false
  | _, _ => none

/-- The enable state follows the calls: each flag is as the last call for it
says, and no bit changes but the flags and the two reset bits. -/
def Follows (s : Regs) (cs : List Call) : Prop :=
  (∀ flag : Flag, bitAt (run s cs) flag.slot = (lastWrite Call.sets cs flag).getD (bitAt s flag.slot)) ∧
    ∀ slot, slot ∉ [cen, ccntEn, rst, ccr] → bitAt (run s cs) slot = bitAt s slot

theorem writes_global (c : Call) : c.writes cen = c.sets .global := by
  cases c <;> rfl

/-- The cycle counter is enabled as it should; its disable is lost. -/
theorem writes_cycle (c : Call) : c.writes ccntEn = dropped Call.sets false c .cycle := by
  cases c <;> rfl

theorem writes_eq_none {slot : Slot} (h : slot ∉ [cen, ccntEn, rst, ccr]) (c : Call) :
    c.writes slot = none := by
  simp only [List.mem_cons, List.not_mem_nil, or_false, not_or] at h
  obtain ⟨hcen, hccntEn, hrst, hccr⟩ := h
  cases c <;> simp [Call.writes, hcen, hccntEn, hrst, hccr]

/-- The cycle counter's enable is the last of its calls' unless that is a
disable, of a counter that was on or had been enabled. -/
theorem cycle_iff (s : Regs) (cs : List Call) :
    bitAt (run s cs) ccntEn = (lastWrite Call.sets cs .cycle).getD (bitAt s ccntEn) ↔
      lastWrite Call.sets cs .cycle ≠ some false ∨ (bitAt s ccntEn = false ∧ .cycleCounterEnable ∉ cs) := by
  have hrun : bitAt (run s cs) ccntEn =
      (lastWrite (dropped Call.sets false) cs .cycle).getD (bitAt s ccntEn) :=
    foldl_lastWrite (fun s _ => bitAt s ccntEn)
      (fun c _ a => by rw [bitAt_apply, writes_cycle]) s
  have henable : (∀ c ∈ cs, ∀ v, c.sets .cycle = some v → v = false) ↔ .cycleCounterEnable ∉ cs := by
    constructor
    · intro h hmem
      cases h _ hmem true rfl
    · intro h c hc v hv
      cases c with
      | cycleCounterEnable => exact absurd hc h
      | cycleCounterDisable => cases hv; rfl
      | enableAllcounters | disableAllcounters | resetAllcounters | cciPmuStart | cycleCounterReset =>
        cases hv
  rw [hrun, lastWrite_dropped_iff, henable]

/-- **Main result.** The enable state follows the calls iff the last call for
the cycle counter is not its disable, or the counter was off and no call
enables it. -/
theorem follows_iff (s : Regs) (cs : List Call) :
    Follows s cs ↔ lastWrite Call.sets cs .cycle ≠ some false ∨
      (bitAt s ccntEn = false ∧ .cycleCounterEnable ∉ cs) := by
  have hglobal : bitAt (run s cs) cen = (lastWrite Call.sets cs .global).getD (bitAt s cen) :=
    foldl_lastWrite (fun s _ => bitAt s cen)
      (fun c _ a => by rw [bitAt_apply, writes_global]) s
  have hframe : ∀ slot, slot ∉ [cen, ccntEn, rst, ccr] → bitAt (run s cs) slot = bitAt s slot := by
    intro slot hslot
    have hnone : lastWrite Call.writes cs slot = none :=
      lastWrite_eq_none.mpr fun c _ => writes_eq_none hslot c
    rw [bitAt_run, hnone, Option.getD_none]
  rw [← cycle_iff s cs]
  constructor
  · intro h
    exact h.1 .cycle
  · intro h
    refine ⟨fun flag => ?_, hframe⟩
    cases flag with
    | global => exact hglobal
    | cycle => exact h

/-- Enabled and then disabled, the cycle counter is still enabled. -/
theorem not_follows_enable_disable :
    ¬ Follows (fun _ => 0#32) [.cycleCounterEnable, .cycleCounterDisable] := by
  intro h
  have hcycle := h.1 .cycle
  revert hcycle
  decide

end Cci400
end DaatMcs

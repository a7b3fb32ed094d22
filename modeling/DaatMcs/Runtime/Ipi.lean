/-
# Interrupting other CPUs

`irq_send_ipi` writes `GICD_SGIR` once for each bit of its mask, with the bit
moved to the target list, the bits 16 to 23 of the register. The mask has 64
bits and the list 8: the bits 24 and 25 are the filter of the target list, so
bit 8 of the mask interrupts every CPU but the sender and bit 9 the sender,
and higher bits go nowhere (`receives_iff`).
-/
import DaatMcs.Lib.Registers

namespace DaatMcs
namespace Ipi

/-- `GICD_SGIR_CPUTRGLST_OFF` -/
def cputrglstOff : ℕ := 16

/-- The word `gic_send_sgi` writes to `GICD_SGIR`: an `unsigned long`, cut to 32 bits. -/
def gicSendSgi (cpuTarget : ℕ) (sgiNum : BitVec 64) : BitVec 32 :=
  ((1#64 <<< (cputrglstOff + cpuTarget)) ||| (sgiNum &&& 0xF#64)).setWidth 32

/-- The words `irq_send_ipi` writes, in order; `IPI_IRQ_ID` is 0. -/
def irqSendIpi (targetCpuMask : BitVec 64) : List (BitVec 32) :=
  ((List.range 64).filter fun i => targetCpuMask &&& 1#64 <<< i ≠ 0#64).map fun i => gicSendSgi i 0#64

/-- Whether a write to `GICD_SGIR` by the CPU `self` interrupts the CPU `c`: the
bits 24 and 25 choose the list, all CPUs but the sender, or the sender. -/
def interrupts (sgir : BitVec 32) (self c : ℕ) : Bool :=
  match sgir.getLsbD 25, sgir.getLsbD 24 with
  | false, false => c < 8 && sgir.getLsbD (cputrglstOff + c)
  | false, true => c ≠ self
  | true, false => c = self
  | true, true => false

/-- The CPU `c` gets an interrupt from the CPU `self`. -/
def Receives (targetCpuMask : BitVec 64) (self c : ℕ) : Prop :=
  ∃ sgir ∈ irqSendIpi targetCpuMask, interrupts sgir self c = true

theorem getLsbD_gicSendSgi (i b : ℕ) :
    (gicSendSgi i 0#64).getLsbD b = (decide (b < 32) && decide (b = cputrglstOff + i)) := by
  unfold gicSendSgi
  rw [BitVec.zero_and, BitVec.or_zero, BitVec.getLsbD_setWidth, BitVec.getLsbD_shiftLeft, BitVec.getLsbD_one]
  by_cases hb : b < 32
  · have hb' : b < 64 := by omega
    by_cases hi : b = cputrglstOff + i
    · simp [hi, hi ▸ hb, hi ▸ hb']
    · have hne : b < cputrglstOff + i ∨ b - (cputrglstOff + i) ≠ 0 := by omega
      rcases hne with h | h <;> simp [hi, h]
  · simp [hb]

theorem and_bit_ne_zero (mask : BitVec 64) {i : ℕ} (hi : i < 64) :
    mask &&& 1#64 <<< i ≠ 0#64 ↔ mask.getLsbD i = true := by
  constructor
  · intro h
    by_contra hbit
    refine h (BitVec.eq_of_getLsbD_eq fun k hk => ?_)
    rw [BitVec.getLsbD_and, BitVec.getLsbD_shiftLeft, BitVec.getLsbD_one]
    by_cases hki : k = i
    · simp [hki, Bool.eq_false_iff.mpr hbit]
    · have hne : k < i ∨ k - i ≠ 0 := by omega
      rcases hne with h | h <;> simp [h]
  · intro hbit h
    have hi' : (mask &&& 1#64 <<< i).getLsbD i = true := by
      rw [BitVec.getLsbD_and, hbit, BitVec.getLsbD_shiftLeft, BitVec.getLsbD_one]
      simp [hi]
    rw [h, BitVec.getLsbD_zero] at hi'
    cases hi'

theorem mem_irqSendIpi {mask : BitVec 64} {sgir : BitVec 32} :
    sgir ∈ irqSendIpi mask ↔ ∃ i, mask.getLsbD i = true ∧ gicSendSgi i 0#64 = sgir := by
  simp only [irqSendIpi, List.mem_map, List.mem_filter, List.mem_range, decide_eq_true_eq]
  constructor
  · rintro ⟨i, ⟨hi, hne⟩, heq⟩
    exact ⟨i, (and_bit_ne_zero mask hi).mp hne, heq⟩
  · rintro ⟨i, hbit, heq⟩
    have hi : i < 64 := BitVec.lt_of_getLsbD hbit
    exact ⟨i, ⟨hi, (and_bit_ne_zero mask hi).mpr hbit⟩, heq⟩

/-- The bit of the mask decides whom its write interrupts. -/
theorem interrupts_gicSendSgi (i self : ℕ) {c : ℕ} (hc : c < 8) :
    interrupts (gicSendSgi i 0#64) self c = true ↔ i = c ∨ (i = 8 ∧ c ≠ self) ∨ (i = 9 ∧ c = self) := by
  have h25 : (gicSendSgi i 0#64).getLsbD 25 = decide (i = 9) := by
    rw [getLsbD_gicSendSgi]
    simp [cputrglstOff, show 25 = 16 + i ↔ i = 9 by omega]
  have h24 : (gicSendSgi i 0#64).getLsbD 24 = decide (i = 8) := by
    rw [getLsbD_gicSendSgi]
    simp [cputrglstOff, show 24 = 16 + i ↔ i = 8 by omega]
  have hlist : (gicSendSgi i 0#64).getLsbD (cputrglstOff + c) = decide (i = c) := by
    rw [getLsbD_gicSendSgi]
    simp [cputrglstOff, show 16 + c < 32 by omega, show c = i ↔ i = c from eq_comm]
  unfold interrupts
  rw [h25, h24, hlist]
  by_cases h9 : i = 9
  · have hic : i ≠ c := by omega
    simp [h9, show 9 ≠ c by omega]
  · by_cases h8 : i = 8
    · simp [h8, show 8 ≠ c by omega]
    · simp [h9, h8, hc]

/-- **Who is interrupted**: the CPUs of the mask, and besides every CPU but the
sender by its bit 8, and the sender by its bit 9. -/
theorem receives_iff (mask : BitVec 64) (self : ℕ) {c : ℕ} (hc : c < 8) :
    Receives mask self c ↔
      mask.getLsbD c = true ∨ (mask.getLsbD 8 = true ∧ c ≠ self) ∨ (mask.getLsbD 9 = true ∧ c = self) := by
  unfold Receives
  constructor
  · rintro ⟨sgir, hmem, hint⟩
    obtain ⟨i, hbit, rfl⟩ := mem_irqSendIpi.mp hmem
    rcases (interrupts_gicSendSgi i self hc).mp hint with rfl | ⟨rfl, hne⟩ | ⟨rfl, heq⟩
    · exact .inl hbit
    · exact .inr (.inl ⟨hbit, hne⟩)
    · exact .inr (.inr ⟨hbit, heq⟩)
  · rintro (hbit | ⟨hbit, hne⟩ | ⟨hbit, heq⟩)
    · exact ⟨_, mem_irqSendIpi.mpr ⟨c, hbit, rfl⟩, (interrupts_gicSendSgi c self hc).mpr (.inl rfl)⟩
    · exact ⟨_, mem_irqSendIpi.mpr ⟨8, hbit, rfl⟩,
        (interrupts_gicSendSgi 8 self hc).mpr (.inr (.inl ⟨rfl, hne⟩))⟩
    · exact ⟨_, mem_irqSendIpi.mpr ⟨9, hbit, rfl⟩,
        (interrupts_gicSendSgi 9 self hc).mpr (.inr (.inr ⟨rfl, heq⟩))⟩

theorem receives_bit_eight : Receives 0x100 0 3 ∧ ¬ Receives 0x100 0 0 :=
  ⟨(receives_iff _ 0 (by decide)).mpr (by decide), fun h => absurd ((receives_iff _ 0 (by decide)).mp h) (by decide)⟩

end Ipi
end DaatMcs

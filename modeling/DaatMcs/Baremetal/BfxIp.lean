/-
# The control register of the snoop IP

`config_ip` writes the enable bit and the function of the IP. Its masks name
the bits to keep (`EN_mask`, `FUNC_mask`), and it takes their union for the
bits to change: nothing is kept (`configIp_eq`), so the other bits survive
only where they were clear before (`configIpFramed_iff`). `WRITE_FIELD`,
whose mask names the bits to change, has the frame it should.
-/
import DaatMcs.Lib.Registers

namespace DaatMcs
namespace BfxIp

open Registers

/-- `EN_pos` -/
def enPos : ℕ := 0
/-- `FUNC_pos` -/
def funcPos : ℕ := 5

/-- `EN_mask`: all bits but the enable bit. -/
def enMask : BitVec 32 := 0xFFFFFFFE#32
/-- `FUNC_mask`: all bits but the function field. -/
def funcMask : BitVec 32 := 0xFFFFFE1F#32

/-- The value `config_ip(bfx, en, func)` leaves in `bfx->ctrl`. -/
def configIp (ctrl : BitVec 32) (en func : BitVec 8) : BitVec 32 :=
  (ctrl &&& ~~~(enMask ||| funcMask)) ||| en.setWidth 32 <<< enPos ||| func.setWidth 32 <<< funcPos

/-- The enable field, bit 0, and the function field, bits 5 to 8. -/
def enField : BitVec 32 := fieldMask 32 1 enPos
def funcField : BitVec 32 := fieldMask 32 4 funcPos

/-- The two fields hold what was asked for, and every other bit is as before. -/
def ConfigIpFramed (ctrl : BitVec 32) (en func : BitVec 8) : Prop :=
  readField (configIp ctrl en func) enField enPos = en.setWidth 32 ∧
    readField (configIp ctrl en func) funcField funcPos = func.setWidth 32 ∧
    configIp ctrl en func &&& ~~~(enField ||| funcField) = ctrl &&& ~~~(enField ||| funcField)

/-- The masks are those of the other bits. -/
theorem enMask_eq : enMask = ~~~enField := by decide

theorem funcMask_eq : funcMask = ~~~funcField := by decide

/-- No bit of the register is kept. -/
theorem configIp_eq (ctrl : BitVec 32) (en func : BitVec 8) :
    configIp ctrl en func = en.setWidth 32 ||| func.setWidth 32 <<< funcPos := by
  have hkeep : ~~~(enMask ||| funcMask) = 0#32 := by decide
  unfold configIp
  rw [hkeep, BitVec.and_zero, BitVec.zero_or, enPos, BitVec.shiftLeft_zero]

theorem getLsbD_configIp (ctrl : BitVec 32) (en func : BitVec 8) {k : ℕ} (hk : k < 32) :
    (configIp ctrl en func).getLsbD k =
      (en.getLsbD k || (decide (funcPos ≤ k) && func.getLsbD (k - funcPos))) := by
  have hsub : k - funcPos < 32 := by omega
  rw [configIp_eq, BitVec.getLsbD_or, BitVec.getLsbD_setWidth, BitVec.getLsbD_shiftLeft,
    BitVec.getLsbD_setWidth]
  by_cases h : funcPos ≤ k
  · simp [hk, hsub, h, Nat.not_lt_of_le h]
  · simp [hk, h, Nat.lt_of_not_le h]

section Fields

variable {en func : BitVec 8}

theorem readField_en (ctrl : BitVec 32) (hen : en.toNat < 2) :
    readField (configIp ctrl en func) enField enPos = en.setWidth 32 := by
  apply BitVec.eq_of_getLsbD_eq
  intro k hk
  rw [enField, getLsbD_readField (by decide), BitVec.getLsbD_setWidth]
  by_cases h : k < 1
  · obtain rfl : k = 0 := by omega
    rw [enPos, getLsbD_configIp ctrl en func (by decide)]
    simp [funcPos]
  · have hen' : en.getLsbD k = false := getLsbD_of_toNat_lt (n := 1) hen (by omega)
    rw [hen', Bool.and_false, decide_eq_false h, Bool.false_and]

theorem readField_func (ctrl : BitVec 32) (hen : en.toNat < 2) (hfunc : func.toNat < 16) :
    readField (configIp ctrl en func) funcField funcPos = func.setWidth 32 := by
  apply BitVec.eq_of_getLsbD_eq
  intro k hk
  rw [funcField, getLsbD_readField (by decide), BitVec.getLsbD_setWidth]
  by_cases h : k < 4
  · have hpos : funcPos + k < 32 := by unfold funcPos; omega
    have hen' : en.getLsbD (funcPos + k) = false :=
      getLsbD_of_toNat_lt (n := 1) hen (by unfold funcPos; omega)
    simp [h, hk, getLsbD_configIp ctrl en func hpos, hen']
  · have hfunc' : func.getLsbD k = false := getLsbD_of_toNat_lt (n := 4) hfunc (by omega)
    rw [hfunc', Bool.and_false, decide_eq_false h, Bool.false_and]

/-- Nothing outside the two fields is left. -/
theorem configIp_other (ctrl : BitVec 32) (hen : en.toNat < 2) (hfunc : func.toNat < 16) :
    configIp ctrl en func &&& ~~~(enField ||| funcField) = 0#32 := by
  apply BitVec.eq_of_getLsbD_eq
  intro k hk
  rw [BitVec.getLsbD_and, BitVec.getLsbD_not, BitVec.getLsbD_or, BitVec.getLsbD_zero,
    getLsbD_configIp ctrl en func hk, enField, funcField, getLsbD_fieldMask, getLsbD_fieldMask]
  by_cases h0 : k = 0
  · simp [h0, enPos]
  · have hen' : en.getLsbD k = false := getLsbD_of_toNat_lt (n := 1) hen (by omega)
    by_cases hf : funcPos ≤ k ∧ k < funcPos + 4
    · simp [hk, hf.1, hf.2]
    · by_cases hle : funcPos ≤ k
      · have hf' : func.getLsbD (k - funcPos) = false := getLsbD_of_toNat_lt (n := 4) hfunc (by omega)
        simp [hen', hf']
      · simp [hen', hle]

/-- **Main result.** `config_ip` sets its fields and keeps the other bits iff
these were all clear; a `WRITE_FIELD` always changes the bits of its mask
only, to the value cut to the mask, and two of them with disjoint masks
commute. -/
theorem configIpFramed_iff (ctrl : BitVec 32) (hen : en.toNat < 2) (hfunc : func.toNat < 16) :
    (ConfigIpFramed ctrl en func ↔ ctrl &&& ~~~(enField ||| funcField) = 0#32) ∧
      (∀ (r mask : BitVec 32) (shift : ℕ) (val : BitVec 32),
        writeField r mask shift val &&& ~~~mask = r &&& ~~~mask ∧
          writeField r mask shift val &&& mask = val <<< shift &&& mask) ∧
      ∀ (r m m' : BitVec 32) (shift shift' : ℕ) (val val' : BitVec 32), m &&& m' = 0#32 →
        writeField (writeField r m shift val) m' shift' val' =
          writeField (writeField r m' shift' val') m shift val := by
  refine ⟨?_, fun r mask shift val => ⟨writeField_frame r mask shift val, writeField_mask r mask shift val⟩,
    fun r m m' shift shift' val val' h => writeField_comm h r shift shift' val val'⟩
  constructor
  · intro h
    exact h.2.2.symm.trans (configIp_other ctrl hen hfunc)
  · intro h
    refine ⟨readField_en ctrl hen, readField_func ctrl hen hfunc, ?_⟩
    rw [configIp_other ctrl hen hfunc, h]

end Fields

/-- The read snoop on a register that is clear outside the fields. -/
theorem configIpFramed_iff_read_snoop :
    ConfigIpFramed 0x1E1#32 1#8 1#8 ↔ 0x1E1#32 &&& ~~~(enField ||| funcField) = 0#32 :=
  (configIpFramed_iff 0x1E1#32 (by decide) (by decide)).1

/-- The command field, from bit 22 on, is lost. -/
theorem not_configIpFramed_command : ¬ ConfigIpFramed 0x400000#32 1#8 1#8 := by
  unfold ConfigIpFramed
  decide

end BfxIp
end DaatMcs
